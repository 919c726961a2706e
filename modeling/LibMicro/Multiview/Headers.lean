import LibMicro.Multiview.Reading

namespace LibMicro.Multiview

open Text Decimal

/-- The variables of the script that are about headers. Subscripts are texts. -/
structure HeaderState where
  headers : List Char → Name
  headerData : Name × Name → List Char
  headerNames : Name → ℕ
  headerCount : ℕ

def HeaderState.start : HeaderState := ⟨fun _ ↦ [], fun _ ↦ [], fun _ ↦ 0, 0⟩

def HeaderState.register (s : HeaderState) (filename name data : List Char) : HeaderState :=
  let headers := Function.update s.headers name name
  let headerData := Function.update s.headerData (name, filename) data
  if s.headerNames name = 0 then
    { headers := Function.update headers (integer (s.headerCount + 1 : ℕ)) name
      headerData := headerData
      headerNames := Function.update s.headerNames name (s.headerCount + 1)
      headerCount := s.headerCount + 1 }
  else { s with headers := headers, headerData := headerData }

def recordHeader (filename : Name) (s : HeaderState) (line : List Char) : HeaderState :=
  if line.head? = some '#' ∨ contains "errors".toList line ∨ line.head? ≠ some '!' then s
  else
    let name := (line.takeWhile (· ≠ '\t')).drop 1
    s.register filename name (line.drop (name.length + 2))

def readHeaders (contents : Name → List (List Char)) (argv : List Name) : HeaderState :=
  argv.foldl (fun s file ↦ (contents file).foldl (recordHeader file) s) .start

/-- The first rows of the table: a name, and the data of each file without leading blanks. -/
def headerRows (s : HeaderState) (argv : List Name) : List (Name × List (List Char)) :=
  (List.range s.headerCount).map fun i ↦
    let hname := s.headers (integer (i + 1 : ℕ))
    (hname, argv.map fun file ↦ (s.headerData (hname, file)).dropWhile isBlank)

abbrev Header := Name × Name × List Char

def lastData (l : List Header) (file name : Name) : Option (List Char) :=
  (l.reverse.find? fun h ↦ h.1 = file ∧ h.2.1 = name).map (·.2.2)

/-- No subscript of a name is one of a number. -/
def Named (name : Name) : Prop := ∀ n : ℕ, name ≠ integer n

/-- The headers that have been read: each name has one number, in the order in which the
names have come. -/
structure HeaderState.Holds (s : HeaderState) (l : List Header) : Prop where
  count : s.headerCount = (l.map (·.2.1)).eraseDups.length
  listed : ∀ i n, (l.map (·.2.1)).eraseDups[i]? = some n → s.headers (integer (i + 1 : ℕ)) = n
  known : ∀ n, s.headerNames n = 0 ↔ n ∉ l.map (·.2.1)
  data : ∀ n f, s.headerData (n, f) = (lastData l f n).getD []

variable {s : HeaderState} {l : List Header} {file name data : List Char}

theorem start_holds : HeaderState.start.Holds [] where
  count := rfl
  listed _ _ h := by cases h
  known _ := iff_of_true rfl List.not_mem_nil
  data _ _ := rfl

theorem lastData_append (l l' : List Header) (f n : Name) :
    lastData (l ++ l') f n = (lastData l' f n).or (lastData l f n) := by
  rw [lastData, lastData, lastData, List.reverse_append, List.find?_append, Option.map_or]

theorem lastData_one (file name data f n : List Char) :
    lastData [(file, name, data)] f n = if file = f ∧ name = n then some data else none := by
  simp only [lastData, List.reverse_singleton, List.find?_cons, List.find?_nil]
  split_ifs with h <;> simp [h]

theorem eraseDups_concat (l : List Name) (n : Name) :
    (l ++ [n]).eraseDups = if n ∈ l then l.eraseDups else l.eraseDups ++ [n] := by
  rw [List.eraseDups_append]
  split_ifs with h <;> simp [List.removeAll, List.eraseDups_cons, h]

theorem HeaderState.Holds.register (h : s.Holds l) (hname : Named name) :
    (s.register file name data).Holds (l ++ [(file, name, data)]) := by
  have hnames : (l ++ [(file, name, data)]).map (·.2.1) = l.map (·.2.1) ++ [name] := by simp
  have hdata (n f : Name) : Function.update s.headerData (name, file) data (n, f) =
      (lastData (l ++ [(file, name, data)]) f n).getD [] := by
    rw [lastData_append, lastData_one]
    by_cases he : file = f ∧ name = n
    · obtain ⟨rfl, rfl⟩ := he
      simp
    · have hne : (n, f) ≠ (name, file) := fun h ↦ he ⟨(Prod.ext_iff.mp h).2.symm,
        (Prod.ext_iff.mp h).1.symm⟩
      rw [Function.update_of_ne hne, h.data, if_neg he, Option.none_or]
  unfold HeaderState.register
  split_ifs with hnew
  · have hmem := (h.known name).mp hnew
    refine ⟨?_, fun i n hi ↦ ?_, fun n ↦ ?_, hdata⟩
    · simp [hnames, eraseDups_concat, hmem, h.count]
    · rw [hnames, eraseDups_concat, if_neg hmem] at hi
      rcases Nat.lt_trichotomy i s.headerCount with hlt | rfl | hgt
      · rw [List.getElem?_append_left (h.count ▸ hlt)] at hi
        have hne : integer (i + 1 : ℕ) ≠ integer (s.headerCount + 1 : ℕ) := fun he ↦ by
          have := integer_inj he
          omega
        simp only [Function.update_of_ne hne, Function.update_of_ne (hname _).symm]
        exact h.listed i n hi
      · simp only [h.count, List.getElem?_concat_length, Option.some.injEq] at hi
        simp only [Function.update_self, hi]
      · have hlen : ((l.map (·.2.1)).eraseDups ++ [name]).length ≤ i := by
          rw [List.length_append, List.length_singleton, ← h.count]
          exact hgt
        rw [List.getElem?_eq_none hlen] at hi
        cases hi
    · rcases eq_or_ne n name with rfl | hne
      · simp [hnames]
      · simp [hnames, hne, h.known n]
  · have hmem : name ∈ l.map (·.2.1) := by
      by_contra hout
      exact hnew ((h.known name).mpr hout)
    refine ⟨?_, fun i n hi ↦ ?_, fun n ↦ ?_, hdata⟩
    · simp only [hnames, eraseDups_concat, if_pos hmem, h.count]
    · rw [hnames, eraseDups_concat, if_pos hmem] at hi
      simp only [Function.update_of_ne (hname _).symm]
      exact h.listed i n hi
    · rw [hnames, h.known n, List.mem_append, List.mem_singleton, or_iff_left_of_imp]
      rintro rfl
      exact hmem

/-- The table has one row for each name, in the order in which they have come. -/
theorem HeaderState.Holds.headerRows (h : s.Holds l) (argv : List Name) :
    headerRows s argv = (l.map (·.2.1)).eraseDups.map fun n ↦
      (n, argv.map fun file ↦ ((lastData l file n).getD []).dropWhile isBlank) := by
  refine List.ext_getElem? fun i ↦ ?_
  rw [Multiview.headerRows, List.getElem?_map, List.getElem?_map, h.count]
  cases hi : (l.map (·.2.1)).eraseDups[i]? with
  | none =>
    rw [List.getElem?_eq_none (by simpa using List.getElem?_eq_none_iff.mp hi)]
    rfl
  | some n =>
    rw [List.getElem?_range (List.getElem?_eq_some_iff.mp hi).1]
    simp only [Option.map_some, h.listed i n hi, h.data]

end LibMicro.Multiview
