import LibMicro.Multiview.Headers
import LibMicro.Output.Bench

namespace LibMicro.Output

open Text Decimal Multiview

variable {c : Doubles} {b : Bench c} {key value : List Char} {s : HeaderState} {file name : Name}

/-- A key that the script takes for one: without a tab, and not a number. -/
structure IsKey (key : List Char) : Prop where
  noTab : '\t' ∉ key
  letter : ∃ d ∈ key, d.isDigit = false

theorem IsKey.named (h : IsKey key) : Named (padRight 14 key) := by
  intro n he
  obtain ⟨d, hd, hletter⟩ := h.letter
  have hmem : d ∈ integer (n : ℤ) := he ▸ List.mem_append_left _ hd
  rw [integer_natCast] at hmem
  rw [isDigit_toDigits hmem] at hletter
  cases hletter

theorem recordHeader_printHeader (h : IsKey key)
    (he : ¬ contains "errors".toList (printHeader key value)) :
    recordHeader file s (printHeader key value) =
      s.register file (padRight 14 key) (value.take 50) := by
  have htab : '\t' ∉ '!' :: padRight 14 key := by
    rw [List.mem_cons, padRight, List.mem_append, not_or, not_or]
    refine ⟨by decide, h.noTab, fun hb ↦ ?_⟩
    cases List.eq_of_mem_replicate hb
  have hname : ((printHeader key value).takeWhile (· ≠ '\t')).drop 1 = padRight 14 key := by
    have hsplit := takeWhile_ne htab (value.take 50)
    rw [List.cons_append] at hsplit
    rw [printHeader, hsplit]
    rfl
  have hdata : (printHeader key value).drop ((padRight 14 key).length + 2) = value.take 50 := by
    rw [printHeader, List.drop_succ_cons, List.drop_append]
    simp
  have hrule : ¬ ((printHeader key value).head? = some '#' ∨
      contains "errors".toList (printHeader key value) ∨
        (printHeader key value).head? ≠ some '!') := by
    rintro (hh | hh | hh)
    · exact absurd (Option.some.inj hh) (by decide)
    · exact he hh
    · exact hh rfl
  simp only [recordHeader, if_neg hrule, hname, hdata]

theorem recordHeader_unmarked {line : List Char} (h : line.head? ≠ some '!') :
    recordHeader file s line = s := if_pos (.inr (.inr h))

theorem foldl_unmarked {rows : List Row} (h : Unmarked rows) :
    (rows.map Row.line).foldl (recordHeader file) s = s := by
  induction rows generalizing s with
  | nil => rfl
  | cons r rows ih =>
    rw [Unmarked, List.forall_mem_cons] at h
    rw [List.map_cons, List.foldl_cons, recordHeader_unmarked h.1, ih h.2]

namespace Bench

def named (b : Bench c) (file : Name) : List Header :=
  b.headers.map fun (key, value) ↦ (file, padRight 14 key, value.take 50)

structure Keyed (b : Bench c) : Prop where
  key : ∀ h ∈ b.headers, IsKey h.1
  noErrors : ∀ h ∈ b.headers, ¬ contains "errors".toList (printHeader h.1 h.2)

theorem unmarked_of_rowName {line : List Char} (h : rowName line = some name) :
    line.head? ≠ some '!' := by
  intro hm
  rw [rowName, isRow] at h
  simp [hm] at h

theorem Proper.unmarked (hb : b.Proper) : Unmarked (b.items.flatMap Item.rows) := by
  intro row hrow
  obtain ⟨item, hitem, hrow⟩ := List.mem_flatMap.mp hrow
  cases item with
  | comment a l ha =>
    obtain rfl := List.mem_singleton.mp hrow
    cases a with
    | nil => exact fun hm ↦ absurd (Option.some.inj hm) (by decide)
    | cons d a =>
      obtain rfl : d = '#' := by simpa using ha
      exact fun hm ↦ absurd (Option.some.inj hm) (by decide)
  | run p =>
    obtain ⟨before, own, after, heq, -, hown, names, names', hbefore, hafter, -⟩ :=
      Run.exists_parts p.printed
    have hmem : row ∈ before ++ own ++ after := heq ▸ hrow
    rcases List.mem_append.mp hmem with hmem | hmem
    · rcases List.mem_append.mp hmem with hmem | hmem
      · exact hbefore.unmarked row hmem
      · exact unmarked_of_rowName ((hb.runs p hitem).rowName_own hrow (hown row hmem).1)
    · exact hafter.unmarked row hmem

theorem Keyed.read (hb : b.Proper) (hk : b.Keyed) {l : List Header} (h : s.Holds l) :
    ((b.rows.map Row.line).foldl (recordHeader file) s).Holds (l ++ b.named file) := by
  rw [rows, List.map_append, List.foldl_append, foldl_unmarked hb.unmarked, named, List.map_map]
  obtain ⟨hkey, herrors⟩ := hk
  generalize b.headers = headers at hkey herrors
  induction headers using List.reverseRecOn with
  | nil => simpa using h
  | append_singleton headers entry ih =>
    rw [List.forall_mem_append, List.forall_mem_singleton] at hkey herrors
    rw [List.map_append, List.foldl_append, List.map_append, ← List.append_assoc]
    rw [List.map_singleton, List.foldl_cons, List.foldl_nil]
    refine (congrArg (HeaderState.Holds · _) ?_).mpr
      ((ih hkey.1 herrors.1).register hkey.2.named)
    exact recordHeader_printHeader hkey.2 herrors.2

def header (b : Bench c) (name : Name) : Option (List Char) :=
  (b.headers.reverse.find? fun h ↦ padRight 14 h.1 = name).map (·.2.take 50)

theorem lastData_named (b : Bench c) (file f name : Name) :
    lastData (b.named file) f name = if file = f then b.header name else none := by
  simp only [lastData, named, header, ← List.map_reverse, List.find?_map, Option.map_map]
  split_ifs with hf
  · simp only [hf, true_and, Function.comp_def]
  · rw [List.find?_eq_none.mpr fun h _ ↦ by simp [hf]]
    rfl

end Bench

section Files

variable {benches : Name → Bench c} {argv : List Name}

def allNamed (benches : Name → Bench c) (argv : List Name) : List Header :=
  argv.flatMap fun file ↦ (benches file).named file

theorem readHeaders_holds (hc : Text.Plain c.nan)
    (h : ∀ file ∈ argv, (benches file).Proper ∧ (benches file).Keyed) :
    (readHeaders (fun file ↦ lines (benches file).text) argv).Holds (allNamed benches argv) := by
  induction argv using List.reverseRecOn with
  | nil => exact start_holds
  | append_singleton argv file ih =>
    rw [List.forall_mem_append, List.forall_mem_singleton] at h
    rw [readHeaders, List.foldl_append, List.foldl_cons, List.foldl_nil,
      h.2.1.lines_text hc, allNamed, List.flatMap_append, List.flatMap_singleton]
    exact h.2.2.read h.2.1 (ih h.1)

theorem lastData_allNamed (benches : Name → Bench c) (argv : List Name) (file name : Name) :
    lastData (allNamed benches argv) file name =
      if file ∈ argv then (benches file).header name else none := by
  induction argv using List.reverseRecOn with
  | nil => rfl
  | append_singleton argv f ih =>
    rw [allNamed, List.flatMap_append, List.flatMap_singleton, lastData_append,
      Bench.lastData_named]
    change (if f = file then _ else none).or (lastData (allNamed benches argv) file name) = _
    rw [ih]
    by_cases hf : f = file
    · subst hf
      cases (benches f).header name <;> simp
    · simp [hf, Ne.symm hf]

/-- What `print_header` has written stands in the first rows of the table: each key once, in the
order in which the keys have come, and for each file the last value for it, cut after fifty
characters and without the blanks in front. -/
theorem bench_headers (hc : Text.Plain c.nan)
    (h : ∀ file ∈ argv, (benches file).Proper ∧ (benches file).Keyed) :
    headerRows (readHeaders (fun file ↦ lines (benches file).text) argv) argv =
      (argv.flatMap fun file ↦ (benches file).headers.map fun h ↦ padRight 14 h.1).eraseDups.map
        fun n ↦ (n, argv.map fun file ↦ (((benches file).header n).getD []).dropWhile isBlank) := by
  rw [(readHeaders_holds hc h).headerRows]
  have hnames : (allNamed benches argv).map (·.2.1) =
      argv.flatMap fun file ↦ (benches file).headers.map fun h ↦ padRight 14 h.1 := by
    simp only [allNamed, List.map_flatMap, Bench.named, List.map_map]
    rfl
  rw [hnames]
  refine List.map_congr_left fun n _ ↦ ?_
  congr 1
  refine List.map_congr_left fun file hfile ↦ ?_
  rw [lastData_allNamed, if_pos hfile]

end Files

/-- A machine that is named twice. -/
theorem bench_headers_twice :
    let c : Doubles := ⟨id, "nan".toList⟩
    let b : Bench c := ⟨[("MACHINE".toList, " one".toList), ("OS".toList, "Linux".toList),
      ("MACHINE".toList, " two".toList)], []⟩
    headerRows (readHeaders (fun _ ↦ lines b.text) ["a".toList]) ["a".toList] =
      [(padRight 14 "MACHINE".toList, ["two".toList]),
        (padRight 14 "OS".toList, ["Linux".toList])] := by
  intro c b
  have hproper : b.Proper := by
    refine ⟨by decide, fun _ _ _ hmem ↦ ?_, fun _ hmem ↦ ?_⟩ <;> cases hmem
  have hmachine : IsKey "MACHINE".toList := ⟨by decide, 'M', List.mem_cons_self, rfl⟩
  have hos : IsKey "OS".toList := ⟨by decide, 'O', List.mem_cons_self, rfl⟩
  have hkeyed : b.Keyed := by
    refine ⟨List.forall_mem_cons.mpr ⟨hmachine, List.forall_mem_cons.mpr ⟨hos, ?_⟩⟩,
      by decide +kernel⟩
    exact List.forall_mem_singleton.mpr hmachine
  rw [@bench_headers c (fun _ ↦ b) ["a".toList] (by decide)
    (List.forall_mem_singleton.mpr ⟨hproper, hkeyed⟩)]
  decide +kernel

end LibMicro.Output
