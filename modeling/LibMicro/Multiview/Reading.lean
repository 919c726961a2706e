import Mathlib.Data.List.Basic
import Mathlib.Data.List.Induction
import LibMicro.Multiview.Model

namespace LibMicro.Multiview

open Text

variable {name file : Name} {line : List Char} {s : State}

def rowName (line : List Char) : Option Name :=
  if isRow line then some ((fields line).headD []) else none

def rowValue (line : List Char) : Value :=
  if fieldValue line 2 = .field "ERROR".toList then .num (-1) else fieldValue line 4

theorem record_none (h : rowName line = none) : record file s line = s := by
  unfold rowName at h
  split at h
  · cases h
  · next hrow => exact if_neg hrow

theorem record_some (h : rowName line = some name) :
    record file s line =
      { s.register name with
        benchmarkData := Function.update (s.register name).benchmarkData (name, file)
          (rowValue line) } := by
  unfold rowName at h
  split at h
  · next hrow =>
    obtain rfl := Option.some.inj h
    rw [record, if_pos hrow]
    rfl
  · cases h

/-- The names that are numbered are those in the list, and none is there twice. -/
structure State.Consistent (s : State) : Prop where
  listed : ∀ n, s.benchmarkNames n = 0 ↔ n ∉ s.benchmarks
  nodup : s.benchmarks.Nodup

namespace State

theorem Consistent.start : State.start.Consistent where
  listed _ := iff_of_true rfl List.not_mem_nil
  nodup := List.nodup_nil

theorem register_benchmarkData (s : State) (name : Name) :
    (s.register name).benchmarkData = s.benchmarkData := by
  unfold register
  split <;> rfl

theorem Consistent.mem_register (h : s.Consistent) (name n : Name) :
    n ∈ (s.register name).benchmarks ↔ n ∈ s.benchmarks ∨ n = name := by
  unfold register
  split
  · simp
  · next hne =>
    have hmem : name ∈ s.benchmarks := not_not.mp (mt (h.listed name).mpr hne)
    constructor
    · exact .inl
    · rintro (hn | rfl)
      · exact hn
      · exact hmem

theorem Consistent.register (h : s.Consistent) (name : Name) : (s.register name).Consistent := by
  unfold State.register
  split
  · next hzero =>
    have hmem := (h.listed name).mp hzero
    refine ⟨fun n ↦ ?_, ?_⟩
    · rcases eq_or_ne n name with rfl | hne
      · simp
      · simp [hne, h.listed n]
    · exact (List.perm_append_singleton name s.benchmarks).nodup_iff.mpr
        (List.nodup_cons.mpr ⟨hmem, h.nodup⟩)
  · exact h

theorem Consistent.record (h : s.Consistent) (file : Name) (line : List Char) :
    (record file s line).Consistent := by
  cases hn : rowName line with
  | none => rwa [record_none hn]
  | some name =>
    rw [record_some hn]
    exact ⟨(h.register name).listed, (h.register name).nodup⟩

def read (s : State) (file : Name) (lines : List (List Char)) : State :=
  lines.foldl (Multiview.record file) s

theorem read_concat (s : State) (file : Name) (lines : List (List Char)) (line : List Char) :
    s.read file (lines ++ [line]) = Multiview.record file (s.read file lines) line := by
  simp [read]

theorem Consistent.read (h : s.Consistent) (file : Name) (lines : List (List Char)) :
    (s.read file lines).Consistent := by
  induction lines using List.reverseRecOn with
  | nil => exact h
  | append_singleton lines line ih =>
    rw [read_concat]
    exact ih.record file line

theorem Consistent.mem_read (h : s.Consistent) (file : Name) (lines : List (List Char)) (n : Name) :
    n ∈ (s.read file lines).benchmarks ↔
      n ∈ s.benchmarks ∨ ∃ line ∈ lines, rowName line = some n := by
  induction lines using List.reverseRecOn with
  | nil => simp [State.read]
  | append_singleton lines line ih =>
    rw [read_concat]
    cases hn : rowName line with
    | none =>
      rw [record_none hn, ih]
      simp [or_and_right, exists_or, hn]
    | some name =>
      rw [record_some hn]
      change n ∈ ((s.read file lines).register name).benchmarks ↔ _
      rw [(h.read file lines).mem_register, ih]
      simp [or_and_right, exists_or, hn, or_assoc, eq_comm]

end State

def lastLine (lines : List (List Char)) (name : Name) : Option (List Char) :=
  lines.reverse.find? (rowName · = some name)

theorem lastLine_concat (lines : List (List Char)) (line : List Char) (name : Name) :
    lastLine (lines ++ [line]) name =
      if rowName line = some name then some line else lastLine lines name := by
  simp only [lastLine, List.reverse_append, List.reverse_singleton, List.singleton_append,
    List.find?_cons]
  split <;> simp_all

def lastValue (lines : List (List Char)) (name : Name) : Value :=
  ((lastLine lines name).map rowValue).getD .unset

/-- The last line for a name decides what is stored for the file, and nothing is stored for
another file. -/
theorem State.read_benchmarkData (s : State) (file : Name) (lines : List (List Char)) (n g : Name) :
    (s.read file lines).benchmarkData (n, g) =
      if g = file then ((lastLine lines n).map rowValue).getD (s.benchmarkData (n, file))
      else s.benchmarkData (n, g) := by
  induction lines using List.reverseRecOn with
  | nil =>
    split
    · next he => rw [he]; rfl
    · rfl
  | append_singleton lines line ih =>
    rw [read_concat, lastLine_concat]
    cases hn : rowName line with
    | none => simp [record_none hn, ih]
    | some name =>
      rw [record_some hn, register_benchmarkData]
      rcases eq_or_ne name n with rfl | hne
      · rcases eq_or_ne g file with rfl | hg
        · simp
        · simpa [hg] using ih
      · simpa [hne, hne.symm] using ih

/-- What the files have told: the names of their rows, and the last value of each. -/
structure State.Tells (s : State) (contents : Name → List (List Char)) (argv : List Name) : Prop where
  consistent : s.Consistent
  listed : ∀ n, n ∈ s.benchmarks ↔ ∃ f ∈ argv, ∃ line ∈ contents f, rowName line = some n
  stored : ∀ n f, s.benchmarkData (n, f) = if f ∈ argv then lastValue (contents f) n else .unset

section Files

variable {contents : Name → List (List Char)} {argv : List Name}

theorem State.Tells.read (h : s.Tells contents argv) (file : Name) :
    (s.read file (contents file)).Tells contents (argv ++ [file]) where
  consistent := h.consistent.read file (contents file)
  listed n := by
    rw [h.consistent.mem_read, h.listed]
    simp [or_and_right, exists_or]
  stored n f := by
    rw [State.read_benchmarkData, h.stored, h.stored]
    rcases eq_or_ne f file with rfl | hf
    · rw [if_pos rfl, if_pos (List.mem_append_right argv (List.mem_singleton_self f)), lastValue]
      split
      · cases lastLine (contents f) n <;> rfl
      · rfl
    · simp [hf]

theorem readFiles_tells (contents : Name → List (List Char)) (argv : List Name) :
    (readFiles contents argv).Tells contents argv := by
  induction argv using List.reverseRecOn with
  | nil => exact ⟨.start, by simp [readFiles, State.start], by simp [readFiles, State.start]⟩
  | append_singleton argv f ih =>
    rw [readFiles, List.foldl_append]
    exact ih.read f

end Files

theorem name_of_printRow {argv : List Name} {row : TableRow} (h : printRow s argv name = some row) :
    row.name = name := by
  simp only [printRow] at h
  split_ifs at h
  · obtain ⟨others, -, h⟩ := Option.bind_eq_some_iff.mp h
    cases h
    rfl
  all_goals
    cases h
    rfl

/-- Each name has one row in the table, which is the one that is printed for it. -/
theorem rows_of_mapM {argv names : List Name} {table : List TableRow}
    (h : names.mapM (printRow s argv) = some table) :
    table.map (·.name) = names ∧ ∀ row ∈ table, printRow s argv row.name = some row := by
  induction names generalizing table with
  | nil =>
    cases h
    exact ⟨rfl, nofun⟩
  | cons name names ih =>
    rw [List.mapM_cons] at h
    obtain ⟨row, hrow, h⟩ := Option.bind_eq_some_iff.mp h
    obtain ⟨rows, hrows, h⟩ := Option.bind_eq_some_iff.mp h
    cases h
    obtain ⟨hnames, hall⟩ := ih hrows
    have hname := name_of_printRow hrow
    exact ⟨by rw [List.map_cons, hname, hnames],
      List.forall_mem_cons.mpr ⟨hname ▸ hrow, hall⟩⟩

/-- If the value counts as positive, then it is a number by which the script can divide. -/
def Value.Divides (v : Value) : Prop := v.gtZero → v.toNum ≠ 0

theorem compareCell_eq_some {a b : Value} (ha : a.gtZero) (hda : a.Divides) (hdb : b.Divides) :
    ∃ cell, compareCell a b = some cell := by
  unfold compareCell
  split
  · next hb =>
    rw [if_neg (hda ha)]
    have hfactor : b.toNum / a.toNum ≠ 0 := div_ne_zero (hdb hb) (hda ha)
    simp only [hfactor, and_false, if_false]
    exact ⟨_, rfl⟩
  · split <;> exact ⟨_, rfl⟩

theorem mapM_eq_some {α β : Type} {f : α → Option β} {l : List α}
    (h : ∀ x ∈ l, ∃ y, f x = some y) : ∃ ys, l.mapM f = some ys := by
  induction l with
  | nil => exact ⟨[], rfl⟩
  | cons x l ih =>
    rw [List.forall_mem_cons] at h
    obtain ⟨⟨y, hy⟩, h⟩ := h
    obtain ⟨ys, hys⟩ := ih h
    exact ⟨y :: ys, by simp [hy, hys]⟩

theorem printRow_eq_some (h : ∀ key, (s.benchmarkData key).Divides) (argv : List Name)
    (name : Name) : ∃ row, printRow s argv name = some row := by
  rw [printRow]
  split
  · next ha =>
    have hothers : ∀ file ∈ argv.tail, ∃ cell,
        compareCell (s.benchmarkData (name, argv.headD [])) (s.benchmarkData (name, file)) = some cell :=
      fun file _ ↦ compareCell_eq_some ha (h (name, argv.headD [])) (h (name, file))
    obtain ⟨cells, hcells⟩ := mapM_eq_some hothers
    rw [hcells]
    exact ⟨_, rfl⟩
  · exact ⟨_, rfl⟩

/-- The table is printed to its end if no row stores a value on which a division fails. -/
theorem multiview_eq_some {contents : Name → List (List Char)} {argv : List Name}
    (h : ∀ file ∈ argv, ∀ line ∈ contents file, isRow line → (rowValue line).Divides) :
    ∃ table, multiview contents argv = some table := by
  have htells := readFiles_tells contents argv
  refine mapM_eq_some fun name _ ↦ printRow_eq_some (fun key ↦ ?_) argv name
  obtain ⟨n, f⟩ := key
  rw [htells.stored]
  split
  · next hf =>
    rw [lastValue]
    cases hlast : lastLine (contents f) n with
    | none => exact nofun
    | some line =>
      have hname : rowName line = some n := by simpa using List.find?_some hlast
      have hmem : line ∈ contents f := List.mem_reverse.mp (List.mem_of_find?_eq_some hlast)
      refine h f hf line hmem (by_contra fun hrow ↦ ?_)
      rw [rowName, if_neg hrow] at hname
      cases hname
  · exact nofun

end LibMicro.Multiview
