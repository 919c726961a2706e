import LibMicro.Multiview.Sort
import Mathlib.Data.List.Nodup

namespace LibMicro.Multiview

/-- The variables about benchmarks, with `benchmarks` as the array that it is. -/
structure Table where
  benchmarkNames : Name → ℕ
  benchmarkCount : ℕ
  benchmarks : ℕ → Name

def Table.start : Table := ⟨fun _ ↦ 0, 0, fun _ ↦ []⟩

def Table.register (t : Table) (name : Name) : Table :=
  if t.benchmarkNames name = 0 then
    { benchmarkNames := Function.update t.benchmarkNames name (t.benchmarkCount + 1)
      benchmarkCount := t.benchmarkCount + 1
      benchmarks := Function.update t.benchmarks (t.benchmarkCount + 1) name }
  else t

def Table.record (t : Table) (line : List Char) : Table :=
  if isRow line then t.register ((Text.fields line).headD []) else t

def readTable (contents : Name → List (List Char)) (argv : List Name) : Table :=
  argv.foldl (fun t file ↦ (contents file).foldl Table.record t) .start

/-- The body of the two loops, where `tmp` keeps the name at `j`. -/
def exchangeAt (benchmarks : ℕ → Name) (j : ℕ) : ℕ → Name :=
  if benchmarks j > benchmarks (j + 1) then
    let tmp := benchmarks j
    let benchmarks := Function.update benchmarks j (benchmarks (j + 1))
    Function.update benchmarks (j + 1) tmp
  else benchmarks

def exchangeLoop (benchmarkCount : ℕ) (benchmarks : ℕ → Name) : ℕ → Name :=
  (List.range' 1 (benchmarkCount - 1)).foldl exchangeAt benchmarks

def sortLoops (benchmarkCount : ℕ) (benchmarks : ℕ → Name) : ℕ → Name :=
  (List.range' 1 (benchmarkCount - 1)).foldl (fun benchmarks _ ↦
    exchangeLoop benchmarkCount benchmarks) benchmarks

def Table.sorted (t : Table) : Table :=
  { t with benchmarks := sortLoops t.benchmarkCount t.benchmarks }

def Table.listed (t : Table) : List Name := (List.range' 1 t.benchmarkCount).map t.benchmarks

section Loops

variable {b : ℕ → Name} {i j k m : ℕ}

theorem exchangeAt_of_ne (h₁ : m ≠ j) (h₂ : m ≠ j + 1) : exchangeAt b j m = b m := by
  unfold exchangeAt
  split
  · dsimp only
    rw [Function.update_of_ne h₂, Function.update_of_ne h₁]
  · rfl

theorem exchanges_of_lt (k : ℕ) (h : m < i) :
    (List.range' i k).foldl exchangeAt b m = b m := by
  induction k generalizing i b with
  | zero => rfl
  | succ k ih =>
    rw [List.range'_succ, List.foldl_cons, ih (Nat.lt_succ_of_lt h),
      exchangeAt_of_ne (by omega) (by omega)]

theorem exchanges_eq (k i : ℕ) (b : ℕ → Name) :
    (List.range' i (k + 1)).map ((List.range' i k).foldl exchangeAt b) =
      exchangeFrom (b i) ((List.range' (i + 1) k).map b) := by
  induction k generalizing i b with
  | zero => rfl
  | succ k ih =>
    have hrest : (List.range' (i + 2) k).map (exchangeAt b i) = (List.range' (i + 2) k).map b := by
      apply List.map_congr_left
      intro m hm
      have hle := (List.mem_range'_1.mp hm).1
      exact exchangeAt_of_ne (by omega) (by omega)
    rw [List.range'_succ (s := i) (n := k), List.foldl_cons, List.range'_succ (s := i),
      List.map_cons, ih, hrest, exchanges_of_lt k (Nat.lt_succ_self i), List.range'_succ, List.map_cons,
      exchangeFrom]
    by_cases h : b i > b (i + 1)
    · have hi : exchangeAt b i i = b (i + 1) := by
        rw [exchangeAt, if_pos h, Function.update_of_ne (by omega), Function.update_self]
      have hnext : exchangeAt b i (i + 1) = b i := by
        rw [exchangeAt, if_pos h]
        exact Function.update_self _ _ _
      rw [if_pos h, hi, hnext]
    · rw [if_neg h, exchangeAt, if_neg h]

theorem exchangeLoop_eq (n : ℕ) (b : ℕ → Name) :
    (List.range' 1 n).map (exchangeLoop n b) = exchange ((List.range' 1 n).map b) := by
  cases n with
  | zero => rfl
  | succ n =>
    rw [exchangeLoop, Nat.add_sub_cancel, exchanges_eq, List.range'_succ, List.map_cons]
    rfl

theorem sortLoops_eq (n : ℕ) (b : ℕ → Name) :
    (List.range' 1 n).map (sortLoops n b) = sort ((List.range' 1 n).map b) := by
  have hiter : Function.Semiconj (fun b ↦ (List.range' 1 n).map b) (exchangeLoop n) exchange :=
    exchangeLoop_eq n
  rw [sortLoops, List.foldl_const, List.length_range', sort, List.length_map, List.length_range']
  exact hiter.iterate_right (n - 1) b

end Loops

section Reading

structure Represents (t : Table) (s : State) : Prop where
  names : t.benchmarkNames = s.benchmarkNames
  listed : t.listed = s.benchmarks

variable {t : Table} {s : State}

theorem Represents.count (h : Represents t s) : t.benchmarkCount = s.benchmarks.length := by
  rw [← h.listed, Table.listed, List.length_map, List.length_range']

theorem Represents.register (h : Represents t s) (name : Name) :
    Represents (t.register name) (s.register name) := by
  unfold Table.register State.register
  rw [h.names]
  split
  case isTrue =>
    constructor
    case names => rw [h.count]
    case listed =>
      have hkept : (List.range' 1 t.benchmarkCount).map
          (Function.update t.benchmarks (t.benchmarkCount + 1) name) = s.benchmarks := by
        rw [← h.listed]
        apply List.map_congr_left
        intro i hi
        have hle := (List.mem_range'_1.mp hi).2
        exact Function.update_of_ne (by omega) _ _
      rw [Table.listed, List.range'_1_concat, List.map_append, hkept, Nat.add_comm 1,
        List.map_singleton]
      dsimp only
      rw [Function.update_self]
  case isFalse => exact h

theorem Represents.record (h : Represents t s) (file : Name) (line : List Char) :
    Represents (t.record line) (Multiview.record file s line) := by
  unfold Table.record Multiview.record
  split
  case isTrue =>
    have hregister := h.register ((Text.fields line).headD [])
    exact ⟨hregister.names, hregister.listed⟩
  case isFalse => exact h

theorem Represents.read (h : Represents t s) (file : Name) (lines : List (List Char)) :
    Represents (lines.foldl Table.record t) (s.read file lines) := by
  induction lines using List.reverseRecOn with
  | nil => exact h
  | append_singleton lines line ih =>
    rw [List.foldl_append, State.read_concat]
    exact ih.record file line

theorem readTable_represents (contents : Name → List (List Char)) (argv : List Name) :
    Represents (readTable contents argv) (readFiles contents argv) := by
  induction argv using List.reverseRecOn with
  | nil => exact ⟨rfl, rfl⟩
  | append_singleton argv file ih =>
    rw [readTable, List.foldl_append, readFiles, List.foldl_append]
    exact ih.read file (contents file)

end Reading

section Listed

variable {t : Table} {name : Name} {i j : ℕ}

theorem mem_listed : name ∈ t.listed ↔ ∃ i, (1 ≤ i ∧ i ≤ t.benchmarkCount) ∧ t.benchmarks i = name := by
  rw [Table.listed, List.mem_map]
  simp only [List.mem_range'_1, Nat.add_comm 1, Nat.lt_succ_iff]

theorem listed_inj (h : t.listed.Nodup) (hi : 1 ≤ i ∧ i ≤ t.benchmarkCount)
    (hj : 1 ≤ j ∧ j ≤ t.benchmarkCount) (he : t.benchmarks i = t.benchmarks j) : i = j := by
  apply List.inj_on_of_nodup_map h
  · exact List.mem_range'_1.mpr (by omega)
  · exact List.mem_range'_1.mpr (by omega)
  · exact he

theorem listed_ordered (h : Sorted t.listed) (hi : 1 ≤ i) (hij : i < j)
    (hj : j ≤ t.benchmarkCount) : ¬ t.benchmarks j < t.benchmarks i := by
  have hpair := List.pairwise_iff_getElem.mp h (i - 1) (j - 1)
    (by simp [Table.listed]; omega) (by simp [Table.listed]; omega) (by omega)
  have hi' : 1 + (i - 1) = i := by omega
  have hj' : 1 + (j - 1) = j := by omega
  simpa [Table.listed, hi', hj'] using hpair

end Listed

/-- The array of the table `t` before the first row is printed. -/
structure ListsOnce (contents : Name → List (List Char)) (argv : List Name) (t : Table) : Prop where
  once : ∀ name, (∃ file ∈ argv, ∃ line ∈ contents file, rowName line = some name) →
    ∃! i, (1 ≤ i ∧ i ≤ t.benchmarkCount) ∧ t.sorted.benchmarks i = name
  only : ∀ i, 1 ≤ i → i ≤ t.benchmarkCount →
    ∃ file ∈ argv, ∃ line ∈ contents file, rowName line = some (t.sorted.benchmarks i)
  ordered : ∀ i j, 1 ≤ i → i < j → j ≤ t.benchmarkCount →
    ¬ t.sorted.benchmarks j < t.sorted.benchmarks i
  kept : t.sorted.listed.Perm t.listed

theorem multiview_lists_once (contents : Name → List (List Char)) (argv : List Name) :
    ListsOnce contents argv (readTable contents argv) := by
  have hread := readFiles_tells contents argv
  have hlisted := (readTable_represents contents argv).listed
  have hsorted : (readTable contents argv).sorted.listed = sort (readTable contents argv).listed :=
    sortLoops_eq _ _
  obtain ⟨hperm, horder⟩ := sort_spec (readTable contents argv).listed
  rw [← hsorted] at hperm horder
  have hmem (name : Name) : name ∈ (readTable contents argv).sorted.listed ↔ _ :=
    (hperm.trans (.of_eq hlisted)).mem_iff.trans (hread.listed name)
  have hnodup : (readTable contents argv).sorted.listed.Nodup :=
    (hperm.trans (.of_eq hlisted)).nodup_iff.mpr hread.consistent.nodup
  constructor
  case once =>
    intro name hname
    obtain ⟨i, hi, hb⟩ := mem_listed.mp ((hmem name).mpr hname)
    refine ⟨i, ⟨hi, hb⟩, ?_⟩
    rintro j ⟨hj, hb'⟩
    exact listed_inj hnodup hj hi (hb'.trans hb.symm)
  case only =>
    intro i hi hle
    exact (hmem _).mp (mem_listed.mpr ⟨i, ⟨hi, hle⟩, rfl⟩)
  case ordered =>
    intro i j hi hij hle
    exact listed_ordered horder hi hij hle
  case kept => exact hperm

end LibMicro.Multiview
