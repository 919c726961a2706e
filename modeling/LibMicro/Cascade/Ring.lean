import Mathlib.Data.Set.Function
import LibMicro.Cascade.Exclusion

namespace LibMicro.Cascade.Ring

open CrossedRing FileLock

inductive Program
  | cascadeMutex
  | cascadeCond
  | file (prog : FileLock.Program)

def nlocks (nthreads : ℕ) : ℕ := nthreads * 2

namespace Program

def assignLocks : Program → ℕ → ℕ → TsdT → TsdT
  | cascadeMutex | cascadeCond => Cascade.assignLocks
  | file prog => prog.assignLocks

def extent (nthreads : ℕ) : Program → ℕ
  | cascadeMutex | cascadeCond => nlocks nthreads
  | file .cascadeFcntl => nlocks nthreads * 3
  | file prog => prog.nfiles nthreads

def tsd {P T : ℕ} (prog : Program) (w : Fin P × Fin T) : TsdT :=
  prog.assignLocks (P * T) (w.1.val * T + w.2.val) ⟨0, 0, 0, 0, 0, 0⟩

end Program

def Us (ts : TsdT) (index : ℕ) : Prop := ts.tsUs0 = index ∨ ts.tsUs1 = index

def Them (ts : TsdT) (index : ℕ) : Prop := ts.tsThem0 = index ∨ ts.tsThem1 = index

/-- Each worker has two locks, and is connected to the two of the next one. -/
structure Connected (prog : Program) (P T : ℕ) : Prop where
  number : Set.BijOn (fun w : Fin P × Fin T ↦ (prog.tsd w).tsId) Set.univ (Set.Iio (P * T))
  us : ∀ (w : Fin P × Fin T) n, ∃! v : Fin P × Fin T, Us (prog.tsd v) ((prog.tsd w).index n)
  them : ∀ (w : Fin P × Fin T) n, ∃! v : Fin P × Fin T, Them (prog.tsd v) ((prog.tsd w).index n)
  predecessor : ∀ (w v : Fin P × Fin T) index, Us (prog.tsd v) index → Them (prog.tsd w) index →
    (prog.tsd v).tsId = ((prog.tsd w).tsId + 1) % (P * T)
  straight : ∀ w v : Fin P × Fin T, (prog.tsd v).tsId = (prog.tsd w).tsId + 1 →
    (prog.tsd w).tsThem0 = (prog.tsd v).tsUs0 ∧ (prog.tsd w).tsThem1 = (prog.tsd v).tsUs1
  across : ∀ w v : Fin P × Fin T, (prog.tsd w).tsId + 1 = P * T → (prog.tsd v).tsId = 0 →
    (prog.tsd w).tsThem0 = (prog.tsd v).tsUs1 ∧ (prog.tsd w).tsThem1 = (prog.tsd v).tsUs0
  distinct : ∀ w : Fin P × Fin T, (prog.tsd w).index.Injective ↔ P * T ≠ 1
  within : ∀ (w : Fin P × Fin T) n, (prog.tsd w).index n < prog.extent (P * T)
  apart : prog = .file .cascadeFcntl → ∀ (w v : Fin P × Fin T) n m,
    (prog.tsd w).index n + 1 ≠ (prog.tsd v).index m

variable {P T : ℕ} {prog : Program} {w v : Fin P × Fin T} {index : ℕ}

namespace Program

def layout : Program → Layout
  | cascadeMutex | cascadeCond => .pairs
  | file prog => prog.layout

theorem assignLocks_eq (prog : Program) :
    prog.assignLocks = assignLocksAt prog.layout.width prog.layout.gap := by
  cases prog with
  | cascadeMutex | cascadeCond => rfl
  | file prog => exact FileLock.assignLocks_eq prog

theorem width_le (prog : Program) (N : ℕ) : N * prog.layout.width ≤ prog.extent N := by
  rcases prog with _ | _ | _ | _ | _ <;>
    simp only [layout, FileLock.Program.layout, Layout.pairs, Layout.spaced, extent, nlocks,
      FileLock.Program.nfiles] <;> omega

theorem tsd_tsId (prog : Program) (w : Fin P × Fin T) :
    (prog.tsd w).tsId = (finProdFinEquiv w).val := by
  rw [← worker_eq, tsd, assignLocks_eq]
  rfl

theorem tsd_index (prog : Program) (w : Fin P × Fin T) (n : LockName) :
    (prog.tsd w).index n = prog.layout.place (port (finProdFinEquiv w) n) := by
  rw [← Layout.assignLocksAt_index, ← worker_eq, tsd, assignLocks_eq]
  rfl

end Program

theorem us_iff : Us (prog.tsd w) index ↔ ∃ b, prog.layout.place (finProdFinEquiv w, b) = index := by
  rw [Bool.exists_bool]
  exact or_congr (Eq.congr_left (prog.tsd_index w .us0)) (Eq.congr_left (prog.tsd_index w .us1))

theorem them_iff : Them (prog.tsd w) index ↔
    ∃ b, prog.layout.place (link (P * T) Equiv.boolNot (finProdFinEquiv w, b)) = index := by
  rw [Bool.exists_bool]
  exact or_congr (Eq.congr_left (prog.tsd_index w .them0)) (Eq.congr_left (prog.tsd_index w .them1))

theorem index_eq {n m : LockName}
    (h : port (finProdFinEquiv w) n = port (finProdFinEquiv v) m) :
    (prog.tsd w).index n = (prog.tsd v).index m := by
  rw [prog.tsd_index, prog.tsd_index, h]

theorem bijOn_tsId (prog : Program) (P T : ℕ) :
    Set.BijOn (fun w : Fin P × Fin T ↦ (prog.tsd w).tsId) Set.univ (Set.Iio (P * T)) := by
  simp only [Program.tsd_tsId]
  refine ⟨fun w _ ↦ (finProdFinEquiv w).isLt, fun w _ v _ h ↦ finProdFinEquiv.injective (Fin.ext h),
    fun i hi ↦ ?_⟩
  exact ⟨finProdFinEquiv.symm ⟨i, hi⟩, Set.mem_univ _,
    congrArg Fin.val (finProdFinEquiv.apply_symm_apply ⟨i, hi⟩)⟩

theorem existsUnique_us (prog : Program) (w : Fin P × Fin T) (n : LockName) :
    ∃! v : Fin P × Fin T, Us (prog.tsd v) ((prog.tsd w).index n) := by
  simp only [us_iff, prog.tsd_index, own_iff prog.layout.place_injective]
  exact finProdFinEquiv.bijective.existsUnique _

theorem existsUnique_them (prog : Program) (w : Fin P × Fin T) (n : LockName) :
    ∃! v : Fin P × Fin T, Them (prog.tsd v) ((prog.tsd w).index n) := by
  simp only [them_iff, prog.tsd_index, linked_iff prog.layout.place_injective]
  exact finProdFinEquiv.bijective.existsUnique _

theorem predecessor (hv : Us (prog.tsd v) index) (hw : Them (prog.tsd w) index) :
    (prog.tsd v).tsId = ((prog.tsd w).tsId + 1) % (P * T) := by
  obtain ⟨b, hb⟩ := us_iff.mp hv
  obtain ⟨c, hc⟩ := them_iff.mp hw
  have he := prog.layout.place_injective (hb.trans hc.symm)
  rw [prog.tsd_tsId, prog.tsd_tsId, ← finRotate_val]
  exact congrArg (fun x ↦ x.1.val) he

theorem straight (h : (prog.tsd v).tsId = (prog.tsd w).tsId + 1) :
    (prog.tsd w).tsThem0 = (prog.tsd v).tsUs0 ∧ (prog.tsd w).tsThem1 = (prog.tsd v).tsUs1 := by
  rw [prog.tsd_tsId, prog.tsd_tsId] at h
  constructor
  · exact index_eq (n := .them0) (m := .us0) (link_straight h false)
  · exact index_eq (n := .them1) (m := .us1) (link_straight h true)

theorem across (hw : (prog.tsd w).tsId + 1 = P * T) (hv : (prog.tsd v).tsId = 0) :
    (prog.tsd w).tsThem0 = (prog.tsd v).tsUs1 ∧ (prog.tsd w).tsThem1 = (prog.tsd v).tsUs0 := by
  rw [prog.tsd_tsId] at hw hv
  constructor
  · exact index_eq (n := .them0) (m := .us1) (link_across hw hv false)
  · exact index_eq (n := .them1) (m := .us0) (link_across hw hv true)

theorem index_injective_iff (prog : Program) (w : Fin P × Fin T) :
    (prog.tsd w).index.Injective ↔ P * T ≠ 1 := by
  have hindex : (prog.tsd w).index = prog.layout.place ∘ port (finProdFinEquiv w) :=
    funext (prog.tsd_index w)
  rw [hindex, prog.layout.place_injective.of_comp_iff, port_injective_iff]

theorem even_place {N : ℕ} (x : Fin N × Bool) : Layout.spaced.place x % 2 = 0 := by
  obtain ⟨u, b⟩ := x
  cases b <;> simp only [Layout.place_false, Layout.place_true, Layout.spaced] <;> omega

/-- In all five programs the locks make the workers a ring, which is crossed where it closes. -/
theorem locks_connected (prog : Program) (P T : ℕ) : Connected prog P T where
  number := bijOn_tsId prog P T
  us := existsUnique_us prog
  them := existsUnique_them prog
  predecessor _ _ _ := predecessor
  straight _ _ := straight
  across _ _ := across
  distinct := index_injective_iff prog
  within w n := by
    rw [prog.tsd_index]
    exact (prog.layout.place_lt _).trans_le (prog.width_le _)
  apart h w v n m he := by
    subst h
    have hw := even_place (port (finProdFinEquiv w) n)
    have hv := even_place (port (finProdFinEquiv v) m)
    rw [Program.tsd_index, Program.tsd_index] at he
    change Layout.spaced.place _ + 1 = Layout.spaced.place _ at he
    omega

end LibMicro.Cascade.Ring
