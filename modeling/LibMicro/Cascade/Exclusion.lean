import Mathlib.Data.List.ProdSigma
import Mathlib.Logic.Equiv.Fin.Basic
import LibMicro.Cascade.FileLock
import LibMicro.Cascade.Locks

namespace LibMicro.Cascade.FileLock

open TransitionSystem CrossedRing

variable {P T : ℕ} {prog : Program} {s s' : State P T} {a : Act P T} {w v : Fin P × Fin T}
  {index : ℕ}

theorem openFiles_boot (n : ℕ) : openFiles (Kernel.boot : Kernel P) n =
    (⟨n, none, (List.range n).map (⟨·, 0⟩),
      Function.update (fun _ ↦ []) none (List.range n)⟩, List.range n) := by
  induction n with
  | zero =>
    simp only [openFiles, Kernel.boot, List.range_zero, List.map_nil, Prod.mk.injEq, and_true,
      Kernel.mk.injEq, true_and]
    exact (Function.update_eq_self none fun _ ↦ []).symm
  | succ n ih =>
    simp only [openFiles, ih, Kernel.openCreate, Kernel.unlink, Option.getD_none,
      Function.update_self, List.length_map, List.length_range, Function.update_idem,
      List.range_succ, List.map_append, List.map_cons, List.map_nil]
    simp

structure Opened (prog : Program) (s : State P T) : Prop where
  openFiles : s.kernel.openFiles = (List.range (prog.nfiles (P * T))).map (⟨·, 0⟩)
  files : s.files = List.range (prog.nfiles (P * T))
  parent : s.kernel.fds none = List.range (prog.nfiles (P * T))
  child : ∀ p, s.threads p ≠ 0 → s.kernel.fds (some p) = List.range (prog.nfiles (P * T))

theorem start_opened : Opened prog (start prog P T) := by
  unfold start Program.benchmarkInitrun
  rw [openFiles_boot]
  exact ⟨rfl, rfl, rfl, fun _ h ↦ absurd rfl h⟩

theorem step_cases (h : step prog s a = some s') :
    (∃ p, a = .fork p ∧ s.threads p = 0 ∧
      s' = { s with kernel := s.kernel.fork p, threads := Function.update s.threads p 1 }) ∨
    (∃ p, a = .create p ∧ s.threads p ≠ 0 ∧ s.threads p < T ∧
      s' = { s with threads := Function.update s.threads p (s.threads p + 1) }) ∨
    (∃ w index l o, a = .block w index ∧ lockOf prog s w index = some (l, o) ∧
      w.2.val < s.threads w.1 ∧ (s.locks l = none ∨ s.locks l = some o) ∧
      s' = { s with
        locks := Function.update s.locks l (some o)
        inside := s.setInside w index true }) ∨
    (∃ w index l o, a = .unblock w index ∧ lockOf prog s w index = some (l, o) ∧
      w.2.val < s.threads w.1 ∧
      s' = { s with
        locks := release s.locks l o
        inside := s.setInside w index false }) := by
  cases a with
  | fork p =>
    simp only [step] at h
    split_ifs at h with hp
    exact .inl ⟨p, rfl, hp.1, (Option.some.inj h).symm⟩
  | create p =>
    simp only [step] at h
    split_ifs at h with hp
    exact .inr (.inl ⟨p, rfl, hp.1, hp.2, (Option.some.inj h).symm⟩)
  | block w index =>
    simp only [step] at h
    split at h
    · next l o hl =>
      split_ifs at h with hw
      exact .inr (.inr (.inl ⟨w, index, l, o, rfl, hl, hw.1, hw.2, (Option.some.inj h).symm⟩))
    · cases h
  | unblock w index =>
    simp only [step] at h
    split at h
    · next l o hl =>
      split_ifs at h with hw
      exact .inr (.inr (.inr ⟨w, index, l, o, rfl, hl, hw, (Option.some.inj h).symm⟩))
    · cases h

theorem Opened.step (ho : Opened prog s) (h : step prog s a = some s') : Opened prog s' := by
  rcases step_cases h with ⟨p, -, -, rfl⟩ | ⟨p, -, hp, -, rfl⟩ | ⟨w, i, l, o, -, -, -, -, rfl⟩ |
    ⟨w, i, l, o, -, -, -, rfl⟩
  · refine ⟨ho.openFiles, ho.files, ?_, fun q hq ↦ ?_⟩
    · simpa [Kernel.fork] using ho.parent
    · by_cases he : q = p
      · subst he
        simpa [Kernel.fork] using ho.parent
      · have hne : some q ≠ some p := fun h ↦ he (Option.some.inj h)
        simp only [Function.update_of_ne he] at hq
        simp only [Kernel.fork, Function.update_of_ne hne]
        exact ho.child q hq
  · refine ⟨ho.openFiles, ho.files, ho.parent, fun q hq ↦ ?_⟩
    by_cases he : q = p
    · subst he
      exact ho.child q hp
    · simp only [Function.update_of_ne he] at hq
      exact ho.child q hq
  · exact ⟨ho.openFiles, ho.files, ho.parent, ho.child⟩
  · exact ⟨ho.openFiles, ho.files, ho.parent, ho.child⟩

theorem reachable_opened (hs : (system prog P T).Reachable s) : Opened prog s := by
  refine hs.invariant (I := Opened prog) ?_ fun s a s' _ ho hst ↦ ho.step hst
  rintro s rfl
  exact start_opened

def Program.lock (prog : Program) (index : ℕ) : ℕ × ℕ :=
  match prog with
  | .cascadeFlock | .cascadeLockf => (index, 0)
  | .cascadeFcntl => (0, index)

def Program.owner (prog : Program) (w : Fin P × Fin T) (index : ℕ) : Owner P :=
  match prog with
  | .cascadeFlock => .description index
  | .cascadeLockf | .cascadeFcntl => .process w.1

theorem lock_injective {i j : ℕ} (h : prog.lock i = prog.lock j) : i = j := by
  cases prog <;> simpa [Program.lock] using h

theorem Opened.lockOf_eq (ho : Opened prog s) (hw : s.threads w.1 ≠ 0) :
    lockOf prog s w index = if prog = .cascadeFcntl ∨ index < P * T * 2 then
      some (prog.lock index, prog.owner w index) else none := by
  cases prog with
  | cascadeFlock | cascadeLockf =>
    by_cases hi : index < P * T * 2
    · simp [lockOf, Program.file, ho.files, ho.child _ hw, ho.openFiles, Program.nfiles, hi,
        Program.lock, Program.owner]
    · simp [lockOf, Program.file, ho.files, Program.nfiles, hi]
  | cascadeFcntl =>
    simp [lockOf, Program.file, ho.files, ho.child _ hw, ho.openFiles, Program.nfiles,
      Program.lock, Program.owner]

theorem setInside_eq (s : State P T) (w v : Fin P × Fin T) (i j : ℕ) (b : Bool) :
    s.setInside w i b v j = if v = w ∧ j = i then b else s.inside v j := by
  unfold State.setInside
  by_cases hv : v = w
  · subst hv
    by_cases hj : j = i
    · subst hj
      simp
    · simp [hj]
  · simp [hv]

def OwnersDistinct (prog : Program) (P T : ℕ) : Prop :=
  ∀ (w v : Fin P × Fin T) i, prog.owner w i = prog.owner v i → w = v

def HoldsInside (prog : Program) (s : State P T) : Prop :=
  ∀ w index, s.inside w index = true →
    s.locks (prog.lock index) = some (prog.owner w index) ∧ s.threads w.1 ≠ 0

theorem HoldsInside.step (hd : OwnersDistinct prog P T) (ho : Opened prog s)
    (hi : HoldsInside prog s) (h : step prog s a = some s') : HoldsInside prog s' := by
  rcases step_cases h with ⟨p, -, hp, rfl⟩ | ⟨p, -, hp, -, rfl⟩ |
    ⟨w, i, l, o, -, hl, hw, hlock, rfl⟩ | ⟨w, i, l, o, -, hl, hw, rfl⟩
  · intro w i hin
    obtain ⟨hheld, hw⟩ := hi w i hin
    refine ⟨hheld, ?_⟩
    have hne : w.1 ≠ p := by rintro rfl; exact hw hp
    simpa only [Function.update_of_ne hne] using hw
  · intro w i hin
    obtain ⟨hheld, hw⟩ := hi w i hin
    refine ⟨hheld, ?_⟩
    by_cases he : w.1 = p
    · simp [he]
    · simpa only [Function.update_of_ne he] using hw
  all_goals
    have hw0 : s.threads w.1 ≠ 0 := by omega
    rw [ho.lockOf_eq hw0] at hl
    split_ifs at hl
    cases hl
    intro v j hin
    simp only [setInside_eq] at hin ⊢
  · by_cases hv : v = w ∧ j = i
    · obtain ⟨rfl, rfl⟩ := hv
      exact ⟨Function.update_self .., hw0⟩
    · rw [if_neg hv] at hin
      obtain ⟨hheld, hv0⟩ := hi v j hin
      refine ⟨?_, hv0⟩
      have hji : j ≠ i := by
        rintro rfl
        rw [hheld] at hlock
        rcases hlock with hlock | hlock
        · cases hlock
        · exact hv ⟨hd v w j (Option.some.inj hlock), rfl⟩
      rwa [Function.update_of_ne fun he ↦ hji (lock_injective he)]
  · by_cases hv : v = w ∧ j = i
    · rw [if_pos hv] at hin
      cases hin
    · rw [if_neg hv] at hin
      obtain ⟨hheld, hv0⟩ := hi v j hin
      refine ⟨?_, hv0⟩
      unfold release
      split_ifs with hown
      · have hji : j ≠ i := by
          rintro rfl
          exact hv ⟨hd v w j (Option.some.inj (hheld.symm.trans hown)), rfl⟩
        rwa [Function.update_of_ne fun he ↦ hji (lock_injective he)]
      · exact hheld

theorem excludes_of_distinct (hd : OwnersDistinct prog P T) : Excludes prog P T := by
  intro s hs w v i hne hin
  have ho := reachable_opened hs
  have hi : HoldsInside prog s := hs.invariant (I := HoldsInside prog)
    (fun s hs ↦ by subst hs; exact fun _ _ h ↦ nomatch h)
    (fun s a s' hs hi hst ↦ hi.step hd (reachable_opened hs) hst)
  by_contra hst
  obtain ⟨s', hst⟩ := Option.ne_none_iff_exists'.mp hst
  rcases step_cases hst with ⟨p, ha, -⟩ | ⟨p, ha, -⟩ | ⟨_, _, l, o, ha, hl, hv, hlock, -⟩ |
    ⟨_, _, _, _, ha, -⟩
  · cases ha
  · cases ha
  · cases ha
    rw [ho.lockOf_eq (by omega)] at hl
    split_ifs at hl
    cases hl
    rw [(hi w i hin).1] at hlock
    rcases hlock with hlock | hlock
    · cases hlock
    · exact hne (hd w v i (Option.some.inj hlock))
  · cases ha

theorem Program.Separates.distinct (h : prog.Separates P T) : OwnersDistinct prog P T := by
  intro w v i he
  obtain ⟨p, t⟩ := w
  obtain ⟨q, r⟩ := v
  have ht := t.isLt
  have hr := r.isLt
  cases prog with
  | cascadeFlock =>
    have hPT : P * T = 1 := h
    obtain rfl := Nat.eq_one_of_mul_eq_one_right hPT
    obtain rfl := Nat.eq_one_of_mul_eq_one_left hPT
    exact Subsingleton.elim _ _
  | cascadeLockf | cascadeFcntl =>
    obtain rfl : T = 1 := h
    cases he
    exact Prod.ext rfl (Subsingleton.elim t r)

def worker (w : Fin P × Fin T) : ℕ := w.1.val * T + w.2.val

theorem worker_eq (w : Fin P × Fin T) : worker w = (finProdFinEquiv w).val := by
  rw [finProdFinEquiv_apply_val, worker, Nat.mul_comm, Nat.add_comm]

theorem worker_lt (w : Fin P × Fin T) : worker w < P * T := by
  rw [worker_eq]
  exact (finProdFinEquiv w).isLt

def Program.layout : Program → Layout
  | .cascadeFlock | .cascadeLockf => .pairs
  | .cascadeFcntl => .spaced

theorem assignLocks_eq (prog : Program) :
    prog.assignLocks = assignLocksAt prog.layout.width prog.layout.gap := by
  cases prog <;> rfl

theorem tsd_index (prog : Program) (w : Fin P × Fin T) (n : LockName) :
    (prog.tsd w).index n = prog.layout.place (port (finProdFinEquiv w) n) := by
  rw [← Layout.assignLocksAt_index, ← worker_eq, Program.tsd, assignLocks_eq]
  rfl

theorem them0_injective (h : (prog.tsd w).index .them0 = (prog.tsd v).index .them0) : w = v := by
  rw [tsd_index, tsd_index] at h
  exact finProdFinEquiv.injective (port_them0_injective (prog.layout.place_injective h))

theorem them0_lt (prog : Program) (w : Fin P × Fin T) :
    prog = .cascadeFcntl ∨ (prog.tsd w).index .them0 < P * T * 2 := by
  rw [tsd_index]
  cases prog with
  | cascadeFlock | cascadeLockf => exact .inr (Layout.pairs.place_lt _)
  | cascadeFcntl => exact .inl rfl

def Act.isBirth : Act P T → Bool
  | .fork _ | .create _ => true
  | .block _ _ | .unblock _ _ => false

structure Born (prog : Program) (s : State P T) : Prop where
  opened : Opened prog s
  bound : ∀ p, s.threads p ≤ T
  locks : ∀ l, s.locks l = none
  inside : ∀ w i, s.inside w i = false

theorem Born.step (hT : 1 ≤ T) (hb : Born prog s) (ha : a.isBirth = true)
    (h : step prog s a = some s') : Born prog s' ∧
      ∃ p k, s.threads p < k ∧ k ≤ T ∧ s'.threads = Function.update s.threads p k := by
  have ho := hb.opened.step h
  have hbound {p : Fin P} {k : ℕ} (hkT : k ≤ T) (q : Fin P) :
      Function.update s.threads p k q ≤ T := by
    by_cases hq : q = p
    · subst hq; rwa [Function.update_self]
    · rw [Function.update_of_ne hq]
      exact hb.bound q
  rcases step_cases h with ⟨p, -, hp, rfl⟩ | ⟨p, -, -, hp, rfl⟩ | ⟨w, i, l, o, rfl, -⟩ |
    ⟨w, i, l, o, rfl, -⟩
  · exact ⟨⟨ho, hbound hT, hb.locks, hb.inside⟩, p, 1, by omega, hT, rfl⟩
  · exact ⟨⟨ho, hbound hp, hb.locks, hb.inside⟩, p, _, Nat.lt_succ_self _, hp, rfl⟩
  · cases ha
  · cases ha

theorem exists_born (prog : Program) (P : ℕ) (hT : 1 ≤ T) :
    ∃ l s, (∀ a ∈ l, Act.isBirth a = true) ∧
      (system prog P T).Run (start prog P T) l s ∧ Born prog s ∧ ∀ p, s.threads p = T := by
  have hstart : Born prog (start prog P T) :=
    ⟨start_opened, fun _ ↦ Nat.zero_le T, fun _ ↦ rfl, fun _ _ ↦ rfl⟩
  obtain ⟨l, s, hl, hr, hb, hn⟩ := System.exists_stuck_of_counter (A := system prog P T)
    (P := fun a ↦ a.isBirth = true) State.threads T
    (fun s a s' hb ha hst ↦ hb.step hT ha hst) hstart
  have hne (p : Fin P) : s.threads p ≠ 0 := by
    induction p using WellFoundedLT.induction with
    | ind p ih =>
      intro hp
      exact hn ⟨.fork p, _, rfl, if_pos ⟨hp, ih⟩⟩
  refine ⟨l, s, hl, hr, hb, fun p ↦ ?_⟩
  by_contra hp
  exact hn ⟨.create p, _, rfl, if_pos ⟨hne p, lt_of_le_of_ne (hb.bound p) hp⟩⟩

theorem step_block {l : ℕ × ℕ} {o : Owner P} (hl : lockOf prog s w index = some (l, o))
    (hw : w.2.val < s.threads w.1) (hlock : s.locks l = none ∨ s.locks l = some o) :
    step prog s (.block w index) = some { s with
      locks := Function.update s.locks l (some o)
      inside := s.setInside w index true } := by
  simp only [step, hl]
  exact if_pos ⟨hw, hlock⟩

theorem pre_run (ws : List (Fin P × Fin T)) (hn : ws.Nodup) (ho : Opened prog s)
    (ht : ∀ p, s.threads p = T)
    (hfree : ∀ w ∈ ws, s.locks (prog.lock ((prog.tsd w).index .them0)) = none) :
    ∃ t, (system prog P T).Run s (ws.map fun w ↦ .block w ((prog.tsd w).index .them0)) t ∧
      Opened prog t ∧ (∀ p, t.threads p = T) ∧
      (∀ w i, s.inside w i = true → t.inside w i = true) ∧
      (∀ l, (∀ w ∈ ws, l ≠ prog.lock ((prog.tsd w).index .them0)) → t.locks l = s.locks l) ∧
      ∀ w ∈ ws, t.inside w ((prog.tsd w).index .them0) = true ∧
        t.locks (prog.lock ((prog.tsd w).index .them0)) =
          some (prog.owner w ((prog.tsd w).index .them0)) := by
  induction ws generalizing s with
  | nil => exact ⟨s, .nil s, ho, ht, fun _ _ h ↦ h, fun _ _ ↦ rfl, by simp⟩
  | cons w ws ih =>
    obtain ⟨hw, hn⟩ := List.nodup_cons.mp hn
    have hlt : w.2.val < s.threads w.1 := by rw [ht]; exact w.2.isLt
    have hl : lockOf prog s w ((prog.tsd w).index .them0) =
        some (prog.lock ((prog.tsd w).index .them0),
          prog.owner w ((prog.tsd w).index .them0)) := by
      rw [ho.lockOf_eq (by omega), if_pos (them0_lt prog w)]
    have hst := step_block hl hlt (.inl (hfree w List.mem_cons_self))
    have hother {v : Fin P × Fin T} (hv : v ∈ ws) :
        prog.lock ((prog.tsd v).index .them0) ≠ prog.lock ((prog.tsd w).index .them0) :=
      fun he ↦ hw (them0_injective (lock_injective he) ▸ hv)
    obtain ⟨t, hr, hot, htt, hin, hlocks, hws⟩ := ih hn (ho.step hst) ht fun v hv ↦ by
      simp only [Function.update_of_ne (hother hv)]
      exact hfree v (List.mem_cons_of_mem _ hv)
    refine ⟨t, .cons hst hr, hot, htt, fun v i hv ↦ hin v i ?_, fun l hl ↦ ?_, fun v hv ↦ ?_⟩
    · simp only [setInside_eq]
      split_ifs
      · rfl
      · exact hv
    · rw [hlocks l fun v hv ↦ hl v (List.mem_cons_of_mem _ hv)]
      exact Function.update_of_ne (hl w List.mem_cons_self) ..
    · rcases List.mem_cons.mp hv with rfl | hv
      · refine ⟨hin v _ (by simp [setInside_eq]), ?_⟩
        rw [hlocks _ fun u hu ↦ (hother hu).symm]
        exact Function.update_self ..
      · exact hws v hv

def workers (P T : ℕ) : List (Fin P × Fin T) := (List.finRange P).product (List.finRange T)

theorem mem_workers (w : Fin P × Fin T) : w ∈ workers P T :=
  List.mem_product.mpr ⟨List.mem_finRange _, List.mem_finRange _⟩

theorem nodup_workers (P T : ℕ) : (workers P T).Nodup :=
  (List.nodup_finRange P).product (List.nodup_finRange T)

theorem exists_same_owner (hP : 1 ≤ P) (hT : 1 ≤ T) (h : ¬ prog.Separates P T) :
    ∃ w v : Fin P × Fin T, worker w = 0 ∧ worker v = 1 ∧ ∀ i, prog.owner w i = prog.owner v i := by
  cases prog with
  | cascadeFlock =>
    have h1 : P * T ≠ 1 := h
    have h0 : 0 < P * T := Nat.mul_pos hP hT
    refine ⟨finProdFinEquiv.symm ⟨0, h0⟩, finProdFinEquiv.symm ⟨1, by omega⟩, ?_, ?_, fun _ ↦ rfl⟩
    · rw [worker_eq, Equiv.apply_symm_apply]
    · rw [worker_eq, Equiv.apply_symm_apply]
  | cascadeLockf | cascadeFcntl =>
    have h1 : T ≠ 1 := h
    refine ⟨(⟨0, hP⟩, ⟨0, hT⟩), (⟨0, hP⟩, ⟨1, by omega⟩), ?_, ?_, fun _ ↦ rfl⟩
    · simp [worker]
    · simp [worker]

/-- When all workers have run `benchmark_pre` and done nothing else, the first
call of `benchmark` returns to a worker while another one is inside. -/
def Overlaps (prog : Program) (P T : ℕ) : Prop :=
  ∃ l s w v, (∀ a ∈ l, Act.isBirth a = true) ∧
    (system prog P T).Run (start prog P T)
      (l ++ (workers P T).map fun u ↦ .block u ((prog.tsd u).index .them0)) s ∧
    w ≠ v ∧ s.inside w ((prog.tsd v).index .us0) = true ∧
    step prog s (.block v ((prog.tsd v).index .us0)) ≠ none

theorem overlaps_of_same_owner (hT : 1 ≤ T) (hw : worker w = 0) (hv : worker v = 1)
    (ho : ∀ i, prog.owner w i = prog.owner v i) : Overlaps prog P T := by
  have hvlt := worker_lt v
  have hidx : (prog.tsd v).index .us0 = (prog.tsd w).index .them0 := by
    rw [worker_eq] at hw hv
    rw [tsd_index, tsd_index]
    exact congrArg prog.layout.place (link_straight (by omega) false).symm
  obtain ⟨l, s, hl, hr, hb, ht⟩ := exists_born prog P hT
  obtain ⟨t, hr', hot, htt, -, -, hws⟩ :=
    pre_run (workers P T) (nodup_workers P T) hb.opened ht fun _ _ ↦ hb.locks _
  obtain ⟨hin, hlock⟩ := hws w (mem_workers w)
  refine ⟨l, t, w, v, hl, hr.trans hr', fun he ↦ ?_, by rwa [hidx], ?_⟩
  · rw [he, hv] at hw
    cases hw
  · rw [ho] at hlock
    rw [hidx, step_block (hot.lockOf_eq (by rw [htt]; omega) |>.trans (if_pos (them0_lt prog w)))
      (by rw [htt]; exact v.2.isLt) (.inr hlock)]
    simp

/-- The file locks exclude other workers exactly if no two workers lock in the
same name. -/
theorem file_lock_excludes_iff (prog : Program) (P T : ℕ) (hP : 1 ≤ P) (hT : 1 ≤ T) :
    (Excludes prog P T ↔ prog.Separates P T) ∧ (Overlaps prog P T ↔ ¬ prog.Separates P T) := by
  have hoverlap (h : ¬ prog.Separates P T) : Overlaps prog P T := by
    obtain ⟨w, v, hw, hv, ho⟩ := exists_same_owner hP hT h
    exact overlaps_of_same_owner hT hw hv ho
  have hno (he : Excludes prog P T) : ¬ Overlaps prog P T := by
    rintro ⟨l, s, w, v, -, hr, hne, hin, hst⟩
    exact hst (he s (hr.reachable (.start rfl)) w v _ hne hin)
  have hyes (h : prog.Separates P T) : Excludes prog P T := excludes_of_distinct h.distinct
  refine ⟨⟨fun he ↦ ?_, hyes⟩, fun h hs ↦ hno (hyes hs) h, hoverlap⟩
  by_contra h
  exact hno he (hoverlap h)

theorem file_lock_excludes_iff_ten : Excludes .cascadeLockf 10 1 ∧ Overlaps .cascadeFlock 10 1 :=
  ⟨(file_lock_excludes_iff .cascadeLockf 10 1 (by decide) (by decide)).1.mpr rfl,
    (file_lock_excludes_iff .cascadeFlock 10 1 (by decide) (by decide)).2.mpr
      (by decide : (10 * 1 : ℕ) ≠ 1)⟩

theorem flock_overlaps : ¬ Excludes .cascadeFlock 2 1 := by
  have h : ((system .cascadeFlock 2 1).exec (start .cascadeFlock 2 1)
      [.fork 0, .fork 1, .block (0, 0) ((Program.cascadeFlock.tsd ((0, 0) : Fin 2 × Fin 1)).tsThem0),
        .block (1, 0) ((Program.cascadeFlock.tsd ((1, 0) : Fin 2 × Fin 1)).tsThem0)]).map
      (fun s ↦ (s.inside (0, 0) 2, (step .cascadeFlock s (.block (1, 0) 2)).isSome)) =
      some (true, true) := by
    decide +kernel
  obtain ⟨s, hs, he⟩ := Option.map_eq_some_iff.mp h
  simp only [Prod.mk.injEq] at he
  intro hx
  rw [hx s (System.exec_reachable hs rfl) (0, 0) (1, 0) 2 (by decide) he.1] at he
  cases he.2

end LibMicro.Cascade.FileLock
