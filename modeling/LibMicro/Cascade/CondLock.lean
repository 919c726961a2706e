import LibMicro.Ownership
import LibMicro.Cascade.Cond

namespace LibMicro.Cascade.Cond

open TransitionSystem Ownership

def Pc.holds (opto : Bool) : Pc → Bool
  | .test | .wait | .set | .blockUnlock | .store | .unblockUnlock => true
  | .unblockSignal => !opto
  | .idle | .blockLock | .condWait | .unblockLock => false

/-- What a statement that is executed with the mutex knows of `conds`. -/
def Pc.Fits (conds : ℤ) : Pc → Prop
  | .wait => conds ≠ 0
  | .set => conds = 0
  | .blockUnlock => conds = 1
  | .idle | .blockLock | .test | .condWait | .unblockLock | .store | .unblockSignal
  | .unblockUnlock => True

/-- A thread here, if it does not sleep, will signal or test `conds` again. -/
def Pc.wakes (opto : Bool) : Pc → Bool
  | .test | .condWait | .set | .unblockSignal => true
  | .unblockUnlock => opto
  | .idle | .blockLock | .wait | .blockUnlock | .unblockLock | .store => false

theorem Pc.fits_of_free (opto : Bool) {p : Pc} (h : ¬ p.holds opto = true) (conds : ℤ) :
    p.Fits conds := by
  cases p <;> trivial

variable {ι : Type} {opto : Bool} {s s' : State ι} {a : Act ι} {t u v : ι} {p : Pc}

/-- While `conds` is clear and threads sleep, some other thread is still to act. -/
structure CondOk (opto : Bool) (s : State ι) : Prop where
  owner : Owns s.mutex fun t ↦ (s.pc t).holds opto = true
  asleep : ∀ t ∈ s.cvs, s.pc t = .condWait
  fits : ∀ t, (s.pc t).Fits s.conds
  pending : s.conds = 0 → s.cvs.Nonempty → ∃ u, u ∉ s.cvs ∧ (s.pc u).wakes opto = true

theorem start_condOk : CondOk opto (start : State ι) where
  owner := owns_none fun _ h ↦ by cases h
  asleep _ h := by simp [start] at h
  fits _ := trivial
  pending _ h := by simp [start] at h

theorem CondOk.awake (hi : CondOk opto s) (ht : s.pc t ≠ .condWait) : t ∉ s.cvs :=
  fun h ↦ ht (hi.asleep t h)

theorem CondOk.holder (hi : CondOk opto s) (ht : (s.pc t).holds opto = true) :
    s.mutex = some t := (hi.owner t).mpr ht

/-- With the mutex free, a sleeper that could go on has someone who will let it. -/
theorem CondOk.no_lost_wakeup (hi : CondOk opto s) (hm : s.mutex = none) (h0 : s.conds = 0)
    (ht : t ∈ s.cvs) :
    ∃ u, u ≠ t ∧ (s.pc u = .unblockSignal ∨ s.pc u = .condWait ∧ u ∉ s.cvs) := by
  obtain ⟨u, hu, hw⟩ := hi.pending h0 ⟨t, ht⟩
  have hfree : ¬ (s.pc u).holds opto = true := by
    intro h
    rw [hi.holder h] at hm
    cases hm
  refine ⟨u, fun h ↦ hu (h ▸ ht), ?_⟩
  cases hp : s.pc u with
  | unblockSignal => exact .inl rfl
  | condWait => exact .inr ⟨rfl, hu⟩
  | idle | blockLock | wait | blockUnlock | unblockLock | store =>
    rw [hp] at hw
    cases hw
  | test | set | unblockUnlock =>
    rw [hp] at hfree
    exact absurd rfl hfree

variable [DecidableEq ι]

theorem fits_update (hf : ∀ v, (s.pc v).Fits s.conds) (hp : p.Fits s.conds) (v : ι) :
    (Function.update s.pc t p v).Fits s.conds := by
  by_cases hv : v = t
  · subst hv; rwa [Function.update_self]
  · rw [Function.update_of_ne hv]
    exact hf v

theorem CondOk.fits_write (hi : CondOk opto s) (ht : (s.pc t).holds opto = true) {conds : ℤ}
    (hp : p.Fits conds) (v : ι) : (Function.update s.pc t p v).Fits conds := by
  by_cases hv : v = t
  · subst hv; rwa [Function.update_self]
  · rw [Function.update_of_ne hv]
    exact Pc.fits_of_free opto (fun h ↦ hv (hi.owner.unique h ht)) conds

theorem asleep_update (ha : ∀ v ∈ s.cvs, s.pc v = .condWait) (ht : t ∉ s.cvs) :
    ∀ v ∈ s.cvs, Function.update s.pc t p v = .condWait := by
  intro v hv
  have hne : v ≠ t := by rintro rfl; exact ht hv
  rw [Function.update_of_ne hne]
  exact ha v hv

theorem pending_update (h : ∃ u, u ∉ s.cvs ∧ (s.pc u).wakes opto = true)
    (hp : (s.pc t).wakes opto = true → p.wakes opto = true) :
    ∃ u, u ∉ s.cvs ∧ (Function.update s.pc t p u).wakes opto = true := by
  obtain ⟨u, hu, hw⟩ := h
  refine ⟨u, hu, ?_⟩
  by_cases he : u = t
  · subst he
    rw [Function.update_self]
    exact hp hw
  · rwa [Function.update_of_ne he]

theorem CondOk.move (hi : CondOk opto s) (hc : p.holds opto = (s.pc t).holds opto)
    (ht : t ∉ s.cvs) (hf : p.Fits s.conds)
    (hw : s.conds = 0 → (s.pc t).wakes opto = true → p.wakes opto = true) :
    CondOk opto { s with pc := Function.update s.pc t p } where
  owner := hi.owner.keep (C := fun p : Pc ↦ p.holds opto = true) (by rw [hc])
  asleep := asleep_update hi.asleep ht
  fits := fits_update hi.fits hf
  pending h0 hne := pending_update (hi.pending h0 hne) (hw h0)

theorem CondOk.lock (hi : CondOk opto s) (hp : (s.pc t).locked = some p) (hm : s.mutex = none)
    (ht : t ∉ s.cvs) :
    CondOk opto { s with mutex := some t, pc := Function.update s.pc t p } where
  owner := by
    have ho := hi.owner
    rw [hm] at ho
    refine ho.acquire (C := fun p : Pc ↦ p.holds opto = true) ?_
    cases hpc : s.pc t <;> rw [hpc] at hp <;> cases hp <;> rfl
  asleep := asleep_update hi.asleep ht
  fits := fits_update hi.fits (by
    cases hpc : s.pc t <;> rw [hpc] at hp <;> cases hp <;> trivial)
  pending h0 hne := pending_update (hi.pending h0 hne) (by
    cases hpc : s.pc t <;> rw [hpc] at hp <;> cases hp <;> simp [Pc.wakes])

theorem CondOk.unlock (hi : CondOk opto s) (ht : (s.pc t).holds opto = true)
    (hp : p.holds opto = false) (hs : t ∉ s.cvs)
    (hw : s.conds = 0 → (s.pc t).wakes opto = true → p.wakes opto = true) :
    CondOk opto { s with mutex := none, pc := Function.update s.pc t p } where
  owner := hi.owner.release (C := fun p : Pc ↦ p.holds opto = true) ht (by simp [hp])
  asleep := asleep_update hi.asleep hs
  fits := fits_update hi.fits (Pc.fits_of_free opto (by simp [hp]) _)
  pending h0 hne := pending_update (hi.pending h0 hne) (hw h0)

theorem CondOk.write (hi : CondOk opto s) {conds : ℤ} (ht : (s.pc t).holds opto = true)
    (hp : p.holds opto = true) (hs : t ∉ s.cvs) (hf : p.Fits conds)
    (hw : conds = 0 → p.wakes opto = true) :
    CondOk opto { s with conds := conds, pc := Function.update s.pc t p } where
  owner := hi.owner.keep (C := fun p : Pc ↦ p.holds opto = true) (by rw [ht, hp])
  asleep := asleep_update hi.asleep hs
  fits := hi.fits_write ht hf
  pending h0 _ := ⟨t, hs, by
    simp only [Function.update_self]
    exact hw h0⟩

theorem CondOk.sleep (hi : CondOk opto s) (hp : s.pc t = .wait) :
    CondOk opto { s with
      mutex := none
      cvs := insert t s.cvs
      pc := Function.update s.pc t .condWait } where
  owner := hi.owner.release (C := fun p : Pc ↦ p.holds opto = true) (by rw [hp]; rfl)
    (by simp [Pc.holds])
  asleep v hv := by
    by_cases he : v = t
    · subst he
      exact Function.update_self ..
    · simp only [Function.update_of_ne he]
      exact hi.asleep v (Finset.mem_of_mem_insert_of_ne hv he)
  fits := fits_update hi.fits trivial
  pending h0 := by
    have hfits := hi.fits t
    rw [hp] at hfits
    exact absurd h0 hfits

theorem CondOk.wake (hi : CondOk opto s) (ht : t ∈ s.cvs) :
    CondOk opto { s with cvs := s.cvs.erase t } where
  owner := hi.owner
  asleep v hv := hi.asleep v (Finset.mem_of_mem_erase hv)
  fits := hi.fits
  pending _ _ := ⟨t, Finset.notMem_erase t s.cvs, by rw [hi.asleep t ht]; rfl⟩

section Signal

variable (hi : CondOk opto s) (hp : s.pc t = .unblockSignal)
  (hc : p.holds opto = (s.pc t).holds opto) (hf : p.Fits s.conds)
include hi hp hc hf

/-- The signal passes the task of going on to the sleeper it wakes. -/
theorem CondOk.signal (hu : u ∈ s.cvs) :
    CondOk opto { s with cvs := s.cvs.erase u, pc := Function.update s.pc t p } where
  owner := hi.owner.keep (C := fun p : Pc ↦ p.holds opto = true) (by rw [hc])
  asleep v hv := asleep_update hi.asleep (hi.awake (by simp [hp])) v (Finset.mem_of_mem_erase hv)
  fits := fits_update hi.fits hf
  pending _ _ := by
    have hut : u ≠ t := by
      rintro rfl
      rw [hi.asleep u hu] at hp
      cases hp
    refine ⟨u, Finset.notMem_erase u s.cvs, ?_⟩
    simp only [Function.update_of_ne hut, hi.asleep u hu]
    rfl

theorem CondOk.signal_none (hempty : s.cvs = ∅) :
    CondOk opto { s with pc := Function.update s.pc t p } where
  owner := hi.owner.keep (C := fun p : Pc ↦ p.holds opto = true) (by rw [hc])
  asleep := asleep_update hi.asleep (hi.awake (by simp [hp]))
  fits := fits_update hi.fits hf
  pending _ hne := by simp [hempty] at hne

end Signal

theorem CondOk.step (hi : CondOk opto s) (h : step opto s a = some s') : CondOk opto s' := by
  cases a with
  | callBlock t | callUnblock t =>
    simp only [Cond.step] at h
    split_ifs at h with hp
    cases h
    exact hi.move (by rw [hp]; rfl) (hi.awake (by simp [hp])) trivial (by simp [hp, Pc.wakes])
  | mutexLock t =>
    simp only [Cond.step] at h
    split at h
    · next p hp =>
      split_ifs at h with hm
      cases h
      exact hi.lock hp hm.1 hm.2
    · cases h
  | test t =>
    simp only [Cond.step] at h
    split at h
    · next hp =>
      cases h
      refine hi.move ?_ (hi.awake (by simp [hp])) ?_ fun h0 _ ↦ ?_
      · split_ifs <;> rw [hp] <;> rfl
      · split_ifs with h0
        · exact h0
        · exact not_not.mp h0
      · rw [if_neg (not_not.mpr h0)]
        rfl
    · cases h
  | condWait t =>
    simp only [Cond.step] at h
    split_ifs at h with hp
    cases h
    exact hi.sleep hp
  | spurious t =>
    simp only [Cond.step] at h
    split_ifs at h with ht
    cases h
    exact hi.wake ht
  | set t =>
    simp only [Cond.step] at h
    split_ifs at h with hp
    cases h
    exact hi.write (by rw [hp]; rfl) rfl (hi.awake (by simp [hp])) rfl (by simp)
  | blockReturn t =>
    simp only [Cond.step] at h
    split_ifs at h with hp
    cases h
    exact hi.unlock (by rw [hp]; rfl) rfl (hi.awake (by simp [hp])) (by simp [hp, Pc.wakes])
  | store t =>
    simp only [Cond.step] at h
    split at h
    · next hp =>
      cases h
      refine hi.write (by rw [hp]; rfl) ?_ (hi.awake (by simp [hp])) ?_ fun _ ↦ ?_
      · cases opto <;> simp [Pc.holds]
      · cases opto <;> trivial
      · cases opto <;> rfl
    · cases h
  | condSignal t o =>
    have hholds : (if opto then Pc.idle else .unblockUnlock).holds opto = !opto := by
      cases opto <;> rfl
    have hfits : (if opto then Pc.idle else .unblockUnlock).Fits s.conds := by
      cases opto <;> trivial
    cases o with
    | some u =>
      simp only [Cond.step] at h
      split at h
      · next hp =>
        cases h
        exact hi.signal hp.1 (by rw [hholds, hp.1]; rfl) hfits hp.2
      · cases h
    | none =>
      simp only [Cond.step] at h
      split at h
      · next hp =>
        cases h
        exact hi.signal_none hp.1 (by rw [hholds, hp.1]; rfl) hfits hp.2
      · cases h
  | mutexUnlock t =>
    simp only [Cond.step] at h
    split at h
    · next hp =>
      cases h
      have ht : (s.pc t).holds opto = true := by rw [hp]; rfl
      refine hi.unlock ht ?_ (hi.awake (by simp [hp])) ?_
      · cases opto <;> rfl
      · rw [hp]
        cases opto <;> simp [Pc.wakes]
    · cases h

theorem run_condOk {l : List (Act ι)} (h : (system opto).Run start l s) : CondOk opto s :=
  h.invariant start_condOk fun _ _ _ hi _ hst ↦ hi.step hst

theorem step_toLock (hi : CondOk opto s) (h : step opto s a = some s') :
    lock.stepOrStay (decide (s.conds ≠ 0)) a.toLock = some (decide (s'.conds ≠ 0)) := by
  cases a with
  | set t =>
    simp only [step] at h
    split_ifs at h with hp
    cases h
    have hfits := hi.fits t
    rw [hp] at hfits
    simp only [show s.conds = 0 from hfits]
    rfl
  | store t =>
    simp only [step] at h
    split at h
    · cases h
      cases decide (s.conds ≠ 0) <;> rfl
    · cases h
  | condSignal t o =>
    cases o <;>
    · simp only [step] at h
      split at h <;> cases h
      rfl
  | mutexLock t =>
    simp only [step] at h
    split at h
    · split at h <;> cases h
      rfl
    · cases h
  | callBlock t | callUnblock t | test t | condWait t | spurious t | blockReturn t
  | mutexUnlock t =>
    simp only [step] at h
    split at h <;> cases h
    rfl

/-- The state after `block` has returned, as long as nothing is stored: `conds`
is set and nobody else is about to return from `block`. -/
structure Taken (s : State ι) : Prop where
  conds : s.conds ≠ 0
  waits : ∀ t, s.pc t ≠ .set ∧ s.pc t ≠ .blockUnlock

theorem waits_update (hw : ∀ v, s.pc v ≠ .set ∧ s.pc v ≠ .blockUnlock)
    (hp : p ≠ .set ∧ p ≠ .blockUnlock) (v : ι) :
    Function.update s.pc t p v ≠ .set ∧ Function.update s.pc t p v ≠ .blockUnlock := by
  by_cases hv : v = t
  · subst hv; rwa [Function.update_self]
  · rw [Function.update_of_ne hv]
    exact hw v

theorem Taken.step (ht : Taken s) (ha : ∀ t, a ≠ .store t) (h : step opto s a = some s') :
    Taken s' := by
  cases a with
  | set t =>
    simp only [Cond.step] at h
    rw [if_neg (ht.waits t).1] at h
    cases h
  | store t => exact absurd rfl (ha t)
  | test t =>
    simp only [Cond.step, if_pos ht.conds] at h
    split_ifs at h
    cases h
    exact ⟨ht.conds, waits_update ht.waits (by simp)⟩
  | mutexLock t =>
    simp only [Cond.step] at h
    split at h
    · next p hp =>
      split_ifs at h
      cases h
      refine ⟨ht.conds, waits_update ht.waits ?_⟩
      cases hpc : s.pc t <;> rw [hpc] at hp <;> cases hp <;> simp
    · cases h
  | spurious t =>
    simp only [Cond.step] at h
    split_ifs at h
    cases h
    exact ⟨ht.conds, ht.waits⟩
  | condSignal t o =>
    cases o <;>
    · simp only [Cond.step] at h
      split at h <;> cases h
      exact ⟨ht.conds, waits_update ht.waits (by cases opto <;> simp)⟩
  | callBlock t | callUnblock t | condWait t | blockReturn t | mutexUnlock t =>
    simp only [Cond.step] at h
    split at h <;> cases h
    exact ⟨ht.conds, waits_update ht.waits (by cases opto <;> simp)⟩

theorem blockReturn_taken (hi : CondOk opto s) (h : step opto s (.blockReturn t) = some s') :
    Taken s' := by
  have hi' := hi.step h
  simp only [step] at h
  split_ifs at h with hp
  cases h
  have hfits := hi.fits t
  rw [hp] at hfits
  refine ⟨by rw [show s.conds = 1 from hfits]; decide, fun u ↦ ⟨fun hu ↦ ?_, fun hu ↦ ?_⟩⟩
  · cases hi'.holder (t := u) (by rw [hu]; rfl)
  · cases hi'.holder (t := u) (by rw [hu]; rfl)

theorem store_between {l : List (Act ι)} (hi : CondOk opto s)
    (h : (system opto).Run s (.blockReturn t :: l ++ [.blockReturn u]) s') :
    ∃ v, .store v ∈ l := by
  by_contra hno
  cases h with
  | cons hst h =>
    obtain ⟨r, hr, hu⟩ := h.split
    have ht : Taken r := hr.invariant (blockReturn_taken hi hst) fun s a s' ht ha hst ↦
      ht.step (fun v hv ↦ hno ⟨v, hv ▸ ha⟩) hst
    cases hu with
    | cons hu _ =>
      have hu : step opto r (.blockReturn u) = some _ := hu
      simp only [step, if_neg (ht.waits u).2] at hu
      cases hu

/-- `block` and `unblock` are an exclusive lock in any run, with `conds` as its
state, and no wakeup is lost. -/
theorem cond_refines_lock (opto : Bool) (l : List (Act ι)) (s : State ι)
    (h : (system opto).Run start l s) :
    lock.Run false (l.filterMap Act.toLock) (decide (s.conds ≠ 0)) ∧
    (∀ t u l₁ l₂ l₃, l = l₁ ++ (.blockReturn t :: l₂ ++ [.blockReturn u]) ++ l₃ →
      ∃ v, .store v ∈ l₂) ∧
    (s.mutex = none → s.conds = 0 → ∀ t ∈ s.cvs, ∃ u, u ≠ t ∧
      (s.pc u = .unblockSignal ∨ s.pc u = .condWait ∧ u ∉ s.cvs)) := by
  refine ⟨?_, fun t u l₁ l₂ l₃ hl ↦ ?_, fun hm h0 t ↦ (run_condOk h).no_lost_wakeup hm h0⟩
  · exact h.map (I := CondOk opto) (fun s ↦ decide (s.conds ≠ 0))
      (fun s a s' hi hst ↦ ⟨hi.step hst, step_toLock hi hst⟩) start_condOk
  · subst hl
    obtain ⟨r, hr, -⟩ := h.split
    obtain ⟨q, hq, hr⟩ := hr.split
    exact store_between (run_condOk hq) hr

theorem cond_refines_lock_two : ∃ (l : List (Act (Fin 2))) (s : State (Fin 2)),
    (system true).Run start l s ∧ 1 ∈ s.cvs ∧ s.conds = 0 ∧ s.mutex = none ∧
    ∃ u, u ≠ 1 ∧ (s.pc u = .unblockSignal ∨ s.pc u = .condWait ∧ u ∉ s.cvs) := by
  have h : ((system true).exec (start : State (Fin 2)) [.callBlock 0, .mutexLock 0, .test 0,
      .set 0, .blockReturn 0, .callBlock 1, .mutexLock 1, .test 1, .condWait 1, .callUnblock 0,
      .mutexLock 0, .store 0, .mutexUnlock 0]).map (fun s ↦ (decide (1 ∈ s.cvs), s.conds, s.mutex)) =
      some (true, 0, none) := by
    decide +kernel
  obtain ⟨s, hs, he⟩ := Option.map_eq_some_iff.mp h
  simp only [Prod.mk.injEq, decide_eq_true_eq] at he
  obtain ⟨h1, h0, hm⟩ := he
  have hr := System.exec_run hs
  exact ⟨_, s, hr, h1, h0, hm, (cond_refines_lock true _ s hr).2.2 hm h0 1 h1⟩

end LibMicro.Cascade.Cond
