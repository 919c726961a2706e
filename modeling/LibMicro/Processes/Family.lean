import LibMicro.Harness.Projection
import LibMicro.Processes.Model

namespace LibMicro.Processes

open TransitionSystem Barrier Harness

variable {opt : Options} {s s' : State opt} {a : Act opt} {p : Fin opt.lmOptP} {u v : WorkerId opt}

inductive Advances (s : State opt) (p : Fin opt.lmOptP) : Process → Prop
  | create {i : ℕ} (h : s.process p = .creating i) (hi : i < opt.lmOptT) :
    Advances s p (.creating (i + 1))
  | work {i : ℕ} (h : s.process p = .creating i) (hi : opt.lmOptT ≤ i) : Advances s p .running
  | worked (h : s.process p = .running)
    (hd : ∀ t : Fin opt.lmOptT, t.val = 0 → s.pc (p, t) = .done) : Advances s p (.joining 1)
  | join {i : ℕ} (h : s.process p = .joining i) (hi : i < opt.lmOptT)
    (hd : s.pc (p, ⟨i, hi⟩) = .done) : Advances s p (.joining (i + 1))
  | exit {i : ℕ} (h : s.process p = .joining i) (hi : opt.lmOptT ≤ i) : Advances s p (.exited 0)

inductive Moves (s : State opt) : Act opt → State opt → Prop
  | fork {i : ℕ} (h : s.parent = .forking i) (hi : i < opt.lmOptP) :
    Moves s .parent { s with
      process := Function.update s.process ⟨i, hi⟩ (.creating 1)
      parent := .forking (i + 1) }
  | forked {i : ℕ} (h : s.parent = .forking i) (hi : opt.lmOptP ≤ i) :
    Moves s .parent { s with parent := .waiting 0 }
  | reap {i : ℕ} (h : s.parent = .waiting i) (hi : i < opt.lmOptP)
    (he : s.process ⟨i, hi⟩ = .exited 0) : Moves s .parent { s with parent := .waiting (i + 1) }
  | stop {i : ℕ} {status : ℤ} (h : s.parent = .waiting i) (hi : i < opt.lmOptP)
    (he : s.process ⟨i, hi⟩ = .exited status) (hs : status ≠ 0) :
    Moves s .parent { s with parent := .exited }
  | reaped {i : ℕ} (h : s.parent = .waiting i) (hi : opt.lmOptP ≤ i) :
    Moves s .parent { s with parent := .finished }
  | main {next : Process} (p : Fin opt.lmOptP) (h : Advances s p next) :
    Moves s (.main p) { s with process := Function.update s.process p next }
  | run {h : Harness.State (WorkerId opt)} (u : WorkerId opt) (now : BitVec 64)
    (hu : s.Started u) (hst : Harness.step opt s.harness (.run u now) = some h) :
    Moves s (.run u now) { s with harness := h }
  | spurious {h : Harness.State (WorkerId opt)} (u : WorkerId opt) (hu : s.Started u)
    (hst : Harness.step opt s.harness (.spurious u) = some h) :
    Moves s (.spurious u) { s with harness := h }
  | fail (u : WorkerId opt) (hu : s.Started u) (hc : calls (s.pc u) = true) :
    Moves s (.fail u) { s with process := Function.update s.process u.1 (.exited 1) }

theorem step_moves (h : step s a = some s') : Moves s a s' := by
  cases a with
  | parent =>
    simp only [step] at h
    cases hp : s.parent with
    | forking i =>
      simp only [hp] at h
      split_ifs at h with hi <;> cases h
      · exact .fork hp hi
      · exact .forked hp (not_lt.mp hi)
    | waiting i =>
      simp only [hp] at h
      split_ifs at h with hi
      · cases he : s.process ⟨i, hi⟩ with
        | exited status =>
          simp only [he] at h
          by_cases hs : status = 0
          · subst hs
            cases h
            exact .reap hp hi he
          · rw [if_pos hs] at h
            cases h
            exact .stop hp hi he hs
        | unborn | creating i | running | joining i => simp [he] at h
      · cases h
        exact .reaped hp (not_lt.mp hi)
    | finished | exited => simp [hp] at h
  | main p =>
    simp only [step] at h
    cases hp : s.process p with
    | creating i =>
      simp only [hp] at h
      split_ifs at h with hi <;> cases h
      · exact .main p (.create hp hi)
      · exact .main p (.work hp (not_lt.mp hi))
    | running =>
      simp only [hp] at h
      split_ifs at h with hd
      cases h
      exact .main p (.worked hp hd)
    | joining i =>
      simp only [hp] at h
      split_ifs at h with hi hd <;> cases h
      · exact .main p (.join hp hi hd)
      · exact .main p (.exit hp (not_lt.mp hi))
    | unborn | exited status => simp [hp] at h
  | run u now =>
    simp only [step] at h
    split_ifs at h with hu
    obtain ⟨h', hst, rfl⟩ := Option.map_eq_some_iff.mp h
    exact .run u now hu hst
  | spurious u =>
    simp only [step] at h
    split_ifs at h with hu
    obtain ⟨h', hst, rfl⟩ := Option.map_eq_some_iff.mp h
    exact .spurious u hu hst
  | fail u =>
    simp only [step] at h
    split_ifs at h with hu
    cases h
    exact .fail u hu.1 hu.2

theorem harness_reachable (hs : (system opt).Reachable s) :
    (Harness.system opt).Reachable s.harness := by
  refine hs.invariant (I := fun s ↦ (Harness.system opt).Reachable s.harness) ?_ ?_
  · rintro s ⟨starttime, rfl⟩
    exact .start ⟨starttime, rfl⟩
  · intro s a s' _ hr hst
    cases step_moves hst with
    | run u now _ hh | spurious u _ hh => exact reachable_step hr hh
    | fork | forked | reap | stop | reaped | main | fail => exact hr

def ThreadOk (t : ℕ) (pc : WorkerPc) : Process → Prop
  | .unborn => pc = .initworker
  | .creating i => t = 0 ∨ i ≤ t → pc = .initworker
  | .running => True
  | .joining i => t < i → pc = .done
  | .exited status => status = 0 → pc = .done

/-- The parent forks the processes in their order and waits for them in it. -/
structure Family (s : State opt) : Prop where
  forking : ∀ i, s.parent = .forking i → ∀ k, s.process k = .unborn ↔ i ≤ k.val
  waiting : ∀ i, s.parent = .waiting i → ∀ k, s.process k ≠ .unborn ∧
    (k.val < i → s.process k = .exited 0)
  finished : s.parent = .finished → ∀ k, s.process k = .exited 0
  threads : ∀ u, ThreadOk u.2.val (s.pc u) (s.process u.1)

theorem start_family (starttime : BitVec 64) : Family (start opt starttime) where
  forking i hi k := by
    cases hi
    exact ⟨fun _ ↦ Nat.zero_le _, fun _ ↦ rfl⟩
  waiting i hi := by cases hi
  finished hf := by cases hf
  threads _ := rfl

theorem Advances.living {next : Process} (h : Advances s p next) :
    s.process p ≠ .unborn ∧ (∀ status, s.process p ≠ .exited status) ∧ next ≠ .unborn := by
  cases h with
  | create hp _ | work hp _ | worked hp _ | join hp _ _ | exit hp _ => simp [hp]

theorem Advances.threads {next : Process} (h : Advances s p next)
    (ht : ∀ t, ThreadOk t.val (s.pc (p, t)) (s.process p)) (t : Fin opt.lmOptT) :
    ThreadOk t.val (s.pc (p, t)) next := by
  have ht' := ht t
  cases h with
  | create hp hi =>
    rw [hp] at ht'
    exact fun h ↦ ht' (by omega)
  | work hp hi => trivial
  | worked hp hd => exact fun h ↦ hd t (by omega)
  | join hp hi hd =>
    rw [hp] at ht'
    intro h
    rcases Nat.lt_succ_iff_lt_or_eq.mp h with h | h
    · exact ht' h
    · subst h
      exact hd
  | exit hp hi =>
    rw [hp] at ht'
    exact fun _ ↦ ht' (by have := t.isLt; omega)

theorem State.Started.living (hu : s.Started u) :
    s.process u.1 ≠ .unborn ∧ ∀ status, s.process u.1 ≠ .exited status := by
  unfold State.Started at hu
  cases hp : s.process u.1 <;> simp_all

theorem Family.run {h : Harness.State (WorkerId opt)} {now : BitVec 64} (hf : Family s)
    (hu : s.Started u) (hst : Harness.step opt s.harness (.run u now) = some h)
    (v : WorkerId opt) : ThreadOk v.2.val (h.worker v).pc (s.process v.1) := by
  have hv := hf.threads v
  simp only [Harness.step, Option.map_eq_some_iff] at hst
  obtain ⟨⟨b, w⟩, hw, rfl⟩ := hst
  by_cases he : v = u
  · subst he
    unfold State.Started at hu
    cases hp : s.process v.1 with
    | unborn | exited status => simp [hp] at hu
    | creating i =>
      simp only [hp] at hu
      exact fun h ↦ by omega
    | running => trivial
    | joining i =>
      rw [hp] at hv
      intro hi
      have hpc : (s.harness.worker v).pc = .done := hv hi
      simp [workerStep, hpc] at hw
  · simp only [Function.update_of_ne he]
    exact hv

theorem Family.update (hf : Family s) {next : Process} (hborn : s.process p ≠ .unborn)
    (hlive : ∀ status, s.process p ≠ .exited status) (hnext : next ≠ .unborn)
    (ht : ∀ t : Fin opt.lmOptT, ThreadOk t.val (s.pc (p, t)) next) :
    Family { s with process := Function.update s.process p next } where
  forking i hi k := by
    by_cases hk : k = p
    · subst hk
      simp only [Function.update_self, hnext, false_iff]
      exact fun hle ↦ hborn ((hf.forking i hi k).mpr hle)
    · simp only [Function.update_of_ne hk]
      exact hf.forking i hi k
  waiting i hi k := by
    by_cases hk : k = p
    · subst hk
      simp only [Function.update_self]
      exact ⟨hnext, fun hlt ↦ absurd ((hf.waiting i hi k).2 hlt) (hlive 0)⟩
    · simp only [Function.update_of_ne hk]
      exact hf.waiting i hi k
  finished hfin := absurd (hf.finished hfin p) (hlive 0)
  threads u := by
    obtain ⟨q, t⟩ := u
    by_cases hk : q = p
    · subst hk
      simp only [Function.update_self]
      exact ht t
    · simp only [Function.update_of_ne hk]
      exact hf.threads (q, t)

theorem Family.step (hf : Family s) (h : step s a = some s') : Family s' := by
  cases step_moves h with
  | @fork i hp hi =>
    have hfork := hf.forking i hp
    refine ⟨fun j hj k ↦ ?_, fun _ hj ↦ (by cases hj), fun hj ↦ (by cases hj), fun u ↦ ?_⟩
    · cases hj
      by_cases hk : k = ⟨i, hi⟩
      · subst hk
        simp
      · have hne : k.val ≠ i := fun he ↦ hk (Fin.ext he)
        simp only [Function.update_of_ne hk, hfork]
        omega
    · by_cases hk : u.1 = ⟨i, hi⟩
      · have hu := hf.threads u
        rw [(hfork u.1).mpr (by rw [hk])] at hu
        simp only [hk, Function.update_self]
        exact fun _ ↦ hu
      · simp only [Function.update_of_ne hk]
        exact hf.threads u
  | @forked i hp hi =>
    have hfork := hf.forking i hp
    refine ⟨fun _ hj ↦ (by cases hj), fun j hj k ↦ ?_, fun hj ↦ (by cases hj), hf.threads⟩
    cases hj
    refine ⟨fun hk ↦ ?_, fun hk ↦ by omega⟩
    have := (hfork k).mp hk
    have := k.isLt
    omega
  | @reap i hp hi he =>
    have hwait := hf.waiting i hp
    refine ⟨fun _ hj ↦ (by cases hj), fun j hj k ↦ ?_, fun hj ↦ (by cases hj), hf.threads⟩
    cases hj
    refine ⟨(hwait k).1, fun hk ↦ ?_⟩
    rcases Nat.lt_succ_iff_lt_or_eq.mp hk with hk | hk
    · exact (hwait k).2 hk
    · rwa [show k = ⟨i, hi⟩ from Fin.ext hk]
  | stop hp hi he hs =>
    exact ⟨fun _ hj ↦ (by cases hj), fun _ hj ↦ (by cases hj), fun hj ↦ (by cases hj), hf.threads⟩
  | @reaped i hp hi =>
    refine ⟨fun _ hj ↦ (by cases hj), fun _ hj ↦ (by cases hj), fun _ k ↦ ?_, hf.threads⟩
    exact (hf.waiting i hp k).2 (by have := k.isLt; omega)
  | main p hadv =>
    obtain ⟨hborn, hlive, hnext⟩ := hadv.living
    exact hf.update hborn hlive hnext (hadv.threads fun t ↦ hf.threads (p, t))
  | run u now hu hst =>
    exact ⟨hf.forking, hf.waiting, hf.finished, hf.run hu hst⟩
  | spurious u hu hst =>
    simp only [Harness.step] at hst
    split_ifs at hst
    cases hst
    exact ⟨hf.forking, hf.waiting, hf.finished, hf.threads⟩
  | fail u hu hc =>
    exact hf.update hu.living.1 hu.living.2 (by simp) fun t h ↦ by cases h

theorem reachable_family (hs : (system opt).Reachable s) : Family s := by
  refine hs.invariant (I := Family) ?_ fun s a s' _ hf hst ↦ hf.step hst
  rintro s ⟨starttime, rfl⟩
  exact start_family starttime

end LibMicro.Processes
