import Mathlib.Data.Fintype.Card
import Mathlib.Data.Fintype.Pi
import LibMicro.TransitionSystem

namespace LibMicro.Rendezvous

open TransitionSystem

variable {ι : Type}

/-- Where a participant stands: outside, waiting in the current generation,
or released from a finished one that it has not left yet. -/
inductive Stage
  | out | waiting | released
  deriving DecidableEq

structure State (ι : Type) where
  gen : ℕ
  stage : ι → Stage
  passed : ι → ℕ

inductive Act (ι : Type)
  | arrive (u : ι)
  | leave (u : ι)

def start : State ι := ⟨0, fun _ ↦ .out, fun _ ↦ 0⟩

def State.arrivals (s : State ι) (u : ι) : ℕ :=
  s.passed u + if s.stage u = .out then 0 else 1

structure Invariant (s : State ι) : Prop where
  count : ∀ u, s.passed u + (if s.stage u = .released then 1 else 0) = s.gen
  open_ : ∃ u, s.stage u ≠ .waiting

theorem start_invariant [Nonempty ι] : Invariant (start : State ι) :=
  ⟨fun _ ↦ rfl, ⟨Classical.arbitrary ι, by simp [start]⟩⟩

namespace Invariant

variable {s : State ι} (hi : Invariant s)
include hi

theorem passed_eq {u : ι} (h : s.stage u ≠ .released) : s.passed u = s.gen := by
  simpa [h] using hi.count u

theorem passed_succ {u : ι} (h : s.stage u = .released) : s.passed u + 1 = s.gen := by
  simpa [h] using hi.count u

theorem passed_le (u : ι) : s.passed u ≤ s.gen := by
  have h := hi.count u
  omega

theorem gen_le_arrivals (u : ι) : s.gen ≤ s.arrivals u := by
  have h := hi.count u
  unfold State.arrivals
  cases hs : s.stage u <;> simp [hs] at h ⊢ <;> omega

theorem passed_le_arrivals (u v : ι) : s.passed u ≤ s.arrivals v :=
  (hi.passed_le u).trans (hi.gen_le_arrivals v)

/-- A call is complete, that is, every participant has arrived in it, exactly
when the generation counter has passed it. -/
theorem complete_iff (k : ℕ) : (∀ v, k ≤ s.arrivals v) ↔ k ≤ s.gen := by
  constructor
  · intro h
    obtain ⟨u, hu⟩ := hi.open_
    refine (h u).trans ?_
    have hc := hi.count u
    unfold State.arrivals
    cases hs : s.stage u <;> simp_all
  · exact fun h v ↦ h.trans (hi.gen_le_arrivals v)

end Invariant

variable [Fintype ι]

def State.waiters (s : State ι) : Finset ι := Finset.univ.filter fun u ↦ s.stage u = .waiting

theorem Invariant.waiters_lt {s : State ι} (hi : Invariant s) : s.waiters.card < Fintype.card ι := by
  obtain ⟨u, hu⟩ := hi.open_
  exact Finset.card_lt_univ_of_notMem (x := u) (by simpa [State.waiters] using hu)

variable [DecidableEq ι]

/-- A cyclic barrier without its implementation. The last arrival finishes the
generation and releases everybody, and a participant must leave before it can
arrive again. -/
def step (s : State ι) : Act ι → Option (State ι)
  | .arrive u =>
    if s.stage u = .out then
      if ∀ v, v ≠ u → s.stage v = .waiting then
        some { s with gen := s.gen + 1, stage := fun _ ↦ .released }
      else some { s with stage := Function.update s.stage u .waiting }
    else none
  | .leave u =>
    if s.stage u = .released then
      some { s with
        stage := Function.update s.stage u .out
        passed := Function.update s.passed u (s.passed u + 1) }
    else none

def system (ι : Type) [Fintype ι] [DecidableEq ι] : System (State ι) (Act ι) where
  init s := s = start
  step := step

theorem step_cases {s s' : State ι} {a : Act ι} (h : step s a = some s') :
    (∃ u, a = .arrive u ∧ s.stage u = .out ∧ (∀ v, v ≠ u → s.stage v = .waiting) ∧
      s' = { s with gen := s.gen + 1, stage := fun _ ↦ .released }) ∨
    (∃ u, a = .arrive u ∧ s.stage u = .out ∧ (∃ v, v ≠ u ∧ s.stage v ≠ .waiting) ∧
      s' = { s with stage := Function.update s.stage u .waiting }) ∨
    (∃ u, a = .leave u ∧ s.stage u = .released ∧
      s' = { s with
        stage := Function.update s.stage u .out
        passed := Function.update s.passed u (s.passed u + 1) }) := by
  cases a with
  | arrive u =>
    simp only [step] at h
    split at h
    · next ho =>
      split at h
      · next hw => exact .inl ⟨u, rfl, ho, hw, (Option.some.inj h).symm⟩
      · next hw =>
        push Not at hw
        exact .inr (.inl ⟨u, rfl, ho, hw, (Option.some.inj h).symm⟩)
    · cases h
  | leave u =>
    simp only [step] at h
    split at h
    · next hr => exact .inr (.inr ⟨u, rfl, hr, (Option.some.inj h).symm⟩)
    · cases h

theorem step_invariant {s s' : State ι} {a : Act ι} (hi : Invariant s)
    (h : step s a = some s') : Invariant s' := by
  rcases step_cases h with ⟨u, -, ho, hw, rfl⟩ | ⟨u, -, ho, ⟨v, hv, hw⟩, rfl⟩ | ⟨u, -, hr, rfl⟩
  · refine ⟨fun v ↦ ?_, u, by simp⟩
    have hc := hi.count v
    by_cases hv : v = u
    · subst hv; simpa [ho] using hc
    · simpa [hw v hv] using hc
  · refine ⟨fun w ↦ ?_, v, by simpa [Function.update_of_ne hv] using hw⟩
    have hc := hi.count w
    by_cases hwu : w = u
    · subst hwu; simpa [ho] using hc
    · simpa [Function.update_of_ne hwu] using hc
  · refine ⟨fun w ↦ ?_, u, by simp⟩
    have hc := hi.count w
    by_cases hwu : w = u
    · subst hwu; simpa [hr] using hc
    · simpa [Function.update_of_ne hwu] using hc

theorem reachable_invariant [Nonempty ι] {s : State ι} (h : (system ι).Reachable s) :
    Invariant s :=
  h.invariant (fun _ hs ↦ hs ▸ start_invariant) (fun _ _ _ _ hi hs ↦ step_invariant hi hs)

theorem card_waiters_succ {s : State ι} {u : ι} (hu : s.stage u ≠ .waiting) :
    s.waiters.card + 1 = Fintype.card ι ↔ ∀ v, v ≠ u → s.stage v = .waiting := by
  have hn : u ∉ s.waiters := by simpa [State.waiters] using hu
  rw [← Finset.card_insert_of_notMem hn, Finset.card_eq_iff_eq_univ, Finset.eq_univ_iff_forall]
  simp only [Finset.mem_insert, State.waiters, Finset.mem_filter, Finset.mem_univ, true_and]
  exact forall_congr' fun v ↦ or_iff_not_imp_left

theorem waiters_arrive {s : State ι} {u : ι} :
    ({ s with stage := Function.update s.stage u .waiting } : State ι).waiters =
      insert u s.waiters := by
  ext v
  by_cases hv : v = u
  · simp [State.waiters, hv]
  · simp [State.waiters, hv]

end LibMicro.Rendezvous
