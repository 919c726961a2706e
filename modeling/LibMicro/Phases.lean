import LibMicro.Rounds

namespace LibMicro.Phases

open TransitionSystem Rounds

/-- What a worker calls, by the number of calls from which it has come back. A call behind
a gate begins when all workers have come back from as many. -/
structure Body (ι σ κ : Type) where
  entry : ℕ → κ
  gate : ℕ → Bool
  step : ι → ℕ → σ → κ → Option (σ × Option κ)

variable {ι σ κ : Type} [DecidableEq ι] [Fintype ι]

def step (body : Body ι σ κ) (s : State ι σ κ) (u : ι) : Option (State ι σ κ) :=
  match (s.worker u).place with
  | none =>
    if body.gate (s.worker u).calls → ∀ v, (s.worker u).calls ≤ (s.worker v).calls then
      some (s.enter u (body.entry (s.worker u).calls))
    else none
  | some k => (body.step u (s.worker u).calls s.shared k).map fun (x, k) ↦ s.move u x k

def system (body : Body ι σ κ) (init : σ → Prop) : System (State ι σ κ) ι where
  init s := ∃ x, init x ∧ s = start x
  step := step body

variable {body : Body ι σ κ} {init : σ → Prop} {s s' : State ι σ κ} {u v : ι} {x : σ} {k : κ}

theorem step_cases (h : step body s u = some s') :
    (s.worker u).place = none ∧
        (body.gate (s.worker u).calls → ∀ v, (s.worker u).calls ≤ (s.worker v).calls) ∧
        s' = s.enter u (body.entry (s.worker u).calls) ∨
      ∃ k x k', (s.worker u).place = some k ∧
        body.step u (s.worker u).calls s.shared k = some (x, k') ∧ s' = s.move u x k' := by
  unfold step at h
  cases hplace : (s.worker u).place with
  | none =>
    simp only [hplace] at h
    split at h
    case isTrue hall => exact .inl ⟨rfl, hall, (Option.some.inj h).symm⟩
    case isFalse => cases h
  | some k =>
    simp only [hplace] at h
    obtain ⟨⟨x, k'⟩, hstep, rfl⟩ := Option.map_eq_some_iff.mp h
    exact .inr ⟨k, x, k', rfl, hstep, rfl⟩

theorem step_enter (hplace : (s.worker u).place = none)
    (hall : body.gate (s.worker u).calls → ∀ v, (s.worker u).calls ≤ (s.worker v).calls) :
    step body s u = some (s.enter u (body.entry (s.worker u).calls)) := by
  simp only [step, hplace]
  exact if_pos hall

theorem step_move {k' : Option κ} (hplace : (s.worker u).place = some k)
    (hstep : body.step u (s.worker u).calls s.shared k = some (x, k')) :
    step body s u = some (s.move u x k') := by
  simp only [step, hplace, hstep]
  rfl

theorem step_calls_le (h : step body s u = some s') (v : ι) :
    (s.worker v).calls ≤ (s'.worker v).calls := by
  rcases step_cases h with ⟨-, -, rfl⟩ | ⟨k, x, k', -, -, rfl⟩
  · rw [enter_calls]
  · cases k' with
    | some k' => rw [move_calls]
    | none =>
      by_cases hv : v = u
      · rw [hv, move_worker_self]
        exact Nat.le_succ _
      · rw [move_worker_of_ne _ hv]

/-- While a worker is behind a gate, nobody is before it. -/
theorem gate_le (h : (system body init).Reachable s) (hplace : (s.worker u).place ≠ none)
    (hgate : body.gate (s.worker u).calls) (v : ι) : (s.worker u).calls ≤ (s.worker v).calls := by
  suffices hall : ∀ u, (s.worker u).place ≠ none → body.gate (s.worker u).calls →
      (s.worker u).calls ≤ (s.worker v).calls from hall u hplace hgate
  refine h.invariant (I := fun s ↦ ∀ u, (s.worker u).place ≠ none →
    body.gate (s.worker u).calls → (s.worker u).calls ≤ (s.worker v).calls) ?_ ?_
  · rintro _ ⟨x, -, rfl⟩ u hplace
    exact absurd rfl hplace
  · intro s w s' _ hi hs u hplace hgate
    have hle := step_calls_le hs v
    rcases step_cases hs with ⟨hnone, hall, rfl⟩ | ⟨k, x, k', hk, -, rfl⟩
    · by_cases hu : u = w
      · subst hu
        rw [enter_calls] at hgate ⊢
        exact (hall hgate v).trans hle
      · rw [enter_worker_of_ne hu] at hplace hgate ⊢
        exact (hi u hplace hgate).trans hle
    · by_cases hu : u = w
      · subst hu
        rw [move_place] at hplace
        obtain ⟨k', rfl⟩ := Option.ne_none_iff_exists'.mp hplace
        rw [move_calls] at hgate ⊢
        exact (hi u (by simp [hk]) hgate).trans hle
      · rw [move_worker_of_ne _ hu] at hplace hgate ⊢
        exact (hi u hplace hgate).trans hle

/-- When someone has passed the gate before call `n`, `v` has come to it. -/
def Passed (n : ℕ) (v : ι) (s : State ι σ κ) : Prop :=
  ∀ u, (n < (s.worker u).calls ∨ (s.worker u).calls = n ∧ (s.worker u).place ≠ none) →
    n ≤ (s.worker v).calls

omit [DecidableEq ι] [Fintype ι] in
theorem passed_start (n : ℕ) (v : ι) (x : σ) : Passed n v (start x : State ι σ κ) := by
  rintro u (hlt | ⟨-, hplace⟩)
  · exact absurd hlt (Nat.not_lt_zero n)
  · exact absurd rfl hplace

theorem Passed.step {n : ℕ} (hi : Passed n v s) (hgate : body.gate n)
    (hs : Phases.step body s u = some s') : Passed n v s' := by
  intro w hpast
  have hle := step_calls_le hs v
  rcases step_cases hs with ⟨-, hall, rfl⟩ | ⟨k, x, k', hk, -, rfl⟩
  · by_cases hw : w = u
    · subst hw
      rw [enter_calls] at hpast
      rcases hpast with hlt | ⟨he, -⟩
      · exact (hi w (.inl hlt)).trans hle
      · subst he
        exact (hall hgate v).trans hle
    · rw [enter_worker_of_ne hw] at hpast
      exact (hi w hpast).trans hle
  · by_cases hw : w = u
    · subst hw
      refine (hi w ?_).trans hle
      cases k' with
      | some k' =>
        rw [move_calls] at hpast
        exact hpast.imp_right fun h ↦ ⟨h.1, by simp [hk]⟩
      | none =>
        rw [move_worker_self] at hpast
        rcases hpast with hlt | ⟨-, hplace⟩
        · rcases Nat.lt_succ_iff_lt_or_eq.mp hlt with hlt | he
          · exact .inl hlt
          · exact .inr ⟨he.symm, by simp [hk]⟩
        · exact absurd rfl hplace
    · rw [move_worker_of_ne _ hw] at hpast
      exact (hi w hpast).trans hle

theorem passed (h : (system body init).Reachable s) {n : ℕ} (hgate : body.gate n) (v : ι) :
    Passed n v s := by
  refine h.invariant ?_ fun s u s' _ hi hs ↦ hi.step hgate hs
  rintro _ ⟨x, -, rfl⟩
  exact passed_start n v x

end LibMicro.Phases
