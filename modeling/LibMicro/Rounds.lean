import LibMicro.TransitionSystem
import Mathlib.Data.Fintype.Basic

namespace LibMicro.Rounds

open TransitionSystem

structure Worker (κ : Type) where
  calls : ℕ
  place : Option κ

structure State (ι σ κ : Type) where
  shared : σ
  worker : ι → Worker κ

/-- What every worker calls again and again. A step leads to another place, or back. -/
structure Body (ι σ κ : Type) where
  entry : κ
  step : ι → ℕ → σ → κ → Option (σ × Option κ)

variable {ι σ κ : Type}

def Worker.enter (w : Worker κ) (k : κ) : Worker κ := { w with place := some k }

def Worker.move (w : Worker κ) : Option κ → Worker κ
  | some k => { w with place := some k }
  | none => ⟨w.calls + 1, none⟩

def start (x : σ) : State ι σ κ := ⟨x, fun _ ↦ ⟨0, none⟩⟩

@[simp] theorem start_calls (x : σ) (v : ι) : ((start x : State ι σ κ).worker v).calls = 0 := rfl

variable [DecidableEq ι]

def State.enter (s : State ι σ κ) (u : ι) (k : κ) : State ι σ κ :=
  { s with worker := Function.update s.worker u ((s.worker u).enter k) }

def State.move (s : State ι σ κ) (u : ι) (x : σ) (k : Option κ) : State ι σ κ :=
  ⟨x, Function.update s.worker u ((s.worker u).move k)⟩

variable {s s' : State ι σ κ} {u v : ι} {x x' : σ} {k k' : κ}

theorem move_move (k' : Option κ) :
    (s.move u x (some k)).move u x' k' = s.move u x' k' := by
  cases k' <;> simp [State.move, Worker.move]

@[simp] theorem enter_move (k' : Option κ) : (s.enter u k).move u x k' = s.move u x k' := by
  cases k' <;> simp [State.enter, State.move, Worker.enter, Worker.move]

theorem move_worker_of_ne (k : Option κ) (h : v ≠ u) : (s.move u x k).worker v = s.worker v :=
  Function.update_of_ne h _ _

theorem enter_worker_of_ne (h : v ≠ u) : (s.enter u k).worker v = s.worker v :=
  Function.update_of_ne h _ _

@[simp] theorem move_worker_self (k : Option κ) :
    (s.move u x k).worker u = (s.worker u).move k := Function.update_self _ _ _

@[simp] theorem enter_worker_self : (s.enter u k).worker u = (s.worker u).enter k :=
  Function.update_self _ _ _

@[simp] theorem enter_place : ((s.enter u k).worker u).place = some k := by
  rw [enter_worker_self]
  rfl

@[simp] theorem move_place (k : Option κ) : ((s.move u x k).worker u).place = k := by
  rw [move_worker_self]
  cases k <;> rfl

@[simp] theorem enter_calls : ((s.enter u k).worker v).calls = (s.worker v).calls := by
  by_cases hv : v = u
  · rw [hv, enter_worker_self]
    rfl
  · rw [enter_worker_of_ne hv]

@[simp] theorem move_calls : ((s.move u x (some k)).worker v).calls = (s.worker v).calls := by
  by_cases hv : v = u
  · rw [hv, move_worker_self]
    rfl
  · rw [move_worker_of_ne _ hv]

variable [Fintype ι]

/-- A barrier keeps a worker from its next call until all have come as far. -/
def step (body : Body ι σ κ) (s : State ι σ κ) (u : ι) : Option (State ι σ κ) :=
  match (s.worker u).place with
  | none =>
    if ∀ v, (s.worker u).calls ≤ (s.worker v).calls then some (s.enter u body.entry) else none
  | some k => (body.step u (s.worker u).calls s.shared k).map fun (x, k) ↦ s.move u x k

def system (body : Body ι σ κ) (init : σ → Prop) : System (State ι σ κ) ι where
  init s := ∃ x, init x ∧ s = start x
  step := step body

variable {body : Body ι σ κ} {init : σ → Prop}

theorem step_cases (h : step body s u = some s') :
    (s.worker u).place = none ∧ (∀ v, (s.worker u).calls ≤ (s.worker v).calls) ∧
        s' = s.enter u body.entry ∨
      ∃ k x k', (s.worker u).place = some k ∧
        body.step u (s.worker u).calls s.shared k = some (x, k') ∧ s' = s.move u x k' := by
  unfold step at h
  cases hplace : (s.worker u).place with
  | none =>
    simp only [hplace] at h
    split at h
    case isTrue hall => exact .inl ⟨rfl, hall, (Option.some.inj h).symm⟩
    case isFalse => cases h
  | some k =>
    simp only [hplace] at h
    obtain ⟨⟨x, k'⟩, hstep, rfl⟩ := Option.map_eq_some_iff.mp h
    exact .inr ⟨k, x, k', rfl, hstep, rfl⟩

theorem step_enter (hplace : (s.worker u).place = none)
    (hall : ∀ v, (s.worker u).calls ≤ (s.worker v).calls) :
    step body s u = some (s.enter u body.entry) := by
  simp only [step, hplace]
  exact if_pos hall

theorem step_move {k' : Option κ} (hplace : (s.worker u).place = some k)
    (hstep : body.step u (s.worker u).calls s.shared k = some (x, k')) :
    step body s u = some (s.move u x k') := by
  simp only [step, hplace, hstep]
  rfl

theorem reachable_start (hx : init x) : (system body init).Reachable (start x) :=
  .start ⟨x, hx, rfl⟩

section Runs

variable (h : (system body init).Reachable s)
include h

theorem reachable_enter (hplace : (s.worker u).place = none)
    (hall : ∀ v, (s.worker u).calls ≤ (s.worker v).calls) :
    (system body init).Reachable (s.enter u body.entry) := h.next (step_enter hplace hall)

theorem reachable_move {k' : Option κ} (hplace : (s.worker u).place = some k)
    (hbody : body.step u (s.worker u).calls s.shared k = some (x, k')) :
    (system body init).Reachable (s.move u x k') := h.next (step_move hplace hbody)

theorem reachable_call {k' : Option κ} (hplace : (s.worker u).place = none)
    (hall : ∀ v, (s.worker u).calls ≤ (s.worker v).calls)
    (hbody : body.step u (s.worker u).calls s.shared body.entry = some (x, k')) :
    (system body init).Reachable (s.move u x k') := by
  have henter := reachable_enter h hplace hall
  have hmove := reachable_move henter enter_place (by rw [enter_calls]; exact hbody)
  rwa [enter_move] at hmove

theorem reachable_alone {p : σ × κ} (hplace : (s.worker u).place = some k)
    (hsteps : Relation.ReflTransGen (fun p q ↦
      body.step u (s.worker u).calls p.1 p.2 = some (q.1, some q.2)) (s.shared, k) p) :
    (system body init).Reachable (s.move u p.1 (some p.2)) := by
  induction hsteps with
  | refl =>
    have hsame : s.move u s.shared (some k) = s := by
      have hw : (s.worker u).move (some k) = s.worker u := by
        rw [Worker.move, ← hplace]
      rw [State.move, hw, Function.update_eq_self]
    rw [hsame]
    exact h
  | @tail p q _ hstep ih =>
    have hnext := reachable_move ih (move_place _) (by rw [move_calls]; exact hstep)
    rwa [move_move] at hnext

end Runs

/-- A counter of 32 bits tells the first round from the others, as long as it is not zero again. -/
theorem counter_eq_zero {n : ℕ} (hpos : n ≠ 0) (hle : n ≤ 2 ^ 32) :
    (BitVec.ofNat 32 (n - 1) == 0) = decide (n = 1) := by
  apply Bool.eq_iff_iff.mpr
  rw [beq_iff_eq, decide_eq_true_iff, ← BitVec.toNat_inj, BitVec.toNat_ofNat]
  have hmod : (n - 1) % 2 ^ 32 = n - 1 := Nat.mod_eq_of_lt (by omega)
  have hzero : (0 : BitVec 32).toNat = 0 := rfl
  rw [hmod, hzero]
  omega

theorem invariant_of_subsingleton [Subsingleton ι] {I : σ → Worker κ → Prop} (u : ι)
    (h : (system body init).Reachable s) (hinit : ∀ x, init x → I x ⟨0, none⟩)
    (henter : ∀ x w, I x w → w.place = none → I x (w.enter body.entry))
    (hmove : ∀ x w k x' k', I x w → w.place = some k →
      body.step u w.calls x k = some (x', k') → I x' (w.move k')) : I s.shared (s.worker u) := by
  apply System.Reachable.invariant (I := fun s ↦ I s.shared (s.worker u)) h
  · rintro _ ⟨x, hx, rfl⟩
    exact hinit x hx
  · intro s v s' _ hi hs
    obtain rfl := Subsingleton.elim v u
    rcases step_cases hs with ⟨hplace, -, rfl⟩ | ⟨k, x, k', hplace, hbody, rfl⟩
    · rw [enter_worker_self]
      exact henter _ _ hi hplace
    · rw [move_worker_self]
      exact hmove _ _ _ _ _ hi hplace hbody

end LibMicro.Rounds
