import LibMicro.Harness.Termination
import LibMicro.Phases

namespace LibMicro.Harness

open TransitionSystem Barrier

inductive Callback
  | pre
  | benchmark
  | post
  deriving DecidableEq

/-- The callbacks of a benchmark in a round, step by step. A step leads to another place, or
back to `worker_thread`. -/
structure Callbacks (ι σ κ : Type) where
  entry : Callback → κ
  step : ι → Callback → ℕ → σ → κ → Option (σ × Option κ)

def WorkerPc.callback : WorkerPc → Option Callback
  | .pre => some .pre
  | .benchmark _ => some .benchmark
  | .post => some .post
  | .initworker | .top | .align | .queueFirst _ | .takeT0 | .takeT1 _ | .testDeadline _
  | .testTarget _ | .stop _ | .sync _ | .queueSecond _ _ | .finiworker | .done => none

/-- The callbacks from which a worker has come back in its round. -/
def WorkerPc.called : WorkerPc → ℕ
  | .align | .queueFirst _ | .takeT0 | .benchmark _ => 1
  | .takeT1 _ | .testDeadline _ | .testTarget _ | .stop _ | .sync _ | .queueSecond _ _ | .post => 2
  | .initworker | .top | .pre | .finiworker | .done => 0

def Worker.calls (w : Worker) : ℕ := 3 * w.rounds + w.pc.called

/-- The callback that follows after so many. -/
def callbackAt (n : ℕ) : Callback :=
  match n % 3 with
  | 0 => .pre
  | 1 => .benchmark
  | _ => .post

namespace Loaded

/-- The harness with a benchmark: what its callbacks share, and where each worker is in one. -/
structure State (ι σ κ : Type) where
  harness : Harness.State ι
  shared : σ
  place : ι → Option κ

variable {ι σ κ : Type} [DecidableEq ι]

def step (opt : Options) (cb : Callbacks ι σ κ) (s : State ι σ κ) : Act ι → Option (State ι σ κ)
  | .spurious u =>
    (Harness.step opt s.harness (.spurious u)).map fun h ↦ { s with harness := h }
  | .run u now =>
    match (s.harness.worker u).pc.callback, s.place u with
    | none, _ => (Harness.step opt s.harness (.run u now)).map fun h ↦ { s with harness := h }
    | some c, none => some { s with place := Function.update s.place u (some (cb.entry c)) }
    | some c, some k =>
      match cb.step u c (s.harness.worker u).rounds s.shared k with
      | none => none
      | some (x, some k') =>
        some { s with shared := x, place := Function.update s.place u (some k') }
      | some (x, none) =>
        (Harness.step opt s.harness (.run u now)).map fun h ↦
          ⟨h, x, Function.update s.place u none⟩

def system (opt : Options) (cb : Callbacks (WorkerId opt) σ κ) (init : σ → Prop) :
    System (State (WorkerId opt) σ κ) (Act (WorkerId opt)) where
  init s := ∃ starttime x, init x ∧ s = ⟨start opt starttime, x, fun _ ↦ none⟩
  step := step opt cb

end Loaded

/-- The callbacks as calls behind gates: all have come back from `benchmark_pre` before the
first `benchmark`, and from `benchmark` before the first `benchmark_post`. -/
def Callbacks.body {ι σ κ : Type} (cb : Callbacks ι σ κ) : Phases.Body ι σ κ where
  entry n := cb.entry (callbackAt n)
  gate n := n % 3 ≠ 0
  step u n := cb.step u (callbackAt n) (n / 3)

def Loaded.State.phases {ι σ κ : Type} (s : Loaded.State ι σ κ) : Rounds.State ι σ κ :=
  ⟨s.shared, fun u ↦ ⟨(s.harness.worker u).calls, s.place u⟩⟩

section Calls

variable {opt : Options} {ι : Type} [DecidableEq ι] {b b' : BarrierT ι} {u : ι}
  {now : BitVec 64} {w w' : Worker} {c : Callback}

/-- How many callbacks come before this one. -/
def Callback.before : Callback → ℕ
  | .pre => 0
  | .benchmark => 1
  | .post => 2

theorem callbackAt_before (n : ℕ) (c : Callback) :
    callbackAt (3 * n + c.before) = c ∧ (3 * n + c.before) / 3 = n := by
  have hlt : c.before < 3 := by
    cases c <;> decide
  have hmod : (3 * n + c.before) % 3 = c.before := by omega
  refine ⟨?_, by omega⟩
  rw [callbackAt, hmod]
  cases c <;> rfl

theorem callbackAt_eq {n : ℕ} (c : Callback) (h : n % 3 = c.before) : callbackAt n = c := by
  rw [callbackAt, h]
  cases c <;> rfl

theorem mod_callbackAt (n : ℕ) : n % 3 = (callbackAt n).before := by
  have hlt := Nat.mod_lt n (by decide : 0 < 3)
  rcases (by omega : n % 3 = 0 ∨ n % 3 = 1 ∨ n % 3 = 2) with h | h | h
  · rw [callbackAt_eq .pre h, h]
    rfl
  · rw [callbackAt_eq .benchmark h, h]
    rfl
  · rw [callbackAt_eq .post h, h]
    rfl

theorem WorkerPc.called_callback {pc : WorkerPc} (h : pc.callback = some c) :
    pc.called = c.before := by
  cases pc with
  | pre | benchmark t0 | post =>
    cases h
    rfl
  | _ => cases h

theorem WorkerPc.left_called {pc : WorkerPc} (h : pc.left) :
    pc.callback = none ∧ pc.called = 0 := by
  cases pc <;> simp_all [WorkerPc.left, WorkerPc.callback, WorkerPc.called]

theorem Worker.calls_callback (h : w.pc.callback = some c) :
    callbackAt w.calls = c ∧ w.calls / 3 = w.rounds := by
  rw [Worker.calls, WorkerPc.called_callback h]
  exact callbackAt_before _ _

/-- Outside the callbacks a worker makes no call, and a callback is one call. -/
theorem Moves.calls (h : Moves opt b u now w b' w') :
    w'.calls = w.calls + if w.pc.callback = none then 0 else 1 := by
  unfold Worker.calls
  cases h with
  | initworker hpc | enter hpc | leave hpc | pre hpc | align t hpc | first hpc | firstReturn hpc
  | takeT0 hpc | benchmark hpc | takeT1 hpc | late hpc | inTime hpc | reached hpc | goOn hpc
  | stop hpc | sync hpc | record hpc | second hpc | secondReturn hpc | finiworker hpc =>
    rw [hpc]
    rfl
  | post hpc =>
    rw [hpc]
    rfl

theorem callback_enabled (h : w.pc.callback = some c) :
    ∃ p, workerStep opt b u now w = some p := by
  cases hpc : w.pc with
  | pre | benchmark t0 | post =>
    simp only [workerStep, hpc]
    exact ⟨_, rfl⟩
  | _ =>
    rw [hpc] at h
    cases h

end Calls

end LibMicro.Harness
