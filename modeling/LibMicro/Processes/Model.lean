import LibMicro.Harness.Model

namespace LibMicro.Processes

open TransitionSystem Barrier Harness

/-- Where the main thread of a worker process is in `worker_process`. -/
inductive Process
  | unborn
  | creating (i : ℕ)
  | running
  | joining (i : ℕ)
  | exited (status : ℤ)
  deriving DecidableEq

/-- Where `actual_main` is in fork mode: its two loops, after them, or at `exit (1)`. -/
inductive Parent
  | forking (i : ℕ)
  | waiting (i : ℕ)
  | finished
  | exited
  deriving DecidableEq

structure State (opt : Options) where
  harness : Harness.State (WorkerId opt)
  process : Fin opt.lmOptP → Process
  parent : Parent

variable {opt : Options}

def State.pc (s : State opt) (u : WorkerId opt) : WorkerPc := (s.harness.worker u).pc

def State.Started (s : State opt) (u : WorkerId opt) : Prop :=
  match s.process u.1 with
  | .creating i => 1 ≤ u.2.val ∧ u.2.val < i
  | .running | .joining _ => True
  | .unborn | .exited _ => False

instance (s : State opt) (u : WorkerId opt) : Decidable (s.Started u) := by
  unfold State.Started
  split <;> infer_instance

def calls : WorkerPc → Bool
  | .initworker | .pre | .benchmark _ | .post | .finiworker => true
  | .top | .align | .queueFirst _ | .takeT0 | .takeT1 _ | .testDeadline _ | .testTarget _
  | .stop _ | .sync _ | .queueSecond _ _ | .done => false

inductive Act (opt : Options)
  | parent
  | main (p : Fin opt.lmOptP)
  | run (u : WorkerId opt) (now : BitVec 64)
  | spurious (u : WorkerId opt)
  | fail (u : WorkerId opt)

/-- The exit of a process ends all its threads, wherever they are; what they
hold in the shared mapping stays as it is. -/
def step (s : State opt) : Act opt → Option (State opt)
  | .parent =>
    match s.parent with
    | .forking i =>
      if h : i < opt.lmOptP then
        some { s with
          process := Function.update s.process ⟨i, h⟩ (.creating 1)
          parent := .forking (i + 1) }
      else some { s with parent := .waiting 0 }
    | .waiting i =>
      if h : i < opt.lmOptP then
        match s.process ⟨i, h⟩ with
        | .exited status =>
          some { s with parent := if status ≠ 0 then .exited else .waiting (i + 1) }
        | .unborn | .creating _ | .running | .joining _ => none
      else some { s with parent := .finished }
    | .finished | .exited => none
  | .main p =>
    match s.process p with
    | .creating i =>
      some { s with
        process := Function.update s.process p
          (if i < opt.lmOptT then .creating (i + 1) else .running) }
    | .running =>
      if ∀ t : Fin opt.lmOptT, t.val = 0 → s.pc (p, t) = .done then
        some { s with process := Function.update s.process p (.joining 1) }
      else none
    | .joining i =>
      if h : i < opt.lmOptT then
        if s.pc (p, ⟨i, h⟩) = .done then
          some { s with process := Function.update s.process p (.joining (i + 1)) }
        else none
      else some { s with process := Function.update s.process p (.exited 0) }
    | .unborn | .exited _ => none
  | .run u now =>
    if s.Started u then
      (Harness.step opt s.harness (.run u now)).map fun h ↦ { s with harness := h }
    else none
  | .spurious u =>
    if s.Started u then
      (Harness.step opt s.harness (.spurious u)).map fun h ↦ { s with harness := h }
    else none
  | .fail u =>
    if s.Started u ∧ calls (s.pc u) = true then
      some { s with process := Function.update s.process u.1 (.exited 1) }
    else none

def start (opt : Options) (starttime : BitVec 64) : State opt :=
  ⟨Harness.start opt starttime, fun _ ↦ .unborn, .forking 0⟩

def system (opt : Options) : System (State opt) (Act opt) where
  init s := ∃ starttime, s = start opt starttime
  step := step

def Act.Own : Act opt → Prop
  | .parent | .main _ | .run _ _ => True
  | .spurious _ | .fail _ => False

def Process.failed : Process → Prop
  | .exited status => status ≠ 0
  | .unborn | .creating _ | .running | .joining _ => False

def Parent.index : Parent → ℕ
  | .waiting i => i
  | .forking _ | .finished | .exited => 0

end LibMicro.Processes
