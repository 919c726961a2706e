import Mathlib.Data.Fintype.Prod
import LibMicro.Barrier.Model

namespace LibMicro.Children

open TransitionSystem Barrier

/-- The benchmarks with a barrier of their own. -/
inductive Program
  | exit
  | fork
  deriving DecidableEq

variable {P T : ℕ}

/-- Who queues at that barrier: the workers, and the child of a worker in each round. -/
inductive Party (P T : ℕ)
  | worker (w : Fin P × Fin T)
  | child (w : Fin P × Fin T) (round : ℕ)
  deriving DecidableEq

/-- What the callbacks do. With `sync` the worker waits in the barrier of the
harness, with `waitAny` for some child of its process and with `waitOwn` for
the child that it has forked. -/
inductive Stmt
  | fork
  | sync
  | queue
  | waitAny
  | waitOwn
  deriving DecidableEq

def Program.benchmarkPre : Program → List Stmt
  | .exit => [.fork]
  | .fork => []

def Program.benchmark : Program → List Stmt
  | .exit => [.queue, .waitAny]
  | .fork => [.fork, .queue]

def Program.benchmarkPost : Program → List Stmt
  | .exit => []
  | .fork => [.waitOwn]

def Program.script (prog : Program) : List Stmt :=
  prog.benchmarkPre ++ .sync :: prog.benchmark ++ .sync :: prog.benchmarkPost

/-- The child of one round. After its return from `barrier_queue` it exits, and
is a zombie until somebody has waited for it. -/
inductive Child
  | unborn
  | born
  | queued (q : QueuePc)
  | exiting
  | zombie
  | reaped
  deriving DecidableEq

/-- The barrier with the workers' rounds and their places in the script, the
workers' calls of `barrier_queue`, and the children of all rounds. -/
structure State (P T : ℕ) where
  bar : BarrierT (Party P T)
  round : Fin P × Fin T → ℕ
  pos : Fin P × Fin T → ℕ
  queue : Fin P × Fin T → Option QueuePc
  child : Fin P × Fin T → ℕ → Child

inductive Act (P T : ℕ)
  | worker (w : Fin P × Fin T)
  | reap (w v : Fin P × Fin T) (round : ℕ)
  | enter (w : Fin P × Fin T) (round : ℕ)
  | queue (x : Party P T)
  | exit (w : Fin P × Fin T) (round : ℕ)
  | spurious (x : Party P T)

def State.pc (s : State P T) : Party P T → Option QueuePc
  | .worker w => s.queue w
  | .child w k =>
    match s.child w k with
    | .queued q => some q
    | .unborn | .born | .exiting | .zombie | .reaped => none

def State.setChild (s : State P T) (w : Fin P × Fin T) (k : ℕ) (c : Child) : State P T :=
  { s with child := Function.update s.child w (Function.update (s.child w) k c) }

def State.goOn (s : State P T) (w : Fin P × Fin T) : State P T :=
  { s with pos := Function.update s.pos w (s.pos w + 1) }

def State.resume (s : State P T) (next : Option QueuePc) : Party P T → State P T
  | .worker w =>
    match next with
    | some q => { s with queue := Function.update s.queue w (some q) }
    | none => { s with queue := Function.update s.queue w none }.goOn w
  | .child w k =>
    match next with
    | some q => s.setChild w k (.queued q)
    | none => s.setChild w k .exiting

def State.AllAt (s : State P T) (w : Fin P × Fin T) (p : ℕ) : Prop :=
  ∀ v, s.round w < s.round v ∨ s.round v = s.round w ∧ p ≤ s.pos v

instance (s : State P T) (w : Fin P × Fin T) (p : ℕ) : Decidable (s.AllAt w p) :=
  inferInstanceAs (Decidable (∀ v, s.round w < s.round v ∨ s.round v = s.round w ∧ p ≤ s.pos v))

/-- No call of `fork` fails. The parties pass no result to `barrier_queue`. -/
def step (prog : Program) (s : State P T) : Act P T → Option (State P T)
  | .worker w =>
    match s.queue w, prog.script[s.pos w]? with
    | some _, _ => none
    | none, some .fork => some ((s.setChild w (s.round w) .born).goOn w)
    | none, some .sync => if s.AllAt w (s.pos w) then some (s.goOn w) else none
    | none, some .queue => some { s with queue := Function.update s.queue w (some .lock) }
    | none, some .waitAny => none
    | none, some .waitOwn =>
      if s.child w (s.round w) = .zombie then
        some ((s.setChild w (s.round w) .reaped).goOn w)
      else none
    | none, none =>
      some { s with
        round := Function.update s.round w (s.round w + 1)
        pos := Function.update s.pos w 0 }
  | .reap w v k =>
    if prog.script[s.pos w]? = some .waitAny ∧ v.1 = w.1 ∧ s.child v k = .zombie then
      some ((s.setChild v k .reaped).goOn w)
    else none
  | .enter w k => if s.child w k = .born then some (s.setChild w k (.queued .lock)) else none
  | .queue x =>
    match s.pc x with
    | some q =>
      (queueStep 0 s.bar x none q).map fun (b, next) ↦ { s with bar := b }.resume next x
    | none => none
  | .exit w k => if s.child w k = .exiting then some (s.setChild w k .zombie) else none
  | .spurious x =>
    if x ∈ s.bar.baCv then some { s with bar := { s.bar with baCv := s.bar.baCv.erase x } }
    else none

def start (P T : ℕ) : State P T :=
  ⟨barrierCreate (P * T * 1) 0, fun _ ↦ 0, fun _ ↦ 0, fun _ ↦ none, fun _ _ ↦ .unborn⟩

def system (prog : Program) (P T : ℕ) : System (State P T) (Act P T) where
  init s := s = start P T
  step := step prog

def State.roundOf (s : State P T) : Party P T → ℕ
  | .worker w => s.round w
  | .child _ k => k

def State.Passed (prog : Program) (s : State P T) (w : Fin P × Fin T) (k : ℕ) (c : Stmt) : Prop :=
  k < s.round w ∨ s.round w = k ∧ c ∈ prog.script.take (s.pos w)

def State.Entered (prog : Program) (s : State P T) (w : Fin P × Fin T) (k : ℕ) : Prop :=
  (s.Passed prog w k .queue ∨ s.round w = k ∧ s.queue w ≠ none) ∧
    s.child w k ≠ .unborn ∧ s.child w k ≠ .born

def State.Returned (prog : Program) (s : State P T) (w : Fin P × Fin T) (k : ℕ) : Prop :=
  s.Passed prog w k .queue ∨ s.child w k = .exiting ∨ s.child w k = .zombie ∨ s.child w k = .reaped

/-- Nobody has left the barrier in a round that not all have entered. -/
def State.Together (prog : Program) (s : State P T) : Prop :=
  ∀ k w, s.Returned prog w k → ∀ v, s.Entered prog v k

def StartsTogether (prog : Program) (P T : ℕ) : Prop :=
  ∀ s, (system prog P T).Reachable s → s.Together prog

/-- The last arrival of a phase finds all parties inside, of every round of
which there is one inside. -/
def Assembled (prog : Program) (s : State P T) : Act P T → Prop
  | .queue x =>
    s.pc x = some .arrive → s.bar.baHwm = s.bar.baWaiters + 1 →
      ∀ y, s.pc y ≠ none → ∀ v, s.Entered prog v (s.roundOf y)
  | _ => True

end LibMicro.Children
