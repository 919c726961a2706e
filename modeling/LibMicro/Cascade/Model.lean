import Mathlib.Data.Fin.Basic
import Mathlib.Data.Fintype.Basic
import LibMicro.TransitionSystem

namespace LibMicro.Cascade

open TransitionSystem

structure TsdT where
  tsOnce : ℤ
  tsId : ℕ
  tsUs0 : ℕ
  tsUs1 : ℕ
  tsThem0 : ℕ
  tsThem1 : ℕ

/-- The fields of `tsd_t` by which the scripts name their locks. -/
inductive LockName
  | us0
  | us1
  | them0
  | them1
  deriving DecidableEq

def TsdT.index (ts : TsdT) : LockName → ℕ
  | .us0 => ts.tsUs0
  | .us1 => ts.tsUs1
  | .them0 => ts.tsThem0
  | .them1 => ts.tsThem1

inductive Call
  | block (n : LockName)
  | unblock (n : LockName)
  deriving DecidableEq

/-- The assignments of `benchmark_pre`, where `nthreads` is also
`lm_optP * lm_optT` and `us` is `getpindex () * lm_optT + gettindex ()`. The
locks of a worker begin at `width * us` and lie `gap` apart. -/
def assignLocksAt (width gap nthreads us : ℕ) (ts : TsdT) : TsdT :=
  if ts.tsOnce = 0 then
    let them := (us + 1) % nthreads
    { tsOnce := 1
      tsId := us
      tsUs0 := us * width
      tsUs1 := us * width + gap
      tsThem0 := if us < nthreads - 1 then them * width else them * width + gap
      tsThem1 := if us < nthreads - 1 then them * width + gap else them * width }
  else ts

def assignLocks (nthreads us : ℕ) (ts : TsdT) : TsdT := assignLocksAt 2 1 nthreads us ts

def benchmarkPre : Call := .block .them0

def benchmark : List Call :=
  [.block .us0, .unblock .us0, .block .them1, .unblock .them0, .block .us1,
    .unblock .us1, .block .them0, .unblock .them1, .block .us0, .unblock .them0, .unblock .us0]

def flockBenchmark : List Call :=
  [.block .us0, .unblock .us0, .block .them1, .unblock .them0, .block .us1,
    .unblock .them0, .unblock .us0]

def roundOf (script : List Call) : List Call := benchmarkPre :: script

/-- The batten comes to a worker when it gets one of its own locks. -/
def Call.isMove : Call → Bool
  | .block .us0 | .block .us1 => true
  | _ => false

/-- The locks with their holders, and for each worker its `tsd`, its round and
its place in it. The moves of all workers are kept in their order, as the round,
the number of earlier moves of the worker in it, and the worker. -/
structure State (N : ℕ) where
  locks : ℕ → Option (Fin N)
  tsd : Fin N → TsdT
  round : Fin N → ℕ
  pos : Fin N → ℕ
  moves : List (ℕ × ℕ × ℕ)

variable {N : ℕ}

def State.ready (s : State N) (u : Fin N) : TsdT :=
  if s.pos u = 0 then assignLocks N u (s.tsd u) else s.tsd u

/-- All others have come at least to the place `p` of the round of `u`. The
harness puts a barrier before `benchmark` and one after it. -/
def State.AllAt (s : State N) (u : Fin N) (p : ℕ) : Prop :=
  ∀ v, s.round u < s.round v ∨ s.round v = s.round u ∧ p ≤ s.pos v

instance (s : State N) (u : Fin N) (p : ℕ) : Decidable (s.AllAt u p) :=
  inferInstanceAs (Decidable (∀ v, s.round u < s.round v ∨ s.round v = s.round u ∧ p ≤ s.pos v))

/-- The effect of a call on the locks. The release of a lock that the caller
does not hold has none. -/
def callStep (locks : ℕ → Option (Fin N)) (u : Fin N) (ts : TsdT) :
    Call → Option (ℕ → Option (Fin N))
  | .block n =>
    if locks (ts.index n) = none then some (Function.update locks (ts.index n) (some u)) else none
  | .unblock n =>
    some (if locks (ts.index n) = some u then Function.update locks (ts.index n) none else locks)

def step (script : List Call) (s : State N) (u : Fin N) : Option (State N) :=
  match (roundOf script)[s.pos u]? with
  | some c =>
    if s.pos u = 1 → s.AllAt u 1 then
      (callStep s.locks u (s.ready u) c).map fun locks ↦
        { s with
          locks := locks
          tsd := Function.update s.tsd u (s.ready u)
          pos := Function.update s.pos u (s.pos u + 1)
          moves := if c.isMove then
              s.moves ++ [(s.round u, ((roundOf script).take (s.pos u)).countP Call.isMove, u.val)]
            else s.moves }
    else none
  | none =>
    if s.AllAt u (roundOf script).length then
      some { s with
        round := Function.update s.round u (s.round u + 1)
        pos := Function.update s.pos u 0 }
    else none

/-- The mappings that hold the locks and the `tsd` are filled with zeros. -/
def start (N : ℕ) : State N :=
  ⟨fun _ ↦ none, fun _ ↦ ⟨0, 0, 0, 0, 0, 0⟩, fun _ ↦ 0, fun _ ↦ 0, []⟩

def system (script : List Call) (N : ℕ) : System (State N) (Fin N) where
  init s := s = start N
  step := step script

def inTurn (N n : ℕ) : List (Fin N) := (List.replicate n (List.finRange N)).flatten

def State.Finished (script : List Call) (s : State N) (u : Fin N) : Prop :=
  s.pos u = (roundOf script).length

end LibMicro.Cascade
