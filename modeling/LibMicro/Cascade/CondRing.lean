import LibMicro.Cascade.Protocol
import LibMicro.Cascade.CondLock

namespace LibMicro.Cascade

def Call.name : Call → LockName
  | .block n | .unblock n => n

namespace Cond

def Act.thread {ι : Type} : Act ι → ι
  | .callBlock t | .callUnblock t | .mutexLock t | .test t | .condWait t | .spurious t | .set t
  | .blockReturn t | .store t | .condSignal t _ | .mutexUnlock t => t

def Act.isSpurious {ι : Type} : Act ι → Bool
  | .spurious _ => true
  | .callBlock _ | .callUnblock _ | .mutexLock _ | .test _ | .condWait _ | .set _
  | .blockReturn _ | .store _ | .condSignal _ _ | .mutexUnlock _ => false

def Act.isSet {ι : Type} : Act ι → Bool
  | .set _ => true
  | .callBlock _ | .callUnblock _ | .mutexLock _ | .test _ | .condWait _ | .spurious _
  | .blockReturn _ | .store _ | .condSignal _ _ | .mutexUnlock _ => false

/-- How far a thread is with its call: before or after `conds` has been set or cleared. -/
inductive Phase
  | out
  | blocking
  | blocked
  | unblocking
  | unblocked
  deriving DecidableEq

def Pc.phase : Pc → Phase
  | .idle => .out
  | .blockLock | .test | .wait | .condWait | .set => .blocking
  | .blockUnlock => .blocked
  | .unblockLock | .store => .unblocking
  | .unblockSignal | .unblockUnlock => .unblocked

def Phase.isDone : Phase → Bool
  | .blocked | .unblocked => true
  | .out | .blocking | .unblocking => false

end Cond

namespace CondRing

open TransitionSystem

/-- `cascade_cond`: `mxs`, `cvs` and `conds` with what the workers are executing on
them, and for each worker its `tsd`, its round, the number of calls from which it has
returned, and whether it is in a call. -/
structure State (N : ℕ) where
  sync : ℕ → Cond.State (Fin N)
  tsd : Fin N → TsdT
  round : Fin N → ℕ
  pos : Fin N → ℕ
  calling : Fin N → Bool
  moves : List (ℕ × ℕ × ℕ)

/-- A worker makes its next call, executes a statement of `block` or `unblock`, or
goes through the barrier to the next round. -/
inductive Act (N : ℕ)
  | call (u : Fin N)
  | inside (a : Cond.Act (Fin N))
  | turn (u : Fin N)

variable {N : ℕ}

def State.ready (s : State N) (u : Fin N) : TsdT :=
  if s.pos u = 0 then assignLocks N u (s.tsd u) else s.tsd u

def State.AllAt (s : State N) (u : Fin N) (p : ℕ) : Prop :=
  ∀ v, s.round u < s.round v ∨ s.round v = s.round u ∧ p ≤ s.pos v

instance (s : State N) (u : Fin N) (p : ℕ) : Decidable (s.AllAt u p) :=
  inferInstanceAs (Decidable (∀ v, s.round u < s.round v ∨ s.round v = s.round u ∧ p ≤ s.pos v))

def enter (u : Fin N) : Call → Cond.Act (Fin N)
  | .block _ => .callBlock u
  | .unblock _ => .callUnblock u

def State.entered (s : State N) (u : Fin N) (i : ℕ) (x : Cond.State (Fin N)) : State N :=
  { s with
    sync := Function.update s.sync i x
    tsd := Function.update s.tsd u (s.ready u)
    calling := Function.update s.calling u true }

def State.executed (s : State N) (a : Cond.Act (Fin N)) (c : Call) (i : ℕ)
    (x : Cond.State (Fin N)) : State N :=
  let u := a.thread
  { s with
    sync := Function.update s.sync i x
    pos := if x.pc u = .idle then Function.update s.pos u (s.pos u + 1) else s.pos
    calling := if x.pc u = .idle then Function.update s.calling u false else s.calling
    moves := if a.isSet && c.isMove then
        s.moves ++ [(s.round u, ((roundOf benchmark).take (s.pos u)).countP Call.isMove, u.val)]
      else s.moves }

def step (opto : Bool) (s : State N) : Act N → Option (State N)
  | .call u =>
    match (roundOf benchmark)[s.pos u]? with
    | some c =>
      let i := (s.ready u).index c.name
      if s.calling u = false ∧ (s.pos u = 1 → s.AllAt u 1) then
        (Cond.step opto (s.sync i) (enter u c)).map (s.entered u i)
      else none
    | none => none
  | .inside a =>
    match (roundOf benchmark)[s.pos a.thread]? with
    | some c =>
      let i := (s.tsd a.thread).index c.name
      if s.calling a.thread = true then
        (Cond.step opto (s.sync i) a).map (s.executed a c i)
      else none
    | none => none
  | .turn u =>
    if (roundOf benchmark)[s.pos u]? = none ∧ s.AllAt u (roundOf benchmark).length then
      some { s with
        round := Function.update s.round u (s.round u + 1)
        pos := Function.update s.pos u 0 }
    else none

def start (N : ℕ) : State N :=
  ⟨fun _ ↦ Cond.start, fun _ ↦ ⟨0, 0, 0, 0, 0, 0⟩, fun _ ↦ 0, fun _ ↦ 0, fun _ ↦ false, []⟩

def system (opto : Bool) (N : ℕ) : System (State N) (Act N) where
  init s := s = start N
  step := step opto

def statements (u : Fin N) : List (Act N) :=
  .call u :: [Cond.Act.mutexLock u, .test u, .condWait u, .set u, .blockReturn u, .store u,
      .mutexUnlock u, .condSignal u none].map .inside ++
    (List.finRange N).map fun v ↦ .inside (.condSignal u (some v))

def inTurn (N n : ℕ) : List (Act N) :=
  (List.replicate n ((List.finRange N).flatMap statements)).flatten

end CondRing

end LibMicro.Cascade
