import Mathlib.Data.Finset.Basic
import LibMicro.TransitionSystem

namespace LibMicro.Cascade.Cond

open TransitionSystem

/-- The statement of `block` or `unblock` that a thread executes next. In
`condWait` it sleeps as long as it is among the `cvs`. -/
inductive Pc
  | idle
  | blockLock
  | test
  | wait
  | condWait
  | set
  | blockUnlock
  | unblockLock
  | store
  | unblockSignal
  | unblockUnlock
  deriving DecidableEq

/-- `mxs[index]`, `cvs[index]` and `conds[index]`. -/
structure State (ι : Type) where
  mutex : Option ι
  cvs : Finset ι
  conds : ℤ
  pc : ι → Pc

inductive Act (ι : Type)
  | callBlock (t : ι)
  | callUnblock (t : ι)
  | mutexLock (t : ι)
  | test (t : ι)
  | condWait (t : ι)
  | spurious (t : ι)
  | set (t : ι)
  | blockReturn (t : ι)
  | store (t : ι)
  | condSignal (t : ι) (woken : Option ι)
  | mutexUnlock (t : ι)

def Pc.locked : Pc → Option Pc
  | .blockLock | .condWait => some .test
  | .unblockLock => some .store
  | .idle | .test | .wait | .set | .blockUnlock | .store | .unblockSignal | .unblockUnlock => none

variable {ι : Type} [DecidableEq ι]

/-- The next step, with the waiter that a signal wakes. `opto` is the option -o:
signal after unlocking. -/
def step (opto : Bool) (s : State ι) : Act ι → Option (State ι)
  | .callBlock t =>
    if s.pc t = .idle then some { s with pc := Function.update s.pc t .blockLock } else none
  | .callUnblock t =>
    if s.pc t = .idle then some { s with pc := Function.update s.pc t .unblockLock } else none
  | .mutexLock t =>
    match (s.pc t).locked with
    | some p =>
      if s.mutex = none ∧ t ∉ s.cvs then
        some { s with mutex := some t, pc := Function.update s.pc t p }
      else none
    | none => none
  | .test t =>
    if s.pc t = .test then
      some { s with pc := Function.update s.pc t (if s.conds ≠ 0 then .wait else .set) }
    else none
  | .condWait t =>
    if s.pc t = .wait then
      some { s with
        mutex := none
        cvs := insert t s.cvs
        pc := Function.update s.pc t .condWait }
    else none
  | .spurious t => if t ∈ s.cvs then some { s with cvs := s.cvs.erase t } else none
  | .set t =>
    if s.pc t = .set then
      some { s with conds := 1, pc := Function.update s.pc t .blockUnlock }
    else none
  | .blockReturn t =>
    if s.pc t = .blockUnlock then
      some { s with mutex := none, pc := Function.update s.pc t .idle }
    else none
  | .store t =>
    if s.pc t = .store then
      some { s with
        conds := 0
        pc := Function.update s.pc t (if opto then .unblockUnlock else .unblockSignal) }
    else none
  | .condSignal t (some u) =>
    if s.pc t = .unblockSignal ∧ u ∈ s.cvs then
      some { s with
        cvs := s.cvs.erase u
        pc := Function.update s.pc t (if opto then .idle else .unblockUnlock) }
    else none
  | .condSignal t none =>
    if s.pc t = .unblockSignal ∧ s.cvs = ∅ then
      some { s with pc := Function.update s.pc t (if opto then .idle else .unblockUnlock) }
    else none
  | .mutexUnlock t =>
    if s.pc t = .unblockUnlock then
      some { s with
        mutex := none
        pc := Function.update s.pc t (if opto then .unblockSignal else .idle) }
    else none

def start : State ι := ⟨none, ∅, 0, fun _ ↦ .idle⟩

def system (opto : Bool) : System (State ι) (Act ι) where
  init s := s = start
  step := step opto

inductive LockAct (ι : Type)
  | acquire (t : ι)
  | release (t : ι)

/-- An exclusive lock that any thread may release. -/
def lock : System Bool (LockAct ι) where
  init b := b = false
  step
    | false, .acquire _ => some true
    | true, .acquire _ => none
    | _, .release _ => some false

/-- `block` gets the lock when it sets `conds`, `unblock` releases it when it
clears `conds`. -/
def Act.toLock : Act ι → Option (LockAct ι)
  | .set t => some (.acquire t)
  | .store t => some (.release t)
  | .callBlock _ | .callUnblock _ | .mutexLock _ | .test _ | .condWait _ | .spurious _
  | .blockReturn _ | .condSignal _ _ | .mutexUnlock _ => none

end LibMicro.Cascade.Cond
