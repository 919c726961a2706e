import Mathlib.Data.Rat.Defs
import Mathlib.Data.Finset.Basic
import LibMicro.TransitionSystem

namespace LibMicro.Barrier

open TransitionSystem

structure ResultT where
  reT0 : BitVec 64
  reT1 : BitVec 64
  deriving DecidableEq

/-- `barrier_t`. A mutex is its holder and a condition variable the set of its
sleepers. The counter `baPhase` is kept modulo 2^32; `slots` is the number of
doubles that the mapping holds from `ba_data` on. -/
structure BarrierT (ι : Type) where
  baHwm : ℤ
  baFlag : ℤ
  baDeadline : BitVec 64
  baPhase : BitVec 32
  baWaiters : ℤ
  baLock : Option ι
  baCv : Finset ι
  baTgtSamples : BitVec 32
  baSamples : BitVec 32
  baStarttime : BitVec 64
  baData : ℕ → ℚ
  slots : ℕ

/-- The mapping is anonymous, so that the fields which are not assigned are zero.
`sizeof (barrier_t)` already has one of the `targetSamples` doubles. -/
def barrierCreate {ι : Type} (hwm : ℤ) (targetSamples : ℕ) : BarrierT ι where
  baHwm := hwm
  baFlag := 0
  baDeadline := 0
  baPhase := 0
  baWaiters := 0
  baLock := none
  baCv := ∅
  baTgtSamples := BitVec.ofNat 32 targetSamples
  baSamples := 0
  baStarttime := 0
  baData := fun _ ↦ 0
  slots := targetSamples

variable {ι : Type}

def addSample (nsecsOverhead : ℤ) (b : BarrierT ι) (r : ResultT) : BarrierT ι :=
  let time : ℚ := r.reT1.toNat - r.reT0.toNat - nsecsOverhead
  { b with
    baData := Function.update b.baData b.baSamples.toNat time
    baSamples := b.baSamples + 1 }

/-- The points of `barrier_queue` between which other workers can move. From
`arrive` on, a point carries the local variable `phase`. -/
inductive QueuePc
  | lock
  | record
  | addSample (r : ResultT)
  | arrive
  | broadcast (phase : BitVec 32)
  | test (phase : BitVec 32)
  | wait (phase : BitVec 32)
  | unlock (phase : BitVec 32)
  deriving DecidableEq

def QueuePc.saved : QueuePc → Option (BitVec 32)
  | .lock | .record | .addSample _ | .arrive => none
  | .broadcast p | .test p | .wait p | .unlock p => some p

variable [DecidableEq ι] (nsecsOverhead : ℤ)

/-- One step of `barrier_queue (b, r)` by `u`, or `none` where `u` has to wait.
The second component is the next point, or `none` after the return. The flag is
that of `lm_barrier`, which is `b` wherever a result is passed. -/
def queueStep (b : BarrierT ι) (u : ι) (r : Option ResultT) :
    QueuePc → Option (BarrierT ι × Option QueuePc)
  | .lock =>
    if b.baLock = none then some ({ b with baLock := some u }, some .record) else none
  | .record =>
    match r with
    | some r => if b.baFlag ≠ 0 then some (b, some (.addSample r)) else some (b, some .arrive)
    | none => some (b, some .arrive)
  | .addSample r => some (addSample nsecsOverhead b r, some .arrive)
  | .arrive =>
    if b.baHwm = b.baWaiters + 1 then
      some ({ b with baWaiters := 0, baPhase := b.baPhase + 1 }, some (.broadcast b.baPhase))
    else some ({ b with baWaiters := b.baWaiters + 1 }, some (.test b.baPhase))
  | .broadcast p => some ({ b with baCv := ∅ }, some (.test p))
  | .test p =>
    -- `pthread_cond_wait` releases the lock and falls asleep in one step
    if b.baPhase = p then some ({ b with baLock := none, baCv := insert u b.baCv }, some (.wait p))
    else some (b, some (.unlock p))
  | .wait p =>
    if u ∉ b.baCv ∧ b.baLock = none then some ({ b with baLock := some u }, some (.test p)) else none
  | .unlock _ => some ({ b with baLock := none }, none)

/-- Participants that call `barrier_queue` on one barrier. The number of calls
from which a participant has returned is kept as history. -/
structure State (ι : Type) where
  bar : BarrierT ι
  call : ι → Option (QueuePc × Option ResultT)
  returned : ι → ℕ

inductive Act (ι : Type)
  | enter (u : ι) (r : Option ResultT)
  | queue (u : ι)
  | spurious (u : ι)
  | store (flag : ℤ)

def step (s : State ι) : Act ι → Option (State ι)
  | .enter u r =>
    match s.call u with
    | none => some { s with call := Function.update s.call u (some (.lock, r)) }
    | some _ => none
  | .queue u =>
    match s.call u with
    | none => none
    | some (pc, r) =>
      (queueStep nsecsOverhead s.bar u r pc).map fun (b, next) ↦
        { bar := b
          call := Function.update s.call u (next.map fun pc ↦ (pc, r))
          returned := if next = none then Function.update s.returned u (s.returned u + 1)
            else s.returned }
  | .spurious u =>
    if u ∈ s.bar.baCv then some { s with bar := { s.bar with baCv := s.bar.baCv.erase u } }
    else none
  | .store flag => some { s with bar := { s.bar with baFlag := flag } }

/-- The creator of the barrier may set the flag and the times before it is used. -/
def start (hwm : ℤ) (targetSamples : ℕ) (flag : ℤ) (starttime deadline : BitVec 64) : State ι :=
  ⟨{ barrierCreate hwm targetSamples with
      baFlag := flag, baStarttime := starttime, baDeadline := deadline },
    fun _ ↦ none, fun _ ↦ 0⟩

def system (ι : Type) [DecidableEq ι] (hwm : ℤ) (targetSamples : ℕ) : System (State ι) (Act ι) where
  init s := ∃ flag starttime deadline, s = start hwm targetSamples flag starttime deadline
  step := step nsecsOverhead

def Arrived : Option (QueuePc × Option ResultT) → Prop
  | none => False
  | some (pc, _) => pc.saved ≠ none

instance : DecidablePred Arrived
  | none => inferInstanceAs (Decidable False)
  | some (pc, _) => inferInstanceAs (Decidable (pc.saved ≠ none))

def State.entered (s : State ι) (u : ι) : ℕ := s.returned u + if s.call u = none then 0 else 1

def State.arrivals (s : State ι) (u : ι) : ℕ := s.returned u + if Arrived (s.call u) then 1 else 0

def PhaseComplete (s : State ι) (k : ℕ) : Prop := ∀ v, k ≤ s.arrivals v

end LibMicro.Barrier
