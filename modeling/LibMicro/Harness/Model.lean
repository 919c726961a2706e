import LibMicro.Barrier.Model

namespace LibMicro.Harness

open TransitionSystem Barrier

structure Options where
  lmOptA : ℤ
  lmOptC : BitVec 32
  lmOptD : ℤ
  lmOptP : ℕ
  lmOptT : ℕ
  nsecsOverhead : ℤ

def Options.workers (opt : Options) : ℕ := opt.lmOptP * opt.lmOptT

abbrev WorkerId (opt : Options) := Fin opt.lmOptP × Fin opt.lmOptT

/-- The statements of `worker_thread`. A point carries the part of `r` that has
been taken in this round. -/
inductive WorkerPc
  | initworker
  | top
  | pre
  | align
  | queueFirst (q : QueuePc)
  | takeT0
  | benchmark (t0 : BitVec 64)
  | takeT1 (t0 : BitVec 64)
  | testDeadline (r : ResultT)
  | testTarget (r : ResultT)
  | stop (r : ResultT)
  | sync (r : ResultT)
  | queueSecond (r : ResultT) (q : QueuePc)
  | post
  | finiworker
  | done
  deriving DecidableEq

/-- A worker's program counter and `last_sleep`, and three histories: the
number of completed rounds, the values of `ba_flag` read at the top of the loop
and the recorded results with their rounds. -/
structure Worker where
  pc : WorkerPc
  lastSleep : ℤ
  rounds : ℕ
  reads : List ℤ
  recorded : List (ℕ × ResultT)

variable {ι : Type} [DecidableEq ι]

/-- One step of `worker_thread` by `u`, in which no callback fails. The value
`now` is what `getnsecs` answers, at the points that call it. -/
def workerStep (opt : Options) (b : BarrierT ι) (u : ι) (now : BitVec 64) (w : Worker) :
    Option (BarrierT ι × Worker) :=
  match w.pc with
  | .initworker => some (b, { w with pc := .top })
  | .top =>
    some (b, { w with
      pc := if b.baFlag ≠ 0 then .pre else .finiworker
      reads := w.reads ++ [b.baFlag] })
  | .pre => some (b, { w with pc := .align })
  | .align =>
    some (b, { w with
      pc := .queueFirst .lock
      lastSleep := if opt.lmOptA ≠ 0 ∧ now.toInt - w.lastSleep > 75000000 then now.toInt
        else w.lastSleep })
  | .queueFirst q =>
    (queueStep opt.nsecsOverhead b u none q).map fun (b', next) ↦
      (b', { w with pc := match next with | some q' => .queueFirst q' | none => .takeT0 })
  | .takeT0 => some (b, { w with pc := .benchmark now })
  | .benchmark t0 => some (b, { w with pc := .takeT1 t0 })
  | .takeT1 t0 => some (b, { w with pc := .testDeadline ⟨t0, now⟩ })
  | .testDeadline r =>
    some (b, { w with pc := if r.reT1 > b.baDeadline then .stop r else .testTarget r })
  | .testTarget r =>
    some (b, { w with pc := if b.baTgtSamples = b.baSamples then .stop r else .sync r })
  | .stop r => some ({ b with baFlag := 0 }, { w with pc := .sync r })
  | .sync r => some (b, { w with pc := .queueSecond r .lock })
  | .queueSecond r q =>
    (queueStep opt.nsecsOverhead b u (some r) q).map fun (b', next) ↦
      (b', { w with
        pc := match next with | some q' => .queueSecond r q' | none => .post
        recorded := match q with
          | .addSample r' => w.recorded ++ [(w.rounds, r')]
          | _ => w.recorded })
  | .post => some (b, { w with pc := .top, rounds := w.rounds + 1 })
  | .finiworker => some (b, { w with pc := .done })
  | .done => none

structure State (ι : Type) where
  bar : BarrierT ι
  worker : ι → Worker

inductive Act (ι : Type)
  | run (u : ι) (now : BitVec 64)
  | spurious (u : ι)

def step (opt : Options) (s : State ι) : Act ι → Option (State ι)
  | .run u now =>
    (workerStep opt s.bar u now (s.worker u)).map fun (b, w) ↦
      ⟨b, Function.update s.worker u w⟩
  | .spurious u =>
    if u ∈ s.bar.baCv then some { s with bar := { s.bar with baCv := s.bar.baCv.erase u } }
    else none

def secsToNanos (secs : ℤ) : BitVec 64 := BitVec.ofInt 64 secs * 1000000000

/-- The second argument of `barrier_create`, a product of three `unsigned int`. -/
def targetSamples (opt : Options) : BitVec 32 :=
  opt.lmOptC * BitVec.ofNat 32 opt.lmOptP * BitVec.ofNat 32 opt.lmOptT

/-- The barrier as `actual_main` sets it up, with the clock at `starttime`. -/
def lmBarrier (opt : Options) (starttime : BitVec 64) : BarrierT ι :=
  { barrierCreate (opt.lmOptT * opt.lmOptP) (targetSamples opt).toNat with
    baFlag := 1
    baStarttime := starttime
    baDeadline := starttime + secsToNanos opt.lmOptD }

def start (opt : Options) (starttime : BitVec 64) : State ι :=
  ⟨lmBarrier opt starttime, fun _ ↦ ⟨.initworker, 0, 0, [], []⟩⟩

/-- The workers of one run. Threads start at any time, since each may rest in
its first step for as long as it likes. -/
def system (opt : Options) : System (State (WorkerId opt)) (Act (WorkerId opt)) where
  init s := ∃ starttime, s = start opt starttime
  step := step opt

def WorkerPc.left : WorkerPc → Prop
  | .finiworker | .done => True
  | _ => False

instance : DecidablePred WorkerPc.left := fun pc ↦ by
  cases pc <;> simp only [WorkerPc.left] <;> infer_instance

def WorkerPc.first : WorkerPc → Prop
  | .pre | .align | .queueFirst _ => True
  | _ => False

def WorkerPc.inside : WorkerPc → Prop
  | .initworker | .top | .finiworker | .done => False
  | _ => True

instance : DecidablePred WorkerPc.inside := fun pc ↦ by
  cases pc <;> simp only [WorkerPc.inside] <;> infer_instance

def Worker.entered (w : Worker) : ℕ := w.rounds + if w.pc.inside then 1 else 0

def Act.isRun : Act ι → Bool
  | .run _ _ => true
  | .spurious _ => false

def inTurn (opt : Options) (n : ℕ) : List (Act (WorkerId opt)) :=
  (List.replicate n ((List.finRange opt.lmOptP ×ˢ List.finRange opt.lmOptT).map
    (Act.run · 0))).flatten

end LibMicro.Harness
