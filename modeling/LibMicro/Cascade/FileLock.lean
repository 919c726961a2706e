import LibMicro.Cascade.Model

namespace LibMicro.Cascade.FileLock

open TransitionSystem

inductive Program
  | cascadeFlock
  | cascadeLockf
  | cascadeFcntl
  deriving DecidableEq

/-- The assignments of `benchmark_pre`, which differ in `cascade_fcntl`. -/
def Program.assignLocks : Program → ℕ → ℕ → TsdT → TsdT
  | .cascadeFlock | .cascadeLockf => assignLocksAt 2 1
  | .cascadeFcntl => assignLocksAt 4 2

structure OpenFile where
  inode : ℕ
  offset : ℕ

/-- The process that calls `actual_main` is `none`, the workers' processes are
its children. `name` is the file under the name `fname`, if there is one. -/
structure Kernel (P : ℕ) where
  inodes : ℕ
  name : Option ℕ
  openFiles : List OpenFile
  fds : Option (Fin P) → List ℕ

variable {P T : ℕ}

def Kernel.boot : Kernel P := ⟨0, none, [], fun _ ↦ []⟩

def Kernel.openCreate (k : Kernel P) (q : Option (Fin P)) : Kernel P × ℕ :=
  let inode := k.name.getD k.inodes
  ({ inodes := max k.inodes (inode + 1)
     name := some inode
     openFiles := k.openFiles ++ [⟨inode, 0⟩]
     fds := Function.update k.fds q (k.fds q ++ [k.openFiles.length]) }, (k.fds q).length)

def Kernel.unlink (k : Kernel P) : Kernel P := { k with name := none }

def Kernel.fork (k : Kernel P) (p : Fin P) : Kernel P :=
  { k with fds := Function.update k.fds (some p) (k.fds none) }

def openFiles (k : Kernel P) : ℕ → Kernel P × List ℕ
  | 0 => (k, [])
  | n + 1 =>
    let (k, files) := openFiles k n
    let (k, fd) := k.openCreate none
    (k.unlink, files ++ [fd])

def Program.nfiles (nthreads : ℕ) : Program → ℕ
  | .cascadeFlock | .cascadeLockf => nthreads * 2
  | .cascadeFcntl => 1

def Program.benchmarkInitrun (prog : Program) (nthreads : ℕ) (k : Kernel P) : Kernel P × List ℕ :=
  openFiles k (prog.nfiles nthreads)

def Program.file (files : List ℕ) (index : ℕ) : Program → Option ℕ
  | .cascadeFlock | .cascadeLockf => files[index]?
  | .cascadeFcntl => files[0]?

inductive Owner (P : ℕ)
  | description (d : ℕ)
  | process (p : Fin P)
  deriving DecidableEq

/-- Worker `t` of process `p` is `(p, t)`. A process has started the first
`threads p` of its workers, none before it is forked. The locks are named by
the file and the first byte. `inside` tells which calls of `block` have
returned to which worker and wait for `unblock`. -/
structure State (P T : ℕ) where
  kernel : Kernel P
  files : List ℕ
  threads : Fin P → ℕ
  locks : ℕ × ℕ → Option (Owner P)
  inside : Fin P × Fin T → ℕ → Bool

inductive Act (P T : ℕ)
  | fork (p : Fin P)
  | create (p : Fin P)
  | block (w : Fin P × Fin T) (index : ℕ)
  | unblock (w : Fin P × Fin T) (index : ℕ)

/-- The lock that a call is about, and as whose. `flock` takes the file for the
open file description. `lockf` takes the section from the offset to the end of
the file, `fcntl` the byte `index`, both for the process. -/
def lockOf (prog : Program) (s : State P T) (w : Fin P × Fin T) (index : ℕ) :
    Option ((ℕ × ℕ) × Owner P) := do
  let fd ← prog.file s.files index
  let d ← (s.kernel.fds (some w.1))[fd]?
  let f ← s.kernel.openFiles[d]?
  match prog with
  | .cascadeFlock => some ((f.inode, 0), .description d)
  | .cascadeLockf => some ((f.inode, f.offset), .process w.1)
  | .cascadeFcntl => some ((f.inode, index), .process w.1)

def State.setInside (s : State P T) (w : Fin P × Fin T) (index : ℕ) (b : Bool) :
    Fin P × Fin T → ℕ → Bool :=
  Function.update s.inside w (Function.update (s.inside w) index b)

def release (locks : ℕ × ℕ → Option (Owner P)) (l : ℕ × ℕ) (o : Owner P) :
    ℕ × ℕ → Option (Owner P) :=
  if locks l = some o then Function.update locks l none else locks

/-- A lock that is free or that the same owner has already is got at once. -/
def step (prog : Program) (s : State P T) : Act P T → Option (State P T)
  | .fork p =>
    if s.threads p = 0 ∧ ∀ q < p, s.threads q ≠ 0 then
      some { s with kernel := s.kernel.fork p, threads := Function.update s.threads p 1 }
    else none
  | .create p =>
    if s.threads p ≠ 0 ∧ s.threads p < T then
      some { s with threads := Function.update s.threads p (s.threads p + 1) }
    else none
  | .block w index =>
    match lockOf prog s w index with
    | some (l, o) =>
      if w.2.val < s.threads w.1 ∧ (s.locks l = none ∨ s.locks l = some o) then
        some { s with
          locks := Function.update s.locks l (some o)
          inside := s.setInside w index true }
      else none
    | none => none
  | .unblock w index =>
    match lockOf prog s w index with
    | some (l, o) =>
      if w.2.val < s.threads w.1 then
        some { s with
          locks := release s.locks l o
          inside := s.setInside w index false }
      else none
    | none => none

def start (prog : Program) (P T : ℕ) : State P T :=
  let (kernel, files) := prog.benchmarkInitrun (P * T) .boot
  ⟨kernel, files, fun _ ↦ 0, fun _ ↦ none, fun _ _ ↦ false⟩

def system (prog : Program) (P T : ℕ) : System (State P T) (Act P T) where
  init s := s = start prog P T
  step := step prog

def Program.tsd (prog : Program) (w : Fin P × Fin T) : TsdT :=
  prog.assignLocks (P * T) (w.1.val * T + w.2.val) ⟨0, 0, 0, 0, 0, 0⟩

/-- While one worker is between `block` and `unblock`, the same `block` returns
to no other worker. -/
def Excludes (prog : Program) (P T : ℕ) : Prop :=
  ∀ s, (system prog P T).Reachable s → ∀ w v index, w ≠ v → s.inside w index = true →
    step prog s (.block v index) = none

def Program.Separates (P T : ℕ) : Program → Prop
  | .cascadeFlock => P * T = 1
  | .cascadeLockf | .cascadeFcntl => T = 1

end LibMicro.Cascade.FileLock
