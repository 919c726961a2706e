import LibMicro.DescriptorProgram
import LibMicro.Pipe.Model

namespace LibMicro.Pipe.Descriptors

open TransitionSystem DescriptorTable DescriptorProgram

inductive Mode
  | st
  | mt
  | mp
  deriving DecidableEq

/-- The fields of `tsd_t` that hold a descriptor, and the locals they are set from. -/
inductive Var
  | tsIn
  | tsOut
  | tsIn2
  | tsOut2
  | tsLsn
  | p0
  | p1
  | s0
  | s1
  | result
  deriving DecidableEq

inductive Func
  | pipe
  | socketpair
  | socket
  | connect
  | accept
  | setsockopt
  | gethostbyname
  | bind
  | listen
  | pthreadCreate
  | fork
  | write
  | readall
  | pthreadJoin
  | waitpid

abbrev Stmt := DescriptorProgram.Stmt Var Func

def preparePipes : Mode → List Stmt
  | .st => [.call .pipe [.p0, .p1], .assign .tsIn .p0, .assign .tsOut .p1]
  | .mt | .mp => [.call .pipe [.p0, .p1], .assign .tsIn .p0, .assign .tsOut2 .p1,
      .call .pipe [.p0, .p1], .assign .tsIn2 .p0, .assign .tsOut .p1]

def prepareSocketpair (optm : Mode) : List Stmt :=
  .call .socketpair [.s0, .s1] :: match optm with
    | .st => [.assign .tsIn .s0, .assign .tsOut .s1]
    | .mt | .mp => [.assign .tsIn .s0, .assign .tsOut .s0, .assign .tsIn2 .s1, .assign .tsOut2 .s1]

/-- The ports are tried until `bind` succeeds. -/
def prepareLocaltcpOnce : List Stmt :=
  [.call .socket [.tsLsn], .call .setsockopt [], .call .gethostbyname [], .call .bind [],
    .call .listen []]

def prepareLocaltcp (optm : Mode) (once : Bool) : List Stmt :=
  (if once then prepareLocaltcpOnce else []) ++
    [.call .socket [.tsOut], .call .connect [], .call .accept [.result],
      .assign .tsOut2 .result, .call .setsockopt [], .call .setsockopt []] ++
    match optm with
    | .st => [.assign .tsIn .tsOut2]
    | .mt | .mp => [.assign .tsIn .tsOut, .assign .tsIn2 .tsOut2]

def prepare (optm : Mode) (once : Bool) : Xport → List Stmt
  | .sock => prepareSocketpair optm
  | .tcp => prepareLocaltcp optm once
  | .pipe => preparePipes optm

def benchmarkPre (optm : Mode) (optx : Xport) (once : Bool) : List Stmt :=
  prepare optm once optx ++
  (match optm with
    | .mt => [.call .pthreadCreate []]
    | .mp => [.call .fork []]
    | .st => []) ++
  [.call .write [], .call .readall []]

def benchmark : List Stmt := [.call .write [], .call .readall []]

def closeConns (optm : Mode) (optx : Xport) : List Stmt :=
  .close .tsIn :: (if optx ≠ .sock ∧ optx ≠ .tcp then [.close .tsOut] else []) ++
    match optm with
    | .mt | .mp =>
      .close .tsIn2 :: if optx ≠ .sock ∧ optx ≠ .tcp then [.close .tsOut2] else []
    | .st => []

def benchmarkPost (optm : Mode) (optx : Xport) : List Stmt :=
  [.call .write [], .call .readall []] ++
  (match optm with
    | .mt => [.call .pthreadJoin []]
    | .mp => [.call .waitpid []]
    | .st => []) ++
  closeConns optm optx

def round (optm : Mode) (optx : Xport) (once : Bool) : List Stmt :=
  benchmarkPre optm optx once ++ benchmark ++ benchmarkPost optm optx

variable {ι : Type}

abbrev Files (ι : Type) := Table (Option ι)

structure Worker (ι : Type) where
  task : Task Var Func (Option ι)
  tsOnce : BitVec 32
  rounds : ℕ

structure State (ι : Type) where
  files : Files ι
  worker : ι → Worker ι

structure Label (ι : Type) where
  worker : ι
  fds : List ℕ

def Worker.start : Worker ι := ⟨.start, 0, 0⟩

/-- `ts_once` is an `int` that every round with tcp increments. -/
def Worker.begin (optm : Mode) (optx : Xport) (t : Files ι) (u : Worker ι) : Worker ι where
  task := u.task.begin t (round optm optx (u.tsOnce == 0))
  tsOnce := if optx = .tcp then u.tsOnce + 1 else u.tsOnce
  rounds := u.rounds + 1

variable [DecidableEq ι]

def State.set (s : State ι) (w : ι) (t : Files ι) (u : Worker ι) : State ι :=
  ⟨t, Function.update s.worker w u⟩

/-- Whatever fails ends the run. The label says which numbers a call opens. -/
def step (optm : Mode) (optx : Xport) (s : State ι) (a : Label ι) : Option (State ι) :=
  let u := s.worker a.worker
  match u.task.todo with
  | [] => some (s.set a.worker s.files (u.begin optm optx s.files))
  | _ :: _ =>
    (u.task.step (some a.worker) a.fds s.files).map fun p ↦
      s.set a.worker p.1 { u with task := p.2 }

def system (ι : Type) [DecidableEq ι] (optm : Mode) (optx : Xport) : System (State ι) (Label ι) where
  init s := (∀ w, s.worker w = .start) ∧ ∀ w fd, s.files fd ≠ some (some w)
  step := step optm optx

/-- The listening socket, which the first round with tcp leaves open. -/
def Worker.kept (optx : Xport) (u : Worker ι) : List ℕ :=
  if optx = .tcp ∧ u.rounds = 1 then [u.task.vars .tsLsn] else []

structure Clean (optx : Xport) (t : Files ι) (w : ι) (u : Worker ι) : Prop where
  same : ∀ fd, t fd = some (some w) ↔ u.task.before fd = some (some w) ∨ fd ∈ u.kept optx
  distinct : u.task.opened.Nodup
  closed : u.task.opened.Perm (u.task.closed ++ u.kept optx)

structure Closable (t : Files ι) (w : ι) (u : Worker ι) (fd : ℕ) : Prop where
  owned : t fd = some (some w)
  opened : fd ∈ u.task.opened
  once : fd ∉ u.task.closed

def NoLeak (optm : Mode) (optx : Xport) (rounds : ℕ) : Prop :=
  ∀ (ι : Type) [DecidableEq ι] (s : State ι), (system ι optm optx).Reachable s →
    (∀ w, (s.worker w).rounds ≤ rounds) → ∀ w,
      ((s.worker w).task.todo = [] → Clean optx s.files w (s.worker w)) ∧
      ∀ x rest, (s.worker w).task.todo = .close x :: rest →
        Closable s.files w (s.worker w) ((s.worker w).task.vars x)

end LibMicro.Pipe.Descriptors
