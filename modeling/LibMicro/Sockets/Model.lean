import LibMicro.DescriptorGraph
import LibMicro.TransitionSystem

namespace LibMicro.Sockets

open DescriptorGraph DescriptorTable TransitionSystem

inductive Program
  | socketpair
  | connection (opta optc : Bool)
  | closeTcp
  deriving DecidableEq

/-- The fields of `tsd_t` that hold a descriptor, the `int` that follows `ts_fd` in memory, and
the local that `accept` sets. -/
inductive Var
  | tsFd
  | tsFdNext
  | tsLsn
  | tsAcc
  | tsConn
  | result
  deriving DecidableEq

/-- The statements of the callbacks. Those of `connection` and `close_tcp` share names. A worker
is `idle` between two rounds. -/
inductive Pc
  | idle
  | tsFd
  | socketpair
  | closeFd
  | lsnSocket
  | lsnOption
  | gethostbyname
  | bind
  | listen
  | connSocket
  | connOption
  | preConnect
  | connect
  | pollConn
  | closeRefused
  | connSocketAgain
  | connectAgain
  | accept
  | test
  | pollLsn
  | store
  | closeAcc
  | closeConn
  deriving DecidableEq

/-- `socketpair` stores its two descriptors at `&ts->ts_fd`. -/
def socketpair : Flow Var Pc
  | .tsFd => [.fails .tsFd .socketpair]
  | .socketpair => [.opens [.tsFd, .tsFdNext] .closeFd]
  | .closeFd => [.closes .tsFd .idle]
  | _ => []

/-- The ports are tried until `bind` succeeds. -/
def listenOn (next : Pc) : Flow Var Pc
  | .lsnSocket => [.opens [.tsLsn] .lsnOption]
  | .lsnOption => [.goto .gethostbyname]
  | .gethostbyname => [.goto .bind]
  | .bind => [.goto .listen, .goto .bind]
  | .listen => [.goto next]
  | _ => []

/-- A call that fails leads on only where the code does not check it with `LM_CHK`. -/
def connection (opta optc : Bool) : Flow Var Pc
  | .connSocket => [.opens [.tsConn] .connOption]
  | .connOption => [.goto (if opta then .preConnect else .connect)]
  | .preConnect => [.goto (if optc then .closeConn else .accept)]
  | .connect =>
    [.goto (if optc then .closeConn else .accept), .goto (if optc then .closeConn else .pollConn)]
  | .pollConn => [.goto .connect, .goto .accept]
  | .accept => [.opens [.result] .test, .fails .result .pollLsn]
  | .test =>
    [⟨.positive .result, .assigns .tsAcc .result, .closeAcc⟩, ⟨.notPositive .result, .other, .pollLsn⟩]
  -- the loop ends when `poll` does not return 1, and then `result` is checked
  | .pollLsn => [.goto .accept, ⟨.notFailed .result, .assigns .tsAcc .result, .closeAcc⟩]
  | .closeAcc => [.closes .tsAcc .closeConn]
  | .closeConn => [.closes .tsConn .idle]
  | p => listenOn .connSocket p

/-- `benchmark_initworker` comes before the first round. -/
def closeTcp : Flow Var Pc
  | .connSocket => [.opens [.tsConn] .connect]
  | .connect => [.goto .accept, .goto .closeRefused]
  | .closeRefused => [.closes .tsConn .connSocketAgain]
  | .connSocketAgain => [.opens [.tsConn] .connectAgain]
  | .connectAgain => [.goto .accept]
  | .accept => [.opens [.result] .store]
  | .store => [⟨.always, .assigns .tsAcc .result, .closeAcc⟩]
  | .closeAcc => [.closes .tsAcc .closeConn]
  | .closeConn => [.closes .tsConn .idle]
  | p => listenOn .idle p

namespace Program

def graph : Program → Flow Var Pc
  | .socketpair => Sockets.socketpair
  | .connection opta optc => Sockets.connection opta optc
  | .closeTcp => Sockets.closeTcp

def entry (tsOnce : BitVec 32) : Program → Pc
  | .socketpair => if tsOnce = 0 then .tsFd else .socketpair
  | .connection _ _ => if tsOnce = 0 then .lsnSocket else .connSocket
  | .closeTcp => .connSocket

/-- `ts_once` is an `int` that `benchmark_pre` increments. -/
def increment (tsOnce : BitVec 32) : Program → BitVec 32
  | .socketpair | .connection _ _ => tsOnce + 1
  | .closeTcp => tsOnce

def initial : Program → Pc
  | .socketpair | .connection _ _ => .idle
  | .closeTcp => .lsnSocket

end Program

variable {ι : Type}

abbrev Files (ι : Type) := Table (Option ι)

structure Worker (ι : Type) where
  task : Task Var Pc (Option ι)
  tsOnce : BitVec 32
  rounds : ℕ

structure State (ι : Type) where
  files : Files ι
  worker : ι → Worker ι

structure Label (ι : Type) where
  worker : ι
  way : ℕ
  fds : List ℕ

def Worker.start (prog : Program) : Worker ι :=
  ⟨⟨fun _ ↦ some 0, prog.initial, fun _ ↦ none, [], []⟩, 0, 0⟩

def Worker.begin (prog : Program) (t : Files ι) (u : Worker ι) : Worker ι where
  task := u.task.begin t (prog.entry u.tsOnce)
  tsOnce := prog.increment u.tsOnce
  rounds := u.rounds + 1

variable [DecidableEq ι]

def State.set (s : State ι) (w : ι) (t : Files ι) (u : Worker ι) : State ι :=
  ⟨t, Function.update s.worker w u⟩

def step (prog : Program) (s : State ι) (a : Label ι) : Option (State ι) :=
  let u := s.worker a.worker
  if u.task.pc = .idle then
    some (s.set a.worker s.files (u.begin prog s.files))
  else
    ((prog.graph u.task.pc)[a.way]?).bind fun e ↦
      (u.task.step (some a.worker) a.fds s.files e).map fun p ↦
        s.set a.worker p.1 { u with task := p.2 }

def system (ι : Type) [DecidableEq ι] (prog : Program) : System (State ι) (Label ι) where
  init s := (∀ w, s.worker w = .start prog) ∧ ∀ w fd, s.files fd ≠ some (some w)
  step := step prog

def Worker.kept (u : Worker ι) : Program → List ℕ
  | .connection _ _ => if u.rounds = 1 then (u.task.vars .tsLsn).toList else []
  | _ => []

structure Clean (prog : Program) (t : Files ι) (w : ι) (u : Worker ι) : Prop where
  same : ∀ fd, t fd = some (some w) ↔ u.task.before fd = some (some w) ∨ fd ∈ u.kept prog
  closed : u.task.opened.Perm (u.task.closed ++ u.kept prog)

def Closable (prog : Program) (t : Files ι) (w : ι) (u : Worker ι) : Prop :=
  ∀ e ∈ prog.graph u.task.pc, e.test.holds u.task.vars → ∀ x, e.effect = .closes x →
    ∃ fd, u.task.vars x = some fd ∧ t fd = some (some w)

def Balanced (prog : Program) (rounds : ℕ) : Prop :=
  ∀ (ι : Type) [DecidableEq ι] (s : State ι), (system ι prog).Reachable s →
    (∀ w, (s.worker w).rounds ≤ rounds) → ∀ w,
      ((s.worker w).task.pc = .idle → (s.worker w).rounds ≠ 0 →
        Clean prog s.files w (s.worker w)) ∧
      Closable prog s.files w (s.worker w)

end LibMicro.Sockets
