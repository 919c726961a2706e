import LibMicro.DescriptorLimit
import LibMicro.Harness.Callbacks

namespace LibMicro.Descriptors

open TransitionSystem DescriptorTable Harness

/-- The benchmarks that open descriptors in a round and close them in it. `close` has `optb`. -/
inductive Program
  | dup
  | openFile
  | socket
  | close (optb : Bool)
  | setsockopt
  | socketpair
  deriving DecidableEq

/-- A statement with its `LM_CHK`. The first of the descriptors that `opens` opens goes to
`ts_fd`. In `once` it is set to -1 in the first round, by `dup` in memory that it allocates. -/
inductive Stmt
  | once (malloc : Bool)
  | opens (n : ℕ)
  | dup
  | assign (fd : ℕ)
  | close (optb : Bool)
  | setsockopt
  deriving DecidableEq

def benchmarkPre : Program → List Stmt
  | .dup => [.once true]
  | .openFile | .socket | .socketpair => [.once false]
  | .close optb => [if optb then .assign 1024 else .opens 1]
  | .setsockopt => [.opens 1]

def benchmark : Program → List Stmt
  | .dup => [.dup]
  | .openFile | .socket => [.opens 1]
  | .close optb => [.close optb]
  | .setsockopt => [.setsockopt]
  | .socketpair => [.opens 2]

/-- `socketpair` has opened two descriptors. -/
def benchmarkPost : Program → List Stmt
  | .close _ => []
  | .dup | .openFile | .socket | .setsockopt | .socketpair => [.close false]

def Program.script (prog : Program) : Callback → List Stmt
  | .pre => benchmarkPre prog
  | .benchmark => Descriptors.benchmark prog
  | .post => benchmarkPost prog

/-- `tsFd` is `ts_fds[0]` in `dup`. It is `none` where it is -1. -/
structure TsdT where
  tsOnce : ℕ
  tsFd : Option ℕ

/-- The limit for the number of descriptors, the `fd` of `dup`, which is `none` where it is -1, and
the statements in whose call the kernel finds another fault than a lack of descriptors (there is no
such file or address family, no memory, a signal has come), each by its worker, callback, round
and place. -/
structure Env (ι : Type) where
  limit : ℕ
  fd : Option ℕ
  faults : ι → Callback → ℕ → ℕ → Bool

/-- What has been opened by a thread, or before there were threads. -/
abbrev Fds (T : ℕ) := Table (Option (Fin T))

variable {T : ℕ} {ι : Type}

/-- The last part of the result is what `LM_CHK` finds. -/
def execOpens (e : Env ι) (i : Fin T) (t : Fds T) (ts : TsdT) (fault : Bool) (n : ℕ) :
    Fds T × TsdT × Bool :=
  match if fault then none else Table.opens e.limit (some i) n t with
  | none => (t, { ts with tsFd := if n = 1 then none else ts.tsFd }, false)
  | some (t, fds) => (t, { ts with tsFd := fds.head? }, true)

def exec (e : Env ι) (i : Fin T) (t : Fds T) (ts : TsdT) (fault : Bool) :
    Stmt → Fds T × TsdT × Bool
  | .once malloc =>
    (t, ⟨ts.tsOnce + 1, if ts.tsOnce = 0 then none else ts.tsFd⟩,
      !(malloc && ts.tsOnce = 0 && fault))
  | .opens n => execOpens e i t ts fault n
  | .dup =>
    if (e.fd.bind t).isSome then execOpens e i t ts fault 1 else (t, { ts with tsFd := none }, false)
  | .assign fd => (t, { ts with tsFd := some fd }, true)
  | .close optb =>
    match ts.tsFd.bind t.close with
    | none => (t, ts, optb)
    | some t => (t, ts, optb || !fault)
  | .setsockopt => (t, ts, !fault)

/-- The descriptors of each process, the `tsd` of each thread, and the processes that `lm_err`
has ended. -/
structure Shared (opt : Options) where
  table : Fin opt.lmOptP → Fds opt.lmOptT
  tsd : WorkerId opt → TsdT
  exited : Fin opt.lmOptP → Bool

variable {opt : Options}

def Shared.exec (e : Env (WorkerId opt)) (x : Shared opt) (u : WorkerId opt) (fault : Bool)
    (s : Stmt) : Shared opt :=
  let (t, ts, ok) := Descriptors.exec e u.2 (x.table u.1) (x.tsd u) fault s
  ⟨Function.update x.table u.1 t, Function.update x.tsd u ts, Function.update x.exited u.1 (!ok)⟩

def callbacks (opt : Options) (prog : Program) (e : Env (WorkerId opt)) :
    Callbacks (WorkerId opt) (Shared opt) ℕ where
  entry _ := 0
  step u c r x k :=
    if x.exited u.1 then none
    else match (prog.script c)[k]? with
      | none => some (x, none)
      | some s => some (x.exec e u (e.faults u c r k) s, some (k + 1))

/-- The descriptors that are open when the threads begin. -/
def inherited (I : Finset ℕ) : Fds T := fun i ↦ if i ∈ I then some none else none

/-- The mapping that holds the `tsd` is filled with zeros. -/
def begun (opt : Options) (I : Finset ℕ) : Shared opt :=
  ⟨fun _ ↦ inherited I, fun _ ↦ ⟨0, some 0⟩, fun _ ↦ false⟩

def system (opt : Options) (prog : Program) (e : Env (WorkerId opt)) (I : Finset ℕ) :
    System (Loaded.State (WorkerId opt) (Shared opt) ℕ) (Act (WorkerId opt)) :=
  Loaded.system opt (callbacks opt prog e) (· = begun opt I)

/-- `struct rlimit` -/
structure Rlimit where
  rlimCur : ℕ
  rlimMax : ℕ
  deriving DecidableEq

/-- Only a privileged process can raise `rlim_max`. Where `setrlimit` fails, it exits. -/
def setfdlimit (privileged : Bool) (limit : ℕ) (rlimit : Rlimit) : Option Rlimit :=
  if limit < rlimit.rlimCur then some rlimit
  else if rlimit.rlimMax < limit then
    if privileged then some ⟨limit, limit⟩ else none
  else some ⟨limit, rlimit.rlimMax⟩

/-- The environment that the workers find, with what is open. `setsockopt` has no such
function, and only `dup` opens its file, where `missing` says that this cannot be done. It does not
check that. -/
def benchmarkInitrun (privileged missing : Bool) (faults : ι → Callback → ℕ → ℕ → Bool)
    (lmOptT : ℕ) (rlimit : Rlimit) (I : Finset ℕ) : Program → Option (Env ι × Finset ℕ)
  | .setsockopt => some (⟨rlimit.rlimCur, none, faults⟩, I)
  | .dup =>
    (setfdlimit privileged (lmOptT + 10) rlimit).map fun r ↦
      match if missing then none else (inherited I : Fds 0).lowest r.rlimCur with
      | none => (⟨r.rlimCur, none, faults⟩, I)
      | some fd => (⟨r.rlimCur, some fd, faults⟩, insert fd I)
  | .openFile | .socket | .close _ | .socketpair =>
    (setfdlimit privileged (lmOptT + 10) rlimit).map fun r ↦ (⟨r.rlimCur, none, faults⟩, I)

end LibMicro.Descriptors
