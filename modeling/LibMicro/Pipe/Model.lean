import LibMicro.ByteStream
import LibMicro.TransitionSystem

namespace LibMicro.Pipe

open TransitionSystem ByteStream

inductive Mode
  | mt
  | mp
  deriving DecidableEq

/-- The transports that need no root. -/
inductive Xport
  | pipe
  | sock
  | tcp
  deriving DecidableEq

/-- A descriptor is an end of one of two channels, or of the pair of them. -/
inductive Fd
  | readEnd (i : ℕ)
  | writeEnd (i : ℕ)
  | socket (i : ℕ)
  deriving DecidableEq

def Fd.source : Fd → Option ℕ
  | .readEnd i | .socket i => some i
  | .writeEnd _ => none

def Fd.sink : Fd → Option ℕ
  | .writeEnd i => some i
  | .socket i => some (1 - i)
  | .readEnd _ => none

structure TsdT where
  tsIn : Fd
  tsOut : Fd
  tsIn2 : Fd
  tsOut2 : Fd

/-- In each pair the first descriptor is for reading. -/
def preparePipes : TsdT where
  tsIn := .readEnd 0
  tsOut2 := .writeEnd 0
  tsIn2 := .readEnd 1
  tsOut := .writeEnd 1

def prepareSocketpair : TsdT where
  tsIn := .socket 0
  tsOut := .socket 0
  tsIn2 := .socket 1
  tsOut2 := .socket 1

/-- The connecting socket is `ts_out`, the accepted one `ts_out2`. -/
def prepareLocaltcp : TsdT where
  tsOut := .socket 0
  tsOut2 := .socket 1
  tsIn := .socket 0
  tsIn2 := .socket 1

def prepare : Xport → TsdT
  | .pipe => preparePipes
  | .sock => prepareSocketpair
  | .tcp => prepareLocaltcp

inductive Side
  | worker
  | loopback
  deriving DecidableEq

def Side.other : Side → Side
  | .worker => .loopback
  | .loopback => .worker

def Side.out (ts : TsdT) : Side → Fd
  | .worker => ts.tsOut
  | .loopback => ts.tsOut2

def Side.in (ts : TsdT) : Side → Fd
  | .worker => ts.tsIn
  | .loopback => ts.tsIn2

inductive Call
  | write
  | readall
  | pthreadJoin
  | waitpid
  | ret
  | exit
  deriving DecidableEq

def benchmarkPre : List Call := [.write, .readall]

def benchmark : List Call := [.write, .readall]

def benchmarkPost : Mode → List Call
  | .mt => [.write, .readall, .pthreadJoin]
  | .mp => [.write, .readall, .waitpid]

/-- The thread ends with its return, the process with `exit (0)`. -/
def loopback : Mode → List Call
  | .mt => (List.replicate 3 [.readall, .write]).flatten ++ [.ret]
  | .mp => (List.replicate 3 [.readall, .write]).flatten ++ [.exit]

def Side.script (optm : Mode) : Side → List Call
  | .worker => benchmarkPre ++ benchmark ++ benchmarkPost optm
  | .loopback => Pipe.loopback optm

/-- Where a side is in its call. A `write` has bytes left, a `readall` has got some. -/
inductive Io
  | idle
  | writing (rest : List UInt8)
  | reading (buf : List UInt8)
  deriving DecidableEq

/-- For each side its place in the script, its call, how many writes it has
begun, what its calls of `readall` have read, and whether `lm_err` has ended it. -/
structure State where
  channel : ℕ → Channel UInt8
  pos : Side → ℕ
  io : Side → Io
  begun : Side → ℕ
  got : Side → List (List UInt8)
  exited : Side → Bool

/-- A step of one side. The number is how many bytes the kernel moves. -/
structure Act where
  side : Side
  count : ℕ

def State.goOn (s : State) (d : Side) : State :=
  { s with pos := Function.update s.pos d (s.pos d + 1), io := Function.update s.io d .idle }

/-- Two threads end together, and of two processes only the one that fails. -/
def State.lmErr (optm : Mode) (s : State) (d : Side) : State :=
  { s with exited := match optm with
    | .mt => fun _ ↦ true
    | .mp => Function.update s.exited d true }

/-- `LM_CHK (result == opts)`, where the call has moved all of the `opts` bytes.
`write` returns them as a number of 64 bits, `readall` as one of 32. -/
def State.check (optm : Mode) (width opts : ℕ) (s : State) (d : Side) : State :=
  if Int.bmod opts (2 ^ width) = opts then s.goOn d else s.lmErr optm d

/-- The buffers hold `opts` bytes. The program leaves open which; here the
bytes may even change from one write to the next. Both processes keep every
descriptor open, so that no read finds the end of a stream. -/
def step (optm : Mode) (ts : TsdT) (capacity opts : ℕ) (wbuf : Side → ℕ → Fin opts → UInt8)
    (s : State) (a : Act) : Option State :=
  if s.exited a.side then none else
  match (a.side.script optm)[s.pos a.side]?, s.io a.side with
  | some .write, .idle =>
    some { s with
      io := Function.update s.io a.side (.writing (List.ofFn (wbuf a.side (s.begun a.side))))
      begun := Function.update s.begun a.side (s.begun a.side + 1) }
  | some .write, .writing [] => some (s.check optm 64 opts a.side)
  | some .write, .writing rest =>
    if 1 ≤ a.count ∧ a.count ≤ rest.length then
      (a.side.out ts).sink.bind fun i ↦
        ((s.channel i).write capacity (rest.take a.count)).map fun c ↦
          { s with
            channel := Function.update s.channel i c
            io := Function.update s.io a.side (.writing (rest.drop a.count)) }
    else none
  | some .readall, .idle => some { s with io := Function.update s.io a.side (.reading []) }
  | some .readall, .reading buf =>
    (a.side.in ts).source.bind fun i ↦
      let n := a.count
      if 1 ≤ n ∧ n ≤ (s.channel i).content.length ∧ n ≤ opts - buf.length then
        let buf' := buf ++ (s.channel i).content.take n
        let s' := { s with
          channel := Function.update s.channel i ((s.channel i).read n)
          io := Function.update s.io a.side (.reading buf') }
        if buf'.length = opts then
          some ({ s' with got := Function.update s.got a.side (s.got a.side ++ [buf']) }.check
            optm 32 opts a.side)
        else some s'
      else none
  | some .pthreadJoin, .idle =>
    if (a.side.other.script optm).length ≤ s.pos a.side.other then some (s.goOn a.side) else none
  | some .waitpid, .idle =>
    if (a.side.other.script optm).length ≤ s.pos a.side.other ∨ s.exited a.side.other then
      some (s.goOn a.side)
    else none
  | some .ret, .idle | some .exit, .idle => some (s.goOn a.side)
  | _, _ => none

def start : State :=
  ⟨fun _ ↦ .empty, fun _ ↦ 0, fun _ ↦ .idle, fun _ ↦ 0, fun _ ↦ [], fun _ ↦ false⟩

def system (optm : Mode) (optx : Xport) (capacity opts : ℕ) (wbuf : Side → ℕ → Fin opts → UInt8) :
    System State Act where
  init s := s = start
  step := step optm (prepare optx) capacity opts wbuf

def State.Finished (optm : Mode) (s : State) (d : Side) : Prop :=
  (d.script optm).length ≤ s.pos d

end LibMicro.Pipe
