import LibMicro.ForLoop
import Mathlib.Algebra.Group.Int.Defs
import Mathlib.Algebra.Group.Nat.Defs
import Mathlib.Data.Int.Basic

namespace LibMicro.Polling

open ForLoop

structure Options where
  optn : BitVec 32
  optr : BitVec 32
  optw : BitVec 32
  optx : Bool

/-- `benchmark_initrun` prints a text and returns -1, or goes beyond an array. -/
inductive Failure
  | printed (text : String)
  | outside
  deriving DecidableEq

def check (o : Options) : Except Failure Unit :=
  let optn := o.optn.toInt
  let optr := o.optr.toInt
  let optw := o.optw.toInt
  if optn.tmod 2 ≠ 0 then .error (.printed "ERROR: -n value must be even\n")
  else if optn < 0 ∨ optr < 0 ∨ optw < 0 then
    .error (.printed "ERROR: -n, -r and -w values must be > 0\n")
  else if optr > optn ∨ optw > optn then
    .error (.printed "ERROR: -r and -w values must be <= maxfd\n")
  else .ok ()

structure Kernel where
  pairs : List (ℕ × ℕ)
  written : List ℕ

namespace Kernel

def Peers (k : Kernel) (fd fd' : ℕ) : Prop := (fd, fd') ∈ k.pairs ∨ (fd', fd) ∈ k.pairs

instance (k : Kernel) (fd fd' : ℕ) : Decidable (k.Peers fd fd') :=
  inferInstanceAs (Decidable (_ ∨ _))

def readable (k : Kernel) (fd : ℕ) : Bool := k.written.any fun fd' ↦ decide (k.Peers fd fd')

def writable (k : Kernel) (fd : ℕ) : Bool :=
  k.pairs.any fun pair ↦ fd == pair.1 || fd == pair.2

def write (k : Kernel) (fd : ℕ) : Kernel := { k with written := k.written ++ [fd] }

end Kernel

structure Files where
  fds : List ℕ
  kernel : Kernel

def Files.none : Files := ⟨[], ⟨[], []⟩⟩

/-- A pair is stored with the lower number first. -/
def Files.socketpair (s : Files) (pair : ℕ × ℕ) : Files where
  fds := s.fds ++ [min pair.1 pair.2, max pair.1 pair.2]
  kernel := { s.kernel with pairs := s.kernel.pairs ++ [pair] }

def element (fds : List ℕ) (i : ℤ) : Except Failure ℕ :=
  if i < 0 then .error .outside
  else match fds[i.toNat]? with
    | some fd => .ok fd
    | none => .error .outside

def peerIndex (i : ℤ) : ℤ := i + 1 - 2 * i.tmod 2

/-- The second variable of the loop with `-x` is `optn - 1 - i`. -/
def writes (o : Options) (fds : List ℕ) (k : Kernel) : Except Failure Kernel :=
  forLoop o.optr.toInt.toNat (fun i k ↦ do
    let j := if o.optx then o.optn.toInt - 1 - i else i
    let fd ← element fds (peerIndex j)
    return k.write fd) k

def Options.pairs (o : Options) : ℕ := (o.optn.toInt.toNat + 1) / 2

namespace Poll

structure Setup where
  fds : List ℕ
  kernel : Kernel
  target : ℤ

/-- The sum is one of two `int`s. -/
def target (o : Options) : ℤ :=
  if o.optx then min (o.optr + o.optw).toInt o.optn.toInt
  else max o.optr.toInt o.optw.toInt

def initrun (o : Options) (pair : ℕ → ℕ × ℕ) : Except Failure Setup := do
  check o
  let files ← forLoop o.pairs (fun k s ↦ .ok (s.socketpair (pair k))) Files.none
  let kernel ← writes o files.fds files.kernel
  return ⟨files.fds, kernel, target o⟩

structure Events where
  pollin : Bool
  pollout : Bool
  deriving DecidableEq

structure Pollfd where
  fd : ℕ
  events : Events

def Pollfd.addOut (p : Pollfd) : Pollfd := { p with events := { p.events with pollout := true } }

def benchmarkPre (o : Options) (fds : List ℕ) : Except Failure (List Pollfd) := do
  let pfds ← forLoop o.optn.toInt.toNat (fun i pfds ↦ do
    let fd ← element fds i
    return pfds ++ [⟨fd, true, false⟩]) []
  forLoop o.optw.toInt.toNat (fun i pfds ↦
    if i < pfds.length then .ok (pfds.modify i Pollfd.addOut) else .error .outside) pfds

def revents (k : Kernel) (p : Pollfd) : Events where
  pollin := p.events.pollin && k.readable p.fd
  pollout := p.events.pollout && k.writable p.fd

/-- `poll` returns the number of entries with a non-zero `revents`. -/
def poll (k : Kernel) (pfds : List Pollfd) : ℕ :=
  pfds.countP fun p ↦ decide (revents k p ≠ ⟨false, false⟩)

end Poll

namespace Select

abbrev FdSet := ℕ → Bool

def FdSet.insert (s : FdSet) (fd : ℕ) : FdSet := Function.update s fd true

structure Opened where
  files : Files
  maxfd : ℕ
  iset : FdSet

structure Setup where
  fds : List ℕ
  kernel : Kernel
  target : ℤ
  maxfd : ℕ
  iset : FdSet
  oset : FdSet

def fdZero : FdSet := fun _ ↦ false

def openPair (fdSetsize : ℕ) (pair : ℕ × ℕ) (s : Opened) : Except Failure Opened :=
  let maxfd := max pair.1 pair.2 + 1
  if maxfd > fdSetsize then .error (.printed "WARNING: FD_SETSIZE is too small!\n")
  else .ok ⟨s.files.socketpair pair, maxfd,
    (s.iset.insert (min pair.1 pair.2)).insert (max pair.1 pair.2)⟩

def initrun (fdSetsize : ℕ) (o : Options) (pair : ℕ → ℕ × ℕ) : Except Failure Setup := do
  check o
  let s ← forLoop o.pairs (fun k ↦ openPair fdSetsize (pair k)) ⟨Files.none, 0, fdZero⟩
  let oset ← forLoop o.optw.toInt.toNat (fun i oset ↦ do
    let fd ← element s.files.fds i
    return FdSet.insert oset fd) fdZero
  let kernel ← writes o s.files.fds s.files.kernel
  return ⟨s.files.fds, kernel, (o.optr + o.optw).toInt, s.maxfd, s.iset, oset⟩

/-- `select` returns the number of bits in both sets. -/
def select (k : Kernel) (nfds : ℕ) (iset : FdSet) (oset : Option FdSet) : ℕ :=
  (List.range nfds).countP (fun fd ↦ iset fd && k.readable fd) +
    match oset with
    | some oset => (List.range nfds).countP (fun fd ↦ oset fd && k.writable fd)
    | none => 0

/-- `my_oset` is `NULL` without `-w`. -/
def benchmark (o : Options) (s : Setup) : ℕ :=
  select s.kernel s.maxfd s.iset (if o.optw ≠ 0 then some s.oset else none)

end Select

/-- Later pairs have larger numbers. -/
structure Allots (pair : ℕ → ℕ × ℕ) (n : ℕ) : Prop where
  distinct : ∀ k < n, (pair k).1 ≠ (pair k).2
  later : ∀ k < n, ∀ i < k, max (pair i).1 (pair i).2 < min (pair k).1 (pair k).2

def Options.Reads (o : Options) (i : ℕ) : Prop :=
  if o.optx then o.optn.toInt - o.optr.toInt ≤ i else i < o.optr.toInt

/-- What the setup of both programs does to `optn` descriptors. -/
structure Readied (o : Options) (fds : List ℕ) (k : Kernel) : Prop where
  length : fds.length = o.optn.toInt
  distinct : fds.Nodup
  readable : ∀ i fd, fds[i]? = some fd → (k.readable fd ↔ o.Reads i)
  only : ∀ fd, k.readable fd → fd ∈ fds
  count : fds.countP k.readable = o.optr.toInt
  once : k.written.Nodup
  writes : k.written.length = o.optr.toInt

/-- No index is outside, and `poll` returns what is expected. -/
def PollExpects (o : Options) (pair : ℕ → ℕ × ℕ) : Prop :=
  ∃ s pfds, Poll.initrun o pair = .ok s ∧ Readied o s.fds s.kernel ∧
    Poll.benchmarkPre o s.fds = .ok pfds ∧ Poll.poll s.kernel pfds = s.target ∧
    s.target = if o.optx then min (o.optr.toInt + o.optw.toInt) o.optn.toInt
      else max o.optr.toInt o.optw.toInt

def SelectExpects (fdSetsize : ℕ) (o : Options) (pair : ℕ → ℕ × ℕ) : Prop :=
  ∃ s, Select.initrun fdSetsize o pair = .ok s ∧ Readied o s.fds s.kernel ∧
    Select.benchmark o s = s.target ∧ s.target = o.optr.toInt + o.optw.toInt

end LibMicro.Polling
