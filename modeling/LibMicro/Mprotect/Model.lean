import LibMicro.Pages.Model
import LibMicro.Rounds

namespace LibMicro.Mprotect

open Rounds TransitionSystem

structure Options where
  optl : ℕ
  pagesize : ℕ
  optt : Bool

inductive Prot
  | none
  | readWrite
  deriving DecidableEq

/-- What the last `mprotect` has set, and `ts_run` of each thread. -/
structure Shared (T : ℕ) where
  prot : Prot
  tsRun : Fin T → BitVec 32

variable {T : ℕ}

def Shared.setProt (s : Shared T) (prot : Prot) : Shared T := { s with prot := prot }

def Shared.ran (s : Shared T) (u : Fin T) : Shared T :=
  { s with tsRun := Function.update s.tsRun u (s.tsRun u + 1) }

/-- The statements of `benchmark`. After `overflow`, nothing is defined. -/
inductive Pc
  | switch
  | touch (j : ℕ)
  | overflow
  | mprotect (prot : Prot)
  | tsRun
  deriving DecidableEq

/-- There is one process, and its `getpindex ()` is 0. -/
def us (u : Fin T) : BitVec 32 := 0 * BitVec.ofNat 32 T + BitVec.ofNat 32 u

/-- A page that may not be read ends the process. -/
def benchmarkStep (opt : Options) (u : Fin T) (s : Shared T) : Pc → Option (Shared T × Option Pc)
  | .switch =>
    if (us u + s.tsRun u).srem 2 = 0 then
      some (s, some (if opt.optt then .touch 0 else .mprotect .none))
    else some (s, some (.mprotect .readWrite))
  | .touch j =>
    if j < opt.optl then
      if s.prot = .none then none
      else some (s, some (if j + opt.pagesize < 2 ^ 31 then .touch (j + opt.pagesize) else .overflow))
    else some (s, some (.mprotect .none))
  | .overflow => none
  | .mprotect prot => some (s.setProt prot, some .tsRun)
  | .tsRun => some (s.ran u, none)

def mapped (T : ℕ) : Shared T := ⟨.readWrite, fun _ ↦ 0⟩

def benchmark (opt : Options) (T : ℕ) : Body (Fin T) (Shared T) Pc :=
  ⟨.switch, fun u _ s pc ↦ benchmarkStep opt u s pc⟩

def system (opt : Options) (T : ℕ) : System (State (Fin T) (Shared T) Pc) (Fin T) :=
  Rounds.system (benchmark opt T) (· = mapped T)

/-- The next step of a thread reads no protected page, and is defined. -/
structure Safe (opt : Options) (s : State (Fin T) (Shared T) Pc) (u : Fin T) : Prop where
  readable : ∀ j, (s.worker u).place = some (.touch j) → j < opt.optl → s.shared.prot ≠ .none
  defined : (s.worker u).place ≠ some .overflow

def NoFault (opt : Options) (T : ℕ) : Prop :=
  ∀ s, (system opt T).Reachable s → ∀ u, Safe opt s u

end LibMicro.Mprotect
