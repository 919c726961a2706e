import LibMicro.Harness.Tsd
import LibMicro.Rounds
import Mathlib.Data.Fintype.Prod

namespace LibMicro.Siglongjmp

open Harness.Tsd Rounds TransitionSystem

/-- The second assignment undoes the first one. -/
def benchmarkInit (sizeofTsdT : BitVec 64) (g : Globals) : Globals :=
  let g := { g with lmTsdsize := sizeofTsdT }
  { g with lmTsdsize := 0 }

abbrev WorkerId (g : Globals) := Fin g.lmOptP.toNat × Fin g.lmOptT.toNat

def ts (g : Globals) (u : WorkerId g) : BitVec 64 :=
  g.gettsd (BitVec.ofNat 32 u.1) (BitVec.ofNat 32 u.2)

inductive Pc
  | sigsetjmp (i : ℕ)
  | test (i : ℕ)
  | siglongjmp (i : ℕ)
  deriving DecidableEq

/-- At each address, the worker that has stored its context there, and in which of its calls. -/
abbrev Env (g : Globals) := BitVec 64 → Option (WorkerId g × ℕ)

/-- A jump comes back to where its context has been stored, and has no meaning in
another call. -/
def benchmarkStep (g : Globals) (u : WorkerId g) (call : ℕ) (env : Env g) :
    Pc → Option (Env g × Option Pc)
  | .sigsetjmp i => some (Function.update env (ts g u) (some (u, call)), some (.test i))
  | .test i => some (env, if i < 1 then some (.siglongjmp (i + 1)) else none)
  | .siglongjmp i => if env (ts g u) = some (u, call) then some (env, some (.test i)) else none

def benchmark (g : Globals) : Body (WorkerId g) (Env g) Pc := ⟨.sigsetjmp 0, benchmarkStep g⟩

/-- The segment is shared by all processes, and filled with zeros. -/
def system (g : Globals) : System (State (WorkerId g) (Env g) Pc) (WorkerId g) :=
  Rounds.system (benchmark g) fun env ↦ env = fun _ ↦ none

/-- A worker that is about to jump has stored its context in the same call. -/
def OwnContext (g : Globals) : Prop :=
  ∀ s, (system g).Reachable s → ∀ u i, (s.worker u).place = some (.siglongjmp i) →
    s.shared (ts g u) = some (u, (s.worker u).calls)

end LibMicro.Siglongjmp
