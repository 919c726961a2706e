import LibMicro.Decimal
import LibMicro.ForLoop

namespace LibMicro.Malloc

open Decimal ForLoop Text

/-- An access beyond `opts`, or a text that is too long for the array `result`. -/
inductive Fault
  | outside
  | overrun
  deriving DecidableEq

structure Globals where
  optg : ℤ
  opts : List ℤ
  optscnt : ℕ

def Globals.start : Globals := ⟨100, 32 :: List.replicate 31 0, 0⟩

def element (opts : List ℤ) (i : ℕ) : Except Fault ℤ :=
  match opts[i]? with
  | some size => .ok size
  | none => .error .outside

def store (opts : List ℤ) (i : ℕ) (size : ℤ) : Except Fault (List ℤ) :=
  if i < opts.length then .ok (opts.set i size) else .error .outside

inductive Opt
  | g (value : ℤ)
  | s (value : ℤ)

def benchmarkOptswitch (globals : Globals) : Opt → Except Fault Globals
  | .g value => .ok { globals with optg := value }
  | .s value => do
    let opts ← store globals.opts globals.optscnt value
    return { globals with opts := opts, optscnt := (globals.optscnt + 1) &&& 31 }

def parse (args : List Opt) : Except Fault Globals := args.foldlM benchmarkOptswitch .start

def benchmarkInitworker (globals : Globals) : Globals :=
  { globals with optscnt := if globals.optscnt = 0 then 1 else globals.optscnt }

/-- The index `k` of the loop, and as history the sizes that `malloc` has been asked for. -/
structure Glob where
  k : ℕ
  requests : List ℤ

def Glob.next (globals : Globals) (s : Glob) : Except Fault Glob := do
  let size ← element globals.opts s.k
  let k := s.k + 1
  return ⟨if k ≥ globals.optscnt then 0 else k, s.requests ++ [size]⟩

def benchmark (globals : Globals) : Except Fault (List ℤ) := do
  let s ← forLoop globals.optg.toNat (fun _ ↦ Glob.next globals) ⟨0, []⟩
  return s.requests

def append (result text : List Char) : Except Fault (List Char) :=
  if (result ++ text).length < 256 then .ok (result ++ text) else .error .overrun

def benchmarkResult (globals : Globals) : Except Fault (List Char) := do
  let result ← append [] (padLeft 6 (integer globals.optg) ++ [' '])
  forLoop globals.optscnt (fun i result ↦ do
    let size ← element globals.opts i
    append result (integer size ++ [' '])) result

def sizes (args : List Opt) : List ℤ := args.filterMap fun
  | .g _ => none
  | .s value => some value

def globCount (args : List Opt) : ℤ := args.foldl (fun g opt ↦
  match opt with
  | .g value => value
  | .s _ => g) 100

def listed (g : ℤ) (sizes : List ℤ) : List Char :=
  padLeft 6 (integer g) ++ ' ' :: sizes.flatMap fun size ↦ integer size ++ [' ']

/-- What has been given is used and printed, also by a process that has no workers. -/
structure Uses (args : List Opt) (globals : Globals) : Prop where
  requests : ∃ requests, benchmark (benchmarkInitworker globals) = .ok requests ∧
    requests.length = (globCount args).toNat ∧
    ∀ j < requests.length, requests[j]? = (sizes args)[j % (sizes args).length]?
  result : benchmarkResult (benchmarkInitworker globals) = .ok (listed (globCount args) (sizes args))
  parent : benchmarkResult globals = .ok (listed (globCount args) (sizes args))

structure Inside (globals : Globals) : Prop where
  benchmark : benchmark (benchmarkInitworker globals) ≠ .error .outside
  result : benchmarkResult (benchmarkInitworker globals) ≠ .error .outside
  parent : benchmarkResult globals ≠ .error .outside

/-- Up to 32 sizes are used, and more do no harm. -/
def Honours (args : List Opt) : Prop :=
  ∃ globals, parse args = .ok globals ∧ Inside globals ∧
    ((sizes args).length ≤ 32 → Uses args globals)

end LibMicro.Malloc
