import LibMicro.Decimal
import LibMicro.WhileLoop

namespace LibMicro.Getenv

open Decimal WhileLoop

inductive Fault
  | outside
  | overflow
  deriving DecidableEq

/-- The strings before the `NULL` in `environ`. -/
abbrev Environ := List (List Char)

def element (environ : Environ) (i : ℕ) : Except (Halt Fault) (Option (List Char)) :=
  if i ≤ environ.length then .ok environ[i]? else .error (.failed .outside)

def increment (i : ℕ) : Except (Halt Fault) ℕ :=
  if i + 1 < 2 ^ 31 then .ok (i + 1) else .error (.failed .overflow)

def count (environ : Environ) (n : ℕ) : Except (Halt Fault) ℕ :=
  loop (fun i ↦ do
    let s ← element environ i
    let i ← increment i
    return (s.isSome, i)) n 0

def nameOf (s : List Char) : Option (List Char) :=
  if '=' ∈ s then some (s.takeWhile (· ≠ '=')) else none

/-- A string of the same name is replaced. -/
def putenv (environ : Environ) (s : List Char) : Environ :=
  match environ.findIdx? fun e ↦ nameOf e = nameOf s with
  | some i => environ.set i s
  | none => environ ++ [s]

def varName (j : ℤ) : List Char := "VAR_".toList ++ integer j

def padding (j : ℤ) : List Char := varName j ++ '=' :: integer j

/-- The option and the environment that are left after the count `i`. -/
def pad (opts : ℤ) (environ : Environ) (i : ℕ) : ℤ × Environ :=
  let opts := if opts < i then (i : ℤ) else opts
  (opts, (List.range' i (opts.toNat - i)).foldl (fun environ (j : ℕ) ↦ putenv environ (padding j))
    environ)

def benchmarkInitrun (opts : ℤ) (environ : Environ) (n : ℕ) : Except (Halt Fault) (ℤ × Environ) := do
  let i ← count environ n
  return pad opts environ i

def Padded (opts : ℤ) (environ : Environ) : Prop :=
  ∃ n opts' pads, benchmarkInitrun opts environ n = .ok (opts', environ ++ pads) ∧
    (environ ++ pads).length = max opts environ.length ∧ pads.Nodup ∧ ∀ s ∈ pads, ∃ j, s = padding j

end LibMicro.Getenv
