import LibMicro.CommandLine.Model
import LibMicro.Paths

namespace LibMicro.Exec

open Paths Sizes Decimal

/-- The directory of the binary. The array for the path has 1024 bytes, and there is no result
where it does not fit. -/
def lmProcpath (argv0 cwd : List Char) : Option (List Char) :=
  if argv0.head? = some '/' then some (truncate argv0)
  else if (cwd ++ '/' :: argv0).length < 1024 then some (truncate (cwd ++ '/' :: argv0))
  else none

def execBinName : List Char := "exec_bin".toList

/-- `exec_path` and `argv`. -/
def benchmarkPre (lmProcpath : List Char) : Option (List Char × List (List Char)) :=
  let execPath := lmProcpath ++ '/' :: execBinName
  if execPath.length < 1024 then some (execPath, [execPath, integer 1]) else none

/-- A process before a call of `execv`, with the status with which it exits when that fails, or
one that has exited. -/
inductive Process
  | execv (path : List Char) (argv : List (List Char)) (failed : ℤ)
  | exited (status : ℤ)
  deriving DecidableEq

/-- `main` of `exec_bin`. Without `argv[0]` it reads what is not there, and from the least
number it cannot count down. -/
def execBin : List (List Char) → Option Process
  | [] => none
  | [_] => some (.exited 1)
  | path :: arg :: rest =>
    if atoi arg = -2 ^ 31 then none
    else if atoi arg - 1 ≤ 0 then some (.exited 0)
    else some (.execv path (path :: integer (atoi arg - 1) :: rest) 2)

/-- The files, and which of them are copies of `exec_bin`. -/
structure World (α : Type) where
  files : Files α
  isExecBin : α → Bool

variable {α : Type}

/-- It is not known what another program would do. -/
def step (w : World α) (cwd : α) : Process → Option Process
  | .exited _ => none
  | .execv path argv failed =>
    match resolve w.files cwd path with
    | none => some (.exited failed)
    | some file => if w.isExecBin file then execBin argv else none

def run (w : World α) (cwd : α) : ℕ → Process → Option Process
  | 0, p => some p
  | n + 1, p => (step w cwd p).bind (run w cwd n)

/-- The child in `benchmark`. Its `LM_CHK` exits with 1. -/
def child (execPath : List Char) (argv : List (List Char)) : Process := .execv execPath argv 1

end LibMicro.Exec
