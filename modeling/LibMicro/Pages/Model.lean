import LibMicro.WhileLoop
import Mathlib.Algebra.Group.Nat.Defs

namespace LibMicro.Pages

open WhileLoop

inductive Fault
  | overflow
  deriving DecidableEq

def intAdd (j p : ℕ) : Except (Halt Fault) ℕ :=
  if j + p < 2 ^ 31 then .ok (j + p) else .error (.failed .overflow)

def sizeAdd (j p : ℕ) : Except (Halt Fault) ℕ := .ok ((j + p) % 2 ^ 64)

/-- The variable of a loop, and as history where it has been. -/
structure Cursor where
  j : ℕ
  touched : List ℕ

def Cursor.next (add : ℕ → ℕ → Except (Halt Fault) ℕ) (p : ℕ) (s : Cursor) :
    Except (Halt Fault) Cursor := do
  let j ← add s.j p
  return ⟨j, s.touched ++ [s.j]⟩

def touch (add : ℕ → ℕ → Except (Halt Fault) ℕ) (len p n : ℕ) : Except (Halt Fault) (List ℕ) := do
  let s ← whileLoop (fun s ↦ .ok (decide (s.j < len))) (Cursor.next add p) n ⟨0, []⟩
  return s.touched

def touchIf (opt : Bool) (add : ℕ → ℕ → Except (Halt Fault) ℕ) (len p n : ℕ) :
    Except (Halt Fault) (List ℕ) :=
  if opt then touch add len p n else .ok []

structure Touched where
  read : List ℕ
  written : List ℕ

def touchPages (add : ℕ → ℕ → Except (Halt Fault) ℕ) (len p : ℕ) (optr optw : Bool) (n : ℕ) :
    Except (Halt Fault) Touched := do
  let read ← touchIf optr add len p n
  let written ← touchIf optw add len p n
  return ⟨read, written⟩

def Munmap.benchmarkPre (optl : ℕ) (optr optw : Bool) : ℕ → Except (Halt Fault) Touched :=
  touchPages intAdd optl 4096 optr optw

def Msync.benchmark (optl pagesize : ℕ) (optr optw : Bool) : ℕ → Except (Halt Fault) Touched :=
  touchPages intAdd optl pagesize optr optw

def Mprotect.benchmarkInitrun (optl pagesize : ℕ) (optr optw : Bool) :
    ℕ → Except (Halt Fault) Touched :=
  touchPages intAdd optl pagesize optr optw

/-- Here `optw` is the size of a page, or 0 without -w. -/
def Read.benchmark (opts optw : ℕ) : ℕ → Except (Halt Fault) Touched :=
  touchPages intAdd opts optw false (optw ≠ 0)

def Pread.benchmark (opts optw : ℕ) : ℕ → Except (Halt Fault) Touched :=
  touchPages intAdd opts optw false (optw ≠ 0)

def Mmap.benchmark (optl optp : ℕ) (optr optw : Bool) : ℕ → Except (Halt Fault) Touched :=
  touchPages sizeAdd optl optp optr optw

inductive Program
  | munmap
  | msync
  | mprotect
  | read
  | pread
  | mmap
  deriving DecidableEq

namespace Program

def run (optl pagesize : ℕ) (optr optw : Bool) : Program → ℕ → Except (Halt Fault) Touched
  | munmap => Munmap.benchmarkPre optl optr optw
  | msync => Msync.benchmark optl pagesize optr optw
  | mprotect => Mprotect.benchmarkInitrun optl pagesize optr optw
  | read => Read.benchmark optl (if optw then pagesize else 0)
  | pread => Pread.benchmark optl (if optw then pagesize else 0)
  | mmap => Mmap.benchmark optl pagesize optr optw

def reads : Program → Bool
  | munmap | msync | mprotect | mmap => true
  | read | pread => false

end Program

def pages (len p : ℕ) : ℕ := (len + p - 1) / p

def offsets (len p : ℕ) : List ℕ := (List.range (pages len p)).map (· * p)

/-- The loops that are asked for end, and have been at every page once. -/
def TouchesOnce (prog : Program) (optl pagesize : ℕ) (optr optw : Bool) : Prop :=
  let all := offsets optl pagesize
  ∃ n, prog.run optl pagesize optr optw n =
    .ok ⟨if prog.reads && optr then all else [], if optw then all else []⟩

end LibMicro.Pages
