import LibMicro.WhileLoop
import Mathlib.Data.Int.Basic
import Mathlib.Data.List.DropRight

namespace LibMicro.Tattle

open WhileLoop

inductive Fault
  | outside
  deriving DecidableEq

/-- The bytes from `o` on. A pointer is an index. -/
abbrev Buffer := List Char

def nul : Char := Char.ofNat 0

def load (data : Buffer) (p : ℤ) : Except (Halt Fault) Char :=
  if p < 0 then .error (.failed .outside)
  else match data[p.toNat]? with
    | some c => .ok c
    | none => .error (.failed .outside)

def store (data : Buffer) (p : ℤ) (c : Char) : Except (Halt Fault) Buffer :=
  if 0 ≤ p ∧ p < data.length then .ok (data.set p.toNat c) else .error (.failed .outside)

def skipBlanks (data : Buffer) : ℕ → ℤ → Except (Halt Fault) ℤ :=
  whileLoop
    (fun s ↦ do
      let c ← load data s
      return c = ' ')
    (fun s ↦ .ok (s + 1))

structure Copy where
  data : Buffer
  o : ℤ
  s : ℤ

/-- The last byte that is copied is the end of the string. -/
def strcpy : ℕ → Copy → Except (Halt Fault) Copy :=
  loop fun t ↦ do
    let c ← load t.data t.s
    let data ← store t.data t.o c
    return (c ≠ nul, ⟨data, t.o + 1, t.s + 1⟩)

def shift (data : Buffer) (s : ℤ) (n : ℕ) : Except (Halt Fault) Buffer :=
  if 0 ≠ s then do
    let t ← strcpy n ⟨data, 0, s⟩
    return t.data
  else .ok data

def findEnd (data : Buffer) : ℕ → ℤ → Except (Halt Fault) ℤ :=
  whileLoop
    (fun e ↦ do
      let c ← load data e
      return c ≠ nul)
    (fun e ↦ .ok (e + 1))

structure Trim where
  data : Buffer
  e : ℤ

def dropBlanks : ℕ → Trim → Except (Halt Fault) Trim :=
  whileLoop
    (fun t ↦ do
      let c ← load t.data t.e
      return c = ' ' ∧ t.e > 0)
    (fun t ↦ do
      let data ← store t.data t.e nul
      return ⟨data, t.e - 1⟩)

def cleanup (data : Buffer) (n : ℕ) : Except (Halt Fault) Buffer := do
  let s ← skipBlanks data n 0
  let data ← shift data s n
  let e ← findEnd data n 0
  let t ← dropBlanks n ⟨data, e - 1⟩
  return t.data

def text (data : Buffer) : List Char := data.takeWhile (· ≠ nul)

def strip (s : List Char) : List Char := (s.dropWhile (· = ' ')).rdropWhile (· = ' ')

/-- `cleanup` ends without an access outside the buffer, and the string is stripped. Doing it
again changes nothing. -/
def Cleans (s : List Char) : Prop :=
  ∃ n data, cleanup (s ++ [nul]) n = .ok data ∧ text data = strip s ∧
    ∃ n data', cleanup data n = .ok data' ∧ text data' = text data

end LibMicro.Tattle
