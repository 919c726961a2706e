import LibMicro.ForLoop
import Mathlib.Data.Int.Basic
import Mathlib.Logic.Equiv.Defs

namespace LibMicro.PointerChain

open ForLoop

inductive Fault
  | outside
  deriving DecidableEq

abbrev Buffer := List ℤ

def load (data : Buffer) (ptr : ℤ) : Except Fault ℤ :=
  if ptr < 0 then .error .outside
  else match data[ptr.toNat]? with
    | some v => .ok v
    | none => .error .outside

def store (data : Buffer) (ptr v : ℤ) : Except Fault Buffer :=
  if 0 ≤ ptr ∧ ptr < data.length then .ok (data.set ptr.toNat v) else .error .outside

def entries (opts : ℕ) : ℕ := opts / 8

def setLinks (opts : ℕ) (data : Buffer) : Except Fault Buffer :=
  forLoop (entries opts) (fun i data ↦
    let j : ℤ := i - 128
    let j := if j < 0 then j + entries opts else j
    store data i j) data

def Memrand.benchmarkInitworker (opts : ℕ) (data : Buffer) : Except Fault Buffer :=
  setLinks opts data

def Cachetocache.benchmarkInitworker (opts : ℕ) (data : Buffer) : Except Fault Buffer :=
  setLinks opts data

def follow (data : Buffer) : ℕ → ℤ → Except Fault ℤ
  | 0, ptr => .ok ptr
  | k + 1, ptr => do
    let ptr ← load data ptr
    follow data k ptr

def Memrand.benchmark (data : Buffer) : Except Fault ℤ := do
  let ptr ← follow data 10 0
  load data ptr

/-- The variables of `traverse_ptrchain`, and as history where `ptr` has gone. -/
structure Chain where
  data : Buffer
  ptr : ℤ
  visited : List ℤ

namespace Chain

def add (value : ℤ) (s : Chain) : Except Fault Chain := do
  let v ← load s.data s.ptr
  let data ← store s.data s.ptr (v + value)
  return { s with data := data }

def hop (s : Chain) : Except Fault Chain := do
  let v ← load s.data s.ptr
  return { s with ptr := v, visited := s.visited ++ [v] }

def round (value : ℤ) (s : Chain) : Except Fault Chain := do
  let s ← forLoop 10 (fun _ s ↦ do
    let s ← s.add value
    s.hop) s
  s.add value

end Chain

/-- `i` takes every tenth value below `count`. The result is a pointer, of which the code
returns one half. -/
def traversePtrchain (data : Buffer) (ptr : ℤ) (count : ℕ) (value : ℤ) :
    Except Fault (Chain × ℤ) := do
  let s ← forLoop ((count + 9) / 10) (fun _ ↦ Chain.round value) ⟨data, ptr, []⟩
  let v ← load s.data s.ptr
  return (s, v)

def count (opts : ℕ) : ℕ := opts / 128 / 8

def blocks (ptrs : List ℤ) : List ℤ := ptrs.map (· / 128)

def EachBlock (opts : ℕ) (ptrs : List ℤ) : Prop :=
  (blocks ptrs).Perm ((List.range (opts / 1024)).map Nat.cast)

def period (opts : ℕ) : ℕ := entries opts / (entries opts).gcd 128

structure Turns (opts : ℕ) (links : Buffer) : Prop where
  permutation : ∃ π : Equiv.Perm (Fin (entries opts)), links = List.ofFn fun i ↦ ((π i : ℕ) : ℤ)
  returns : follow links (period opts) 0 = .ok 0
  first : ∀ k, 0 < k → k < period opts → ∃ ptr, follow links k 0 = .ok ptr ∧ ptr ≠ 0
  turn : 1024 ∣ opts → ∃ ptrs : List ℤ, ptrs.length = period opts ∧
    (∀ k ptr, ptrs[k]? = some ptr → follow links (k + 1) 0 = .ok ptr) ∧ EachBlock opts ptrs
  traverse : 1024 ∣ opts → 10 ∣ count opts →
    ∃ s v, traversePtrchain links 0 (count opts) 0 = .ok (s, v) ∧ EachBlock opts s.visited ∧
      s.ptr = 0 ∧ s.data = links

end LibMicro.PointerChain
