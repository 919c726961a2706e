import LibMicro.Decimal

namespace LibMicro.Sizes

open Decimal

def toInt (z : ℤ) : ℤ := Int.bmod z (2 ^ 32)

/-- A result of `long long` arithmetic, if there is one. -/
def longLong (z : ℤ) : Option ℤ := if -2 ^ 63 ≤ z ∧ z < 2 ^ 63 then some z else none

def isspace (c : Char) : Bool := c = ' ' ∨ ('\t' ≤ c ∧ c ≤ '\r')

def kilobyte : ℤ := 1024

def megabyte : ℤ := kilobyte * kilobyte

def gigabyte : ℤ := kilobyte * megabyte

/-- The number that a text begins with, to the base ten. What is too great or too small
becomes the greatest or the least value. -/
def strtoll (s : List Char) : ℤ :=
  let (neg, s) := sign (s.dropWhile isspace)
  let n : ℤ := Nat.ofDigitChars 10 (digits s).1 0
  if neg then max (-n) (-2 ^ 63) else min n (2 ^ 63 - 1)

/-- A `long` is as wide as a `long long`. -/
def atoi (s : List Char) : ℤ := toInt (strtoll s)

def multiplier : Char → Option ℤ
  | 'k' | 'K' => some kilobyte
  | 'm' | 'M' => some megabyte
  | 'g' | 'G' => some gigabyte
  | _ => none

/-- The first part of both functions: the multiplier, or `none` inside where the result
is -1. There is none at all where `len` is negative, and the string is read before its
beginning. -/
def suffix (arg : List Char) : Option (Option ℤ) :=
  let len := toInt arg.length
  if len = 0 then some (some 1)
  else if len < 0 then none
  else
    arg[len.toNat - 1]?.map fun c ↦
      if c.isAlpha then
        (multiplier c).bind fun mult ↦
          if (arg.take (len.toNat - 1)).all Char.isDigit then some mult else none
      else some 1

def sizetoll (arg : List Char) : Option ℤ := do
  match ← suffix arg with
  | none => return -1
  | some mult => longLong (mult * strtoll arg)

def sizetoint (arg : List Char) : Option ℤ := do
  match ← suffix arg with
  | none => return -1
  | some mult =>
    let size ← longLong (mult * atoi arg)
    return toInt size

example : sizetoll "30m".toList = some 31457280 := by decide +kernel

end LibMicro.Sizes
