import Mathlib.Data.Int.Order.Basic
import Mathlib.Data.Nat.Basic
import Mathlib.Tactic.Common

namespace LibMicro.Regions

/-- The size of the buffer that it points into, if there is one, and the distance from its
beginning. -/
@[ext]
structure Pointer where
  buffer : Option ℤ
  offset : ℤ
  deriving DecidableEq

namespace Pointer

def add (p : Pointer) (n : ℤ) : Pointer := { p with offset := p.offset + n }

def Holds (p : Pointer) (len : ℤ) : Prop :=
  ∃ size, p.buffer = some size ∧ 0 ≤ p.offset ∧ p.offset + len ≤ size

end Pointer

variable {len : ℤ} {next : Pointer → Pointer} {region : ℕ → Pointer} {n : ℕ} {p : Pointer}

/-- Each region follows the one before. Where that one would not fit, it is the first one. -/
structure Rotates (len : ℤ) (next : Pointer → Pointer) (region : ℕ → Pointer) (n : ℕ) : Prop where
  follows : ∀ k, k + 1 < n → (next (region k)).Holds len → region (k + 1) = next (region k)
  wraps : ∀ k, k + 1 < n → ¬ (next (region k)).Holds len → region (k + 1) = region 0

def Apart (len : ℤ) (next : Pointer → Pointer) (region : ℕ → Pointer) (n : ℕ) : Prop :=
  ∀ i j, i < j → j < n → (∀ k, i ≤ k → k < j → (next (region k)).Holds len) →
    (region i).offset + len ≤ (region j).offset

theorem Rotates.apart (h : Rotates len next region n) (hlen : 0 ≤ len)
    (hnext : ∀ p, p.offset + len ≤ (next p).offset) : Apart len next region n := by
  intro i j hij hj hfit
  induction hij with
  | refl =>
    rw [h.follows i hj (hfit i le_rfl (Nat.lt_succ_self i))]
    exact hnext _
  | @step j hij ih =>
    have hbefore := ih (Nat.lt_of_succ_lt hj) fun k hk hlt ↦ hfit k hk (Nat.lt_succ_of_lt hlt)
    have hstep := hnext (region j)
    rw [h.follows j hj (hfit j (Nat.le_of_succ_le hij) (Nat.lt_succ_self j))]
    omega

theorem rotates_const_iff (hp : next p ≠ p) :
    Rotates len next (fun _ ↦ p) n ↔ n ≤ 1 ∨ ¬ (next p).Holds len := by
  constructor
  · intro h
    by_contra hn
    push Not at hn
    exact hp (h.follows 0 hn.1 hn.2).symm
  · rintro (hn | hfit)
    · exact ⟨fun k hk ↦ by omega, fun k hk ↦ by omega⟩
    · exact ⟨fun k _ hk ↦ absurd hk hfit, fun _ _ _ ↦ rfl⟩

end LibMicro.Regions
