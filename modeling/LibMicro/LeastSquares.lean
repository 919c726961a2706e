import Mathlib.Algebra.BigOperators.Field
import Mathlib.Algebra.Order.BigOperators.Ring.Finset
import Mathlib.Tactic.LinearCombination

namespace LibMicro.LeastSquares

open Finset

variable {ι K : Type} [Field K] (s : Finset ι) (x y : ι → K)

def residual (a b : K) : K := ∑ i ∈ s, (y i - a - b * x i) ^ 2

/-- The determinant of the normal equations. -/
def spread : K := #s * ∑ i ∈ s, x i * x i - (∑ i ∈ s, x i) * ∑ i ∈ s, x i

structure Normal (a b : K) : Prop where
  sum : ∑ i ∈ s, (y i - a - b * x i) = 0
  moment : ∑ i ∈ s, x i * (y i - a - b * x i) = 0

variable {s x y} {a b a' b' : K}

theorem sum_distances (a b : K) :
    ∑ i ∈ s, (y i - a - b * x i) = ∑ i ∈ s, y i - #s * a - b * ∑ i ∈ s, x i := by
  rw [sum_sub_distrib, sum_sub_distrib, sum_const, nsmul_eq_mul, mul_sum]

theorem sum_moments (a b : K) :
    ∑ i ∈ s, x i * (y i - a - b * x i) =
      ∑ i ∈ s, x i * y i - a * ∑ i ∈ s, x i - b * ∑ i ∈ s, x i * x i := by
  rw [mul_sum, mul_sum, ← sum_sub_distrib, ← sum_sub_distrib]
  apply sum_congr rfl
  intro i _
  ring

/-- Cramer's rule. -/
theorem normal_of_spread (h : spread s x ≠ 0) :
    Normal s x y
      (((∑ i ∈ s, y i) * ∑ i ∈ s, x i * x i - (∑ i ∈ s, x i) * ∑ i ∈ s, x i * y i) / spread s x)
      ((#s * ∑ i ∈ s, x i * y i - (∑ i ∈ s, x i) * ∑ i ∈ s, y i) / spread s x) := by
  have ha := mul_div_cancel₀
    ((∑ i ∈ s, y i) * ∑ i ∈ s, x i * x i - (∑ i ∈ s, x i) * ∑ i ∈ s, x i * y i) h
  have hb := mul_div_cancel₀ (#s * ∑ i ∈ s, x i * y i - (∑ i ∈ s, x i) * ∑ i ∈ s, y i) h
  have hd : spread s x = #s * ∑ i ∈ s, x i * x i - (∑ i ∈ s, x i) * ∑ i ∈ s, x i := rfl
  constructor
  · apply mul_left_cancel₀ h
    rw [sum_distances]
    linear_combination -(#s : K) * ha - (∑ i ∈ s, x i) * hb + (∑ i ∈ s, y i) * hd
  · apply mul_left_cancel₀ h
    rw [sum_moments]
    linear_combination -(∑ i ∈ s, x i) * ha - (∑ i ∈ s, x i * x i) * hb +
      (∑ i ∈ s, x i * y i) * hd

theorem Normal.residual_eq (h : Normal s x y a b) (a' b' : K) :
    residual s x y a' b' =
      residual s x y a b + ∑ i ∈ s, ((a - a') + (b - b') * x i) ^ 2 := by
  have hcross : ∑ i ∈ s, (2 * (a - a') * (y i - a - b * x i) +
      2 * (b - b') * (x i * (y i - a - b * x i))) = 0 := by
    rw [sum_add_distrib, ← mul_sum, ← mul_sum, h.sum, h.moment]
    ring
  unfold residual
  rw [← add_zero (∑ i ∈ s, (y i - a - b * x i) ^ 2), ← hcross, ← sum_add_distrib,
    ← sum_add_distrib]
  apply sum_congr rfl
  intro i _
  ring

theorem two_mul_spread :
    2 * spread s x = ∑ i ∈ s, ∑ j ∈ s, (x i - x j) ^ 2 := by
  have hrow (i : ι) : ∑ j ∈ s, (x i - x j) ^ 2 =
      #s * (x i * x i) - 2 * x i * ∑ j ∈ s, x j + ∑ j ∈ s, x j * x j := by
    rw [mul_sum, ← nsmul_eq_mul, ← sum_const, ← sum_sub_distrib, ← sum_add_distrib]
    apply sum_congr rfl
    intro j _
    ring
  simp only [hrow, sum_add_distrib, sum_sub_distrib, ← sum_mul, ← mul_sum, sum_const, nsmul_eq_mul]
  unfold spread
  ring

variable [LinearOrder K] [IsStrictOrderedRing K]

theorem residual_nonneg (a b : K) : 0 ≤ residual s x y a b := sum_nonneg fun _ _ ↦ sq_nonneg _

theorem spread_eq_zero_iff : spread s x = 0 ↔ ∀ i ∈ s, ∀ j ∈ s, x i = x j := by
  have hrow (i : ι) : 0 ≤ ∑ j ∈ s, (x i - x j) ^ 2 := sum_nonneg fun _ _ ↦ sq_nonneg _
  rw [← mul_eq_zero_iff_left (two_ne_zero' K), two_mul_spread,
    sum_eq_zero_iff_of_nonneg fun i _ ↦ hrow i]
  apply forall₂_congr
  intro i _
  rw [sum_eq_zero_iff_of_nonneg fun _ _ ↦ sq_nonneg _]
  apply forall₂_congr
  intro j _
  rw [sq_eq_zero_iff, sub_eq_zero]

variable (s x y) in
/-- Every other line has a greater sum of squares. -/
def IsFit (a b : K) : Prop := ∀ a' b', (a', b') ≠ (a, b) → residual s x y a b < residual s x y a' b'

theorem Normal.isFit (h : Normal s x y a b) (hs : spread s x ≠ 0) : IsFit s x y a b := by
  intro a' b' hne
  rw [h.residual_eq a' b', lt_add_iff_pos_right]
  have hsq : ∀ i ∈ s, 0 ≤ ((a - a') + (b - b') * x i) ^ 2 := fun _ _ ↦ sq_nonneg _
  refine lt_of_le_of_ne (sum_nonneg hsq) fun hzero ↦ hne ?_
  have hline : ∀ i ∈ s, (a - a') + (b - b') * x i = 0 := by
    intro i hi
    exact sq_eq_zero_iff.mp ((sum_eq_zero_iff_of_nonneg hsq).mp hzero.symm i hi)
  -- two places where the lines meet make them one
  obtain ⟨i, hi, j, hj, hij⟩ : ∃ i ∈ s, ∃ j ∈ s, x i ≠ x j := by
    by_contra hall
    push Not at hall
    exact hs (spread_eq_zero_iff.mpr hall)
  have hb : b - b' = 0 := by
    have hmul : (b - b') * (x i - x j) = 0 := by linear_combination hline i hi - hline j hj
    exact (mul_eq_zero.mp hmul).resolve_right (sub_ne_zero.mpr hij)
  have ha : a - a' = 0 := by simpa [hb] using hline i hi
  rw [← sub_eq_zero.mp ha, ← sub_eq_zero.mp hb]

theorem IsFit.of_line (h : IsFit s x y a b) (hline : ∀ i ∈ s, y i = a' + b' * x i) :
    (a', b') = (a, b) := by
  by_contra hne
  have hzero : residual s x y a' b' = 0 := by
    apply sum_eq_zero
    intro i hi
    rw [hline i hi]
    ring
  exact (hzero ▸ h a' b' hne).not_ge (residual_nonneg a b)

end LibMicro.LeastSquares
