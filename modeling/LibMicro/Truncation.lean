import Mathlib.Algebra.Order.Floor.Ring
import Mathlib.Data.Rat.Floor
import Mathlib.Tactic.Linarith
import Mathlib.Tactic.Ring

namespace LibMicro.Truncation

variable {x : ℚ} {n m : ℤ}

/-- The conversion to an integer type, which rounds toward zero. -/
def trunc (x : ℚ) : ℤ := if 0 ≤ x then ⌊x⌋ else ⌈x⌉

theorem trunc_of_nonneg (h : 0 ≤ x) : trunc x = ⌊x⌋ := if_pos h

theorem trunc_of_nonpos (h : x ≤ 0) : trunc x = ⌈x⌉ := by
  rcases h.lt_or_eq with h | rfl
  · exact if_neg h.not_ge
  · rfl

theorem trunc_nonneg_iff : 0 ≤ trunc x ↔ -1 < x := by
  rcases le_total 0 x with h | h
  · rw [trunc_of_nonneg h, Int.floor_nonneg]
    exact ⟨fun _ ↦ by linarith, fun _ ↦ h⟩
  · rw [trunc_of_nonpos h, ← Int.sub_one_lt_iff, Int.lt_ceil]
    simp

theorem trunc_int (n : ℤ) : trunc n = n := by
  unfold trunc
  split_ifs
  · exact Int.floor_intCast n
  · exact Int.ceil_intCast n

theorem le_trunc_iff (hn : 0 < n) : n ≤ trunc x ↔ n ≤ x := by
  rcases le_total 0 x with h | h
  · rw [trunc_of_nonneg h, Int.le_floor]
  · have hn' : (0 : ℚ) < n := by exact_mod_cast hn
    have hc : ⌈x⌉ ≤ 0 := Int.ceil_le.mpr (by exact_mod_cast h)
    rw [trunc_of_nonpos h]
    exact iff_of_false (by omega) (by linarith)

/-! Rounding an integer to a multiple, toward zero. -/

theorem tdiv_mul_le (hn : 0 ≤ n) (hm : 0 < m) : n.tdiv m * m ≤ n := by
  rw [Int.tdiv_eq_ediv_of_nonneg hn]
  exact Int.ediv_mul_le n hm.ne'

theorem lt_tdiv_mul_add (hn : 0 ≤ n) (hm : 0 < m) : n < n.tdiv m * m + m := by
  have := Int.lt_ediv_add_one_mul_self n hm
  rw [Int.tdiv_eq_ediv_of_nonneg hn]
  linarith

theorem le_tdiv_mul (hn : n ≤ 0) (hm : 0 < m) : n ≤ n.tdiv m * m := by
  have := tdiv_mul_le (Int.neg_nonneg_of_nonpos hn) hm
  rw [Int.neg_tdiv] at this
  linarith

theorem tdiv_mul_lt_add (hn : n ≤ 0) (hm : 0 < m) : n.tdiv m * m < n + m := by
  have := lt_tdiv_mul_add (Int.neg_nonneg_of_nonpos hn) hm
  rw [Int.neg_tdiv] at this
  linarith

theorem tdiv_mul_nonpos (hn : n ≤ 0) (hm : 0 < m) : n.tdiv m * m ≤ 0 := by
  have := Int.tdiv_nonneg (Int.neg_nonneg_of_nonpos hn) hm.le
  rw [Int.neg_tdiv] at this
  exact Int.mul_nonpos_of_nonpos_of_nonneg (by omega) hm.le

end LibMicro.Truncation
