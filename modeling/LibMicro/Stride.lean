import Mathlib.Data.ZMod.Basic

namespace LibMicro.Stride

variable {n s i j k m : ℕ}

/-- A step of `s` places back in a circle of `n`. -/
def back (n s i : ℕ) : ℕ := if i < s then i + n - s else i - s

theorem back_lt (hi : i < n) : back n s i < n := by
  unfold back
  split <;> omega

theorem back_iterate_lt (hi : i < n) (k : ℕ) : (back n s)^[k] i < n := by
  induction k with
  | zero => exact hi
  | succ k ih =>
    rw [Function.iterate_succ_apply']
    exact back_lt ih

theorem back_back (hs : s ≤ n) (hi : i < n) : back n (n - s) (back n s i) = i := by
  unfold back
  split_ifs <;> omega

def backPerm (n s : ℕ) (hs : s ≤ n) : Equiv.Perm (Fin n) where
  toFun i := ⟨back n s i, back_lt i.isLt⟩
  invFun i := ⟨back n (n - s) i, back_lt i.isLt⟩
  left_inv i := Fin.ext (back_back hs i.isLt)
  right_inv i := by
    have h := back_back (s := n - s) (Nat.sub_le n s) i.isLt
    rw [Nat.sub_sub_self hs] at h
    exact Fin.ext h

theorem cast_back (hs : s ≤ n) (i : ℕ) : (back n s i : ZMod n) = i - s := by
  unfold back
  split_ifs with h
  · rw [Nat.cast_sub (by omega), Nat.cast_add, ZMod.natCast_self, add_zero]
  · rw [Nat.cast_sub (by omega)]

theorem cast_back_iterate (hs : s ≤ n) (i k : ℕ) :
    ((back n s)^[k] i : ZMod n) = i - k • (s : ZMod n) := by
  induction k with
  | zero => simp
  | succ k ih =>
    rw [Function.iterate_succ_apply', cast_back hs, ih, succ_nsmul, sub_sub]

/-- A walk comes back to where it began after the multiples of the order of `s`. -/
theorem back_iterate_eq_iff (hs : s ≤ n) (hi : i < n) :
    (back n s)^[k] i = i ↔ n / n.gcd s ∣ k := by
  have hn : n ≠ 0 := by omega
  have hmod : (back n s)^[k] i = i ↔ ((back n s)^[k] i : ZMod n) = i := by
    rw [ZMod.natCast_eq_natCast_iff', Nat.mod_eq_of_lt (back_iterate_lt hi k),
      Nat.mod_eq_of_lt hi]
  rw [hmod, cast_back_iterate hs, sub_eq_self, ← addOrderOf_dvd_iff_nsmul_eq_zero,
    ZMod.addOrderOf_coe s hn]

theorem back_iterate_mul (hk : k < m) : (back (m * s) s)^[k + 1] 0 = (m - (k + 1)) * s := by
  induction k with
  | zero =>
    change back (m * s) s 0 = (m - 1) * s
    rw [Nat.sub_mul, Nat.one_mul]
    rcases Nat.eq_zero_or_pos s with rfl | hpos
    · rfl
    · rw [back, if_pos hpos, Nat.zero_add]
  | succ k ih =>
    rw [Function.iterate_succ_apply', ih (by omega)]
    have hstep : (m - (k + 1)) * s = (m - (k + 1 + 1)) * s + s := by
      rw [← Nat.succ_mul]
      congr 1
      omega
    rw [back, if_neg (by omega)]
    omega

end LibMicro.Stride
