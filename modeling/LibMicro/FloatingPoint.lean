import Mathlib.Algebra.Order.Floor.Ring
import Mathlib.Algebra.Order.Field.Power
import Mathlib.Data.Nat.Log
import Mathlib.Data.Rat.Floor
import Mathlib.Tactic.FieldSimp
import Mathlib.Tactic.Linarith
import Mathlib.Tactic.Positivity
import Mathlib.Tactic.Ring

namespace LibMicro.FloatingPoint

variable {p : ℕ} {x y s t k c : ℚ} {e : ℤ}

/-- A number of `p` binary digits, with any exponent. -/
def IsFloat (p : ℕ) (x : ℚ) : Prop := ∃ m e : ℤ, |m| ≤ 2 ^ p ∧ x = m * 2 ^ e

theorem isFloat_int {n : ℤ} (h : |n| ≤ 2 ^ p) : IsFloat p n := ⟨n, 0, h, by simp⟩

theorem isFloat_zero : IsFloat p 0 := ⟨0, 0, by simp, by simp⟩

theorem IsFloat.neg (h : IsFloat p x) : IsFloat p (-x) := by
  obtain ⟨m, e, hm, rfl⟩ := h
  exact ⟨-m, e, by rwa [abs_neg], by push_cast; ring⟩

theorem IsFloat.normal (h : IsFloat p x) (hx : 0 < x) :
    ∃ m e : ℤ, 2 ^ p < 2 * m ∧ m ≤ 2 ^ p ∧ x = m * 2 ^ e := by
  obtain ⟨m, e, hm, rfl⟩ := h
  have hpos : 0 < m := by
    have : (0 : ℚ) < m := pos_of_mul_pos_left hx (by positivity)
    exact_mod_cast this
  obtain ⟨n, rfl⟩ := Int.eq_ofNat_of_zero_le hpos.le
  have hn : 0 < n := by exact_mod_cast hpos
  have hle : n ≤ 2 ^ p := by
    rw [abs_of_nonneg hpos.le] at hm
    exact_mod_cast hm
  have hdiv : 2 ^ p / n ≠ 0 := (Nat.div_pos hle hn).ne'
  have hlow := Nat.pow_log_le_self 2 hdiv
  have hhigh := Nat.lt_pow_succ_log_self one_lt_two (2 ^ p / n)
  generalize Nat.log 2 (2 ^ p / n) = j at hlow hhigh
  refine ⟨n * 2 ^ j, e - j, ?_, ?_, ?_⟩
  · have : 2 ^ p < n * 2 ^ (j + 1) := (Nat.div_lt_iff_lt_mul hn).mp hhigh |>.trans_eq (mul_comm _ _)
    rw [pow_succ] at this
    have : 2 ^ p < 2 * (n * 2 ^ j) := by linarith
    exact_mod_cast this
  · have : 2 ^ j * n ≤ 2 ^ p := (Nat.le_div_iff_mul_le hn).mp hlow
    rw [mul_comm] at this
    exact_mod_cast this
  · rw [zpow_sub₀ two_ne_zero]
    push_cast
    field_simp
    rw [zpow_natCast]

theorem IsFloat.grid (h : IsFloat p x) (hx : 2 ^ p * 2 ^ (e - 1) < |x|) :
    ∃ n : ℤ, x = n * 2 ^ e := by
  obtain ⟨m, e', hm, rfl⟩ := h
  have hm' : |(m : ℚ)| ≤ 2 ^ p := by exact_mod_cast hm
  have hpos : (0 : ℚ) < 2 ^ e' := by positivity
  have hlt : (2 : ℚ) ^ (e - 1) < 2 ^ e' := by
    rw [abs_mul, abs_of_pos hpos] at hx
    exact lt_of_mul_lt_mul_left (hx.trans_le (mul_le_mul_of_nonneg_right hm' hpos.le))
      (by positivity)
  have hle : e ≤ e' := by
    have := (zpow_lt_zpow_iff_right₀ one_lt_two).mp hlt
    omega
  obtain ⟨j, rfl⟩ := Int.le.dest hle
  refine ⟨m * 2 ^ j, ?_⟩
  push_cast
  rw [zpow_add₀ two_ne_zero, zpow_natCast]
  ring

theorem IsFloat.le_sub [NeZero p] (hs : IsFloat p s) (ht : IsFloat p t) (hpos : 0 < t) (h : s < t) :
    s ≤ t - t / 2 ^ p := by
  obtain ⟨m, e, hlow, hhigh, rfl⟩ := ht.normal hpos
  have he : (0 : ℚ) < 2 ^ e := by positivity
  have hunit : (m : ℚ) * 2 ^ e / 2 ^ p ≤ 2 ^ e := by
    have : (m : ℚ) ≤ 2 ^ p := by exact_mod_cast hhigh
    rw [div_le_iff₀ (by positivity), mul_comm (2 ^ e : ℚ)]
    exact mul_le_mul_of_nonneg_right this he.le
  suffices s ≤ m * 2 ^ e - 2 ^ e by linarith
  by_contra! hgt
  have hm : (2 : ℚ) ^ p ≤ 2 * (m - 1) := by
    have hodd : (2 : ℤ) ^ p ≤ 2 * (m - 1) := by
      obtain ⟨q, rfl⟩ := Nat.exists_eq_succ_of_ne_zero (NeZero.ne p)
      rw [Nat.succ_eq_add_one, pow_succ] at hlow ⊢
      omega
    exact_mod_cast hodd
  have hbig : (2 : ℚ) ^ p * 2 ^ (e - 1) < s := by
    rw [zpow_sub_one₀ two_ne_zero]
    have := mul_le_mul_of_nonneg_right hm he.le
    linarith
  obtain ⟨n, rfl⟩ := hs.grid (hbig.trans_le (le_abs_self s))
  have h₁ : (n : ℚ) < m := lt_of_mul_lt_mul_right h he.le
  have h₂ : (m : ℚ) - 1 < n := lt_of_mul_lt_mul_right (by linarith) he.le
  have h₁' : n < m := by exact_mod_cast h₁
  have h₂' : m - 1 < n := by exact_mod_cast h₂
  omega

theorem IsFloat.sub_int (h : IsFloat p x) {n : ℤ} (hx : |x - n| ≤ |x|) (hp : |x - n| ≤ 2 ^ p) :
    IsFloat p (x - n) := by
  obtain ⟨m, e, hm, rfl⟩ := h
  rcases le_or_gt 0 e with he | he
  · obtain ⟨j, rfl⟩ := Int.eq_ofNat_of_zero_le he
    have hint : (m : ℚ) * 2 ^ (j : ℤ) - n = (m * 2 ^ j - n : ℤ) := by
      push_cast
      rw [zpow_natCast]
    rw [hint] at hp ⊢
    exact isFloat_int (by exact_mod_cast hp)
  · obtain ⟨j, hj⟩ := Int.eq_ofNat_of_zero_le (Int.neg_nonneg_of_nonpos he.le)
    obtain rfl : e = -j := by omega
    have hpos : (0 : ℚ) < 2 ^ (-j : ℤ) := by positivity
    have hint : (m : ℚ) * 2 ^ (-j : ℤ) - n = (m - n * 2 ^ j : ℤ) * 2 ^ (-j : ℤ) := by
      push_cast
      rw [zpow_neg, zpow_natCast]
      field_simp
    rw [hint] at hx ⊢
    refine ⟨_, _, ?_, rfl⟩
    rw [abs_mul, abs_mul] at hx
    have hle : |((m - n * 2 ^ j : ℤ) : ℚ)| ≤ |(m : ℚ)| :=
      le_of_mul_le_mul_right hx (abs_pos.mpr hpos.ne')
    exact le_trans (by exact_mod_cast hle) hm

/-- Rounding to the nearest float, with any rule for the ties. -/
structure Rounding (p : ℕ) where
  toFun : ℚ → ℚ
  isFloat : ∀ x, IsFloat p (toFun x)
  nearest : ∀ x f, IsFloat p f → |toFun x - x| ≤ |f - x|

namespace Rounding

instance : CoeFun (Rounding p) fun _ ↦ ℚ → ℚ := ⟨toFun⟩

variable (R : Rounding p)

theorem self (h : IsFloat p x) : R x = x := by
  have := R.nearest x x h
  rw [sub_self, abs_zero] at this
  exact sub_eq_zero.mp (abs_nonpos_iff.mp this)

theorem zero : R 0 = 0 := R.self isFloat_zero

theorem int {n : ℤ} (h : |n| ≤ 2 ^ p) : R n = n := R.self (isFloat_int h)

theorem mono (h : x ≤ y) : R x ≤ R y := by
  by_contra! hlt
  have hx := R.nearest x (R y) (R.isFloat y)
  have hy := R.nearest y (R x) (R.isFloat x)
  rcases h.eq_or_lt with rfl | h
  · exact hlt.false
  · rcases abs_cases (R x - x) with h₁ | h₁ <;> rcases abs_cases (R y - x) with h₂ | h₂ <;>
      rcases abs_cases (R x - y) with h₃ | h₃ <;> rcases abs_cases (R y - y) with h₄ | h₄ <;> linarith

theorem le (hy : IsFloat p y) (h : x ≤ y) : R x ≤ y := R.self hy ▸ R.mono h

theorem ge (hy : IsFloat p y) (h : y ≤ x) : y ≤ R x := R.self hy ▸ R.mono h

theorem abs_round_le (hy : IsFloat p y) (h : |x| ≤ y) : |R x| ≤ y := by
  obtain ⟨h₁, h₂⟩ := abs_le.mp h
  exact abs_le.mpr ⟨R.ge hy.neg h₁, R.le hy h₂⟩

theorem le_abs_round (hy : IsFloat p y) (h : y ≤ |x|) : y ≤ |R x| := by
  rcases abs_cases x with ⟨hx, -⟩ | ⟨hx, -⟩
  · exact (R.ge hy (hx ▸ h)).trans (le_abs_self (R x))
  · have := R.le hy.neg (show x ≤ -y by linarith)
    linarith [neg_le_abs (R x)]

/-- Where all multiples of a unit are floats, rounding moves by no more than half of it. -/
theorem near (h : |x| ≤ 2 ^ p * 2 ^ e) : |R x - x| ≤ 2 ^ e / 2 := by
  have he : (0 : ℚ) < 2 ^ e := by positivity
  have hq : |x / 2 ^ e| ≤ 2 ^ p := by rwa [abs_div, abs_of_pos he, div_le_iff₀ he]
  have hround := abs_sub_round (x / 2 ^ e)
  have hn : |round (x / 2 ^ e)| ≤ 2 ^ p := by
    have hlt : |((round (x / 2 ^ e) : ℤ) : ℚ)| < ((2 ^ p + 1 : ℤ) : ℚ) := by
      have := abs_sub_abs_le_abs_sub ((round (x / 2 ^ e) : ℤ) : ℚ) (x / 2 ^ e)
      rw [abs_sub_comm] at hround
      push_cast
      linarith
    rw [← Int.cast_abs] at hlt
    exact Int.lt_add_one_iff.mp (by exact_mod_cast hlt)
  refine (R.nearest x _ ⟨_, e, hn, rfl⟩).trans ?_
  have := mul_le_mul_of_nonneg_right hround he.le
  rw [abs_sub_comm, ← abs_of_pos he, ← abs_mul, sub_mul, abs_of_pos he,
    div_mul_cancel₀ x he.ne'] at this
  linarith

theorem sub_le (hy : IsFloat p y) : |R x - y| ≤ 2 * |x - y| := by
  have h₁ := R.nearest x y hy
  have h₂ := abs_sub_le (R x) x y
  rw [abs_sub_comm y x] at h₁
  linarith

def neg : Rounding p where
  toFun x := -R (-x)
  isFloat x := (R.isFloat (-x)).neg
  nearest x f hf := by
    have h := R.nearest (-x) (-f) hf.neg
    rw [← abs_neg, ← abs_neg (-f - -x)] at h
    convert h using 2 <;> ring

theorem neg_apply (x : ℚ) : R.neg x = -R (-x) := rfl

theorem lt_of_le_sub (hk : IsFloat p k) (hpos : 0 < k) (h : y ≤ k - k / 2 ^ p) : R y < k := by
  have hgap : 0 < k / 2 ^ p := by positivity
  refine (R.le hk (by linarith)).lt_of_ne fun he ↦ ?_
  obtain ⟨m, e, hlow, hhigh, rfl⟩ := hk.normal hpos
  have hunit : (0 : ℚ) < 2 ^ e := by positivity
  -- The float before `k` is nearer.
  have hm : 0 < m := by
    have := Int.pow_pos (n := 2) (by decide) (m := p)
    omega
  have hfloat : IsFloat p ((m - 1 : ℤ) * 2 ^ e) := by
    refine ⟨m - 1, e, ?_, rfl⟩
    rw [abs_of_nonneg (by omega)]
    omega
  have hnear := R.nearest y _ hfloat
  have hhalf : (2 : ℚ) ^ e < 2 * (m * 2 ^ e / 2 ^ p) := by
    have : (2 : ℚ) ^ p < 2 * m := by exact_mod_cast hlow
    rw [← mul_div_assoc, lt_div_iff₀ (by positivity), ← mul_assoc, mul_comm (2 ^ e : ℚ)]
    exact mul_lt_mul_of_pos_right this hunit
  rw [he] at hnear
  push_cast at hnear
  rcases abs_cases ((m : ℚ) * 2 ^ e - y) with h₁ | h₁ <;>
    rcases abs_cases (((m : ℚ) - 1) * 2 ^ e - y) with h₂ | h₂ <;> linarith

theorem div_lt [NeZero p] (hs : IsFloat p s) (hk : IsFloat p k) (hkc : IsFloat p (k * c)) (hpos : 0 < k)
    (hc : 0 < c) (h : s < k * c) : R (s / c) < k := by
  refine R.lt_of_le_sub hk hpos ?_
  have := hs.le_sub hkc (mul_pos hpos hc) h
  rw [div_le_iff₀ hc]
  calc s ≤ k * c - k * c / 2 ^ p := this
    _ = (k - k / 2 ^ p) * c := by ring

theorem mul_lt [NeZero p] (hs : IsFloat p s) (hk : IsFloat p k) (hck : IsFloat p (c * k)) (hpos : 0 < k)
    (hc : 0 < c) (h : s < k) : R (c * s) < c * k := by
  refine R.lt_of_le_sub hck (mul_pos hc hpos) ?_
  have := mul_le_mul_of_nonneg_left (hs.le_sub hk hpos h) hc.le
  calc c * s ≤ c * (k - k / 2 ^ p) := this
    _ = c * k - c * k / 2 ^ p := by ring

/-- Multiplied by `c`, divided by `d` and rounded twice, a float still lies on the
same side of `k`. -/
theorem mul_div_lt_iff [NeZero p] {d : ℚ} (hs : IsFloat p s) (hk : IsFloat p k) (hc : 0 < c) (hd : 0 < d)
    (hpos : 0 < k) (hkd : IsFloat p (k * d)) (hckd : IsFloat p (k * (c * d))) :
    R (R (c * s) / (c * d)) < k ↔ s < k * d := by
  have hcomm : c * (k * d) = k * (c * d) := by ring
  constructor
  · intro h
    by_contra! hle
    have h₁ : k * (c * d) ≤ R (c * s) :=
      R.ge hckd (hcomm ▸ mul_le_mul_of_nonneg_left hle hc.le)
    exact h.not_ge (R.ge hk ((le_div_iff₀ (mul_pos hc hd)).mpr h₁))
  · intro h
    have h₁ : R (c * s) < k * (c * d) :=
      hcomm ▸ R.mul_lt hs hkd (hcomm ▸ hckd) (mul_pos hpos hd) hc h
    exact R.div_lt (R.isFloat _) hk hckd hpos (mul_pos hc hd) h₁

theorem lt_mul_div_iff [NeZero p] {d : ℚ} (hs : IsFloat p s) (hk : IsFloat p k) (hc : 0 < c) (hd : 0 < d)
    (hpos : 0 < k) (hkd : IsFloat p (k * d)) (hckd : IsFloat p (k * (c * d))) :
    -k < R (R (c * s) / (c * d)) ↔ -(k * d) < s := by
  have h := R.neg.mul_div_lt_iff hs.neg hk hc hd hpos hkd hckd
  simp only [neg_apply, mul_neg, neg_div, neg_neg] at h
  rw [neg_lt, h, neg_lt]

end Rounding

/-! The rounding of the usual arithmetic, without limits for the exponent. -/

def roundEven (x : ℚ) : ℤ :=
  if 2 * (x - ⌊x⌋) < 1 ∨ 2 * (x - ⌊x⌋) = 1 ∧ 2 ∣ ⌊x⌋ then ⌊x⌋ else ⌊x⌋ + 1

theorem roundEven_nearest (x : ℚ) (n : ℤ) : |roundEven x - x| ≤ |n - x| := by
  have h₁ := Int.floor_le x
  have h₂ := Int.lt_floor_add_one x
  have hn : (n : ℚ) ≤ ⌊x⌋ ∨ (⌊x⌋ : ℚ) + 1 ≤ n := by
    rcases lt_or_ge ⌊x⌋ n with h | h
    · exact .inr (by exact_mod_cast h)
    · exact .inl (by exact_mod_cast h)
  unfold roundEven
  split_ifs with h
  · have h : 2 * (x - ⌊x⌋) ≤ 1 := h.elim le_of_lt fun h ↦ h.1.le
    rcases abs_cases ((⌊x⌋ : ℚ) - x) with h₃ | h₃ <;> rcases abs_cases (n - x) with h₄ | h₄ <;>
      rcases hn with hn | hn <;> linarith
  · have h : 1 ≤ 2 * (x - ⌊x⌋) := not_lt.mp fun hlt ↦ h (.inl hlt)
    push_cast
    rcases abs_cases ((⌊x⌋ : ℚ) + 1 - x) with h₃ | h₃ <;> rcases abs_cases (n - x) with h₄ | h₄ <;>
      rcases hn with hn | hn <;> linarith

/-- The exponent with which a number has `p` digits in front of the point. -/
def exponent (p : ℕ) (x : ℚ) : ℤ :=
  let e : ℤ := x.num.natAbs.log2 - x.den.log2 - p
  if |x| < 2 ^ p * 2 ^ e then e else e + 1

theorem exponent_spec (p : ℕ) (hx : x ≠ 0) :
    2 ^ p * 2 ^ exponent p x ≤ 2 * |x| ∧ |x| < 2 ^ p * 2 ^ exponent p x := by
  have hn : x.num.natAbs ≠ 0 := Int.natAbs_ne_zero.mpr (Rat.num_ne_zero.mpr hx)
  have habs : |x| = (x.num.natAbs : ℚ) / x.den := by
    conv_lhs => rw [← Rat.num_div_den x]
    rw [abs_div, Nat.abs_cast, Nat.cast_natAbs, Int.cast_abs]
  have hden : (0 : ℚ) < x.den := by exact_mod_cast x.pos
  have h₁ : (2 : ℚ) ^ x.num.natAbs.log2 ≤ x.num.natAbs := by exact_mod_cast Nat.log2_self_le hn
  have h₂ : (x.num.natAbs : ℚ) < 2 ^ (x.num.natAbs.log2 + 1) := by
    exact_mod_cast Nat.lt_log2_self
  have h₃ : (2 : ℚ) ^ x.den.log2 ≤ x.den := by exact_mod_cast Nat.log2_self_le x.den_nz
  have h₄ : (x.den : ℚ) < 2 ^ (x.den.log2 + 1) := by exact_mod_cast Nat.lt_log2_self
  have hunit : (2 : ℚ) ^ p * 2 ^ ((x.num.natAbs.log2 : ℤ) - x.den.log2 - p) =
      2 ^ x.num.natAbs.log2 / 2 ^ x.den.log2 := by
    rw [zpow_sub₀ two_ne_zero, zpow_sub₀ two_ne_zero, zpow_natCast, zpow_natCast, zpow_natCast]
    field_simp
  rw [pow_succ] at h₂ h₄
  have hlow : (2 : ℚ) ^ x.num.natAbs.log2 / 2 ^ x.den.log2 ≤ 2 * |x| := by
    rw [habs, mul_div_assoc', div_le_div_iff₀ (by positivity) hden]
    nlinarith [mul_le_mul h₁ h₄.le hden.le (by positivity)]
  have hhigh : |x| < 2 * ((2 : ℚ) ^ x.num.natAbs.log2 / 2 ^ x.den.log2) := by
    rw [habs, mul_div_assoc', div_lt_div_iff₀ hden (by positivity)]
    nlinarith [mul_lt_mul h₂ h₃ (by positivity) (by positivity)]
  unfold exponent
  dsimp only
  split_ifs with h
  · rw [hunit] at h ⊢
    exact ⟨hlow, h⟩
  · rw [hunit, not_lt] at h
    rw [zpow_add_one₀ two_ne_zero, ← mul_assoc, hunit]
    constructor <;> linarith

def roundFloat (p : ℕ) (x : ℚ) : ℚ :=
  if x = 0 then 0 else roundEven (x / 2 ^ exponent p x) * 2 ^ exponent p x

theorem roundFloat_isFloat (p : ℕ) (x : ℚ) : IsFloat p (roundFloat p x) := by
  unfold roundFloat
  split_ifs with hx
  · exact isFloat_zero
  · refine ⟨_, _, ?_, rfl⟩
    have hpos : (0 : ℚ) < 2 ^ exponent p x := by positivity
    have hlt : |x / 2 ^ exponent p x| < 2 ^ p := by
      rw [abs_div, abs_of_pos hpos, div_lt_iff₀ hpos]
      exact (exponent_spec p hx).2
    generalize x / 2 ^ exponent p x = q at hlt
    have h₁ := roundEven_nearest q (2 ^ p)
    have h₂ := roundEven_nearest q (-2 ^ p)
    push_cast at h₁ h₂
    obtain ⟨h₃, h₄⟩ := abs_lt.mp hlt
    have : |(roundEven q : ℚ)| ≤ 2 ^ p := by
      rw [abs_of_nonneg (show 0 ≤ 2 ^ p - q by linarith)] at h₁
      rw [abs_of_nonpos (show -2 ^ p - q ≤ 0 by linarith)] at h₂
      rw [abs_le] at h₁ h₂ ⊢
      constructor <;> linarith
    exact_mod_cast this

theorem roundFloat_nearest [NeZero p] (x f : ℚ) (hf : IsFloat p f) :
    |roundFloat p x - x| ≤ |f - x| := by
  unfold roundFloat
  split_ifs with hx
  · simp [hx]
  have hpos : (0 : ℚ) < 2 ^ exponent p x := by positivity
  have hgrid (n : ℤ) : |(roundEven (x / 2 ^ exponent p x) : ℚ) * 2 ^ exponent p x - x| ≤
      |n * 2 ^ exponent p x - x| := by
    have h := mul_le_mul_of_nonneg_right (roundEven_nearest (x / 2 ^ exponent p x) n) hpos.le
    rwa [← abs_of_pos hpos, ← abs_mul, ← abs_mul, abs_of_pos hpos, sub_mul, sub_mul,
      div_mul_cancel₀ x hpos.ne'] at h
  by_cases hbig : 2 ^ p * 2 ^ (exponent p x - 1) < |f|
  · obtain ⟨n, rfl⟩ := hf.grid hbig
    exact hgrid n
  · -- A float off the grid is smaller than `x`, and not nearer than the first number on it.
    obtain ⟨q, rfl⟩ := Nat.exists_eq_succ_of_ne_zero (NeZero.ne p)
    have hlow := (exponent_spec (q + 1) hx).1
    rw [zpow_sub_one₀ two_ne_zero] at hbig
    rw [pow_succ] at hlow hbig
    have hf' := abs_nonneg f
    rcases lt_or_gt_of_ne hx with hneg | hpos'
    · refine (hgrid (-2 ^ q)).trans ?_
      push_cast
      rw [abs_of_neg hneg] at hlow
      have := neg_abs_le f
      rw [abs_of_nonneg (by linarith), abs_of_nonneg (by linarith)]
      linarith
    · refine (hgrid (2 ^ q)).trans ?_
      push_cast
      rw [abs_of_pos hpos'] at hlow
      have := le_abs_self f
      rw [abs_of_nonpos (by linarith), abs_of_nonpos (by linarith)]
      linarith

def double : Rounding 53 := ⟨roundFloat 53, roundFloat_isFloat 53, roundFloat_nearest⟩

end LibMicro.FloatingPoint
