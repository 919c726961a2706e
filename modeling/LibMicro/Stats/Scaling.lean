import Mathlib.Algebra.Order.Floor.Semiring
import Mathlib.Data.Nat.Log
import Mathlib.Tactic.FieldSimp
import LibMicro.Stats.Model

namespace LibMicro.Stats

open Truncation

variable {x d p95 s : ℚ} {a : ℤ} {sc : Scale}

/-- The loop ends with the number of digits in front of the last one. -/
theorem scaleDown_eq (fuel : ℕ) (x : ℚ) (i : ℕ) (h : x < 10 ^ (fuel + 1)) :
    ∃ k, scaleDown fuel x i = (x / 10 ^ k, i + k) ∧ x / 10 ^ k < 10 ∧ (k = 0 ∨ 10 ^ k ≤ x) := by
  induction fuel generalizing x i with
  | zero => exact ⟨0, by simp [scaleDown], by simpa using h, .inl rfl⟩
  | succ fuel ih =>
    rw [scaleDown]
    split_ifs with hx
    · obtain ⟨k, he, hlt, hk⟩ := ih (x / 10) (i + 1) (by rwa [div_lt_iff₀ (by norm_num), ← pow_succ])
      have hpow : x / 10 / 10 ^ k = x / 10 ^ (k + 1) := by rw [div_div, ← pow_succ']
      rw [hpow] at he hlt
      refine ⟨k + 1, he.trans (by rw [Nat.add_assoc, Nat.add_comm 1 k]), hlt, .inr ?_⟩
      rcases hk with rfl | hk
      · simpa using hx
      · rw [pow_succ]
        linarith
    · exact ⟨0, by simp, by simpa using hx, .inl rfl⟩

theorem lt_pow_floor (x : ℚ) : x < 10 ^ (⌊x⌋₊ + 1) := by
  have h₁ : x < ((⌊x⌋₊ + 1 : ℕ) : ℚ) := by exact_mod_cast Nat.lt_floor_add_one x
  have h₂ : ⌊x⌋₊ + 1 < 10 ^ (⌊x⌋₊ + 1) := Nat.lt_pow_self (by norm_num)
  exact h₁.trans (by exact_mod_cast h₂)

theorem scaleDown_floor (x : ℚ) :
    scaleDown ⌊x⌋₊ x 0 = (x / 10 ^ Nat.log 10 ⌊x⌋₊, Nat.log 10 ⌊x⌋₊) ∧
      x / 10 ^ Nat.log 10 ⌊x⌋₊ < 10 := by
  obtain ⟨k, he, hlt, hk⟩ := scaleDown_eq ⌊x⌋₊ x 0 (lt_pow_floor x)
  rw [Nat.zero_add] at he
  have hlog : Nat.log 10 ⌊x⌋₊ = k := by
    rw [div_lt_iff₀ (by positivity), ← pow_succ'] at hlt
    rcases Nat.eq_zero_or_pos k with rfl | hpos
    · rw [Nat.log_eq_zero_iff]
      left
      exact (Nat.floor_lt' (by norm_num)).mpr (by simpa using hlt)
    · have hk := hk.resolve_left hpos.ne'
      rw [Nat.log_eq_iff (.inl hpos.ne')]
      constructor
      · exact Nat.le_floor (by exact_mod_cast hk)
      · exact (Nat.floor_lt' (by positivity)).mpr (by exact_mod_cast hlt)
  rw [hlog]
  exact ⟨he, hlt⟩

theorem scaleUp_eq (i : ℕ) (y : ℤ) : scaleUp i y = y * 10 ^ i := by
  induction i generalizing y with
  | zero => simp [scaleUp]
  | succ i ih => rw [scaleUp, ih, mul_assoc, ← pow_succ']

/-- The exponent of the decimal digit that the width of the buckets ends in. -/
def digit (s : ℚ) : ℕ := Nat.log 10 ⌊s / 31⌋₊

/-- A range divided by 31 and rounded up to one decimal digit. What is beyond the
digit by less than `10 ^ (-10)` of it is lost. -/
def bucketWidth (s : ℚ) : ℤ := ⌊s / 31 / 10 ^ digit s + 9999999999 / 10000000000⌋ * 10 ^ digit s

theorem width_eq {m : ℤ} (h : 0 ≤ p95 - m + 1) : width m p95 = bucketWidth (p95 - m + 1) := by
  have hx : ((histosize : ℚ) - 1) = 31 := by norm_num [histosize]
  have hpos : 0 ≤ (p95 - m + 1) / 31 / 10 ^ digit (p95 - m + 1) + 9999999999 / 10000000000 := by
    positivity
  simp only [width, hx, (scaleDown_floor _).1, scaleUp_eq]
  rw [← digit, trunc_of_nonneg hpos, bucketWidth]

theorem bucketWidth_nonneg (h : 0 ≤ s) : 0 ≤ bucketWidth s := by
  have : 0 ≤ ⌊s / 31 / 10 ^ digit s + 9999999999 / 10000000000⌋ := Int.floor_nonneg.mpr (by positivity)
  unfold bucketWidth
  positivity

theorem bucketWidth_eq_zero (h : bucketWidth s = 0) : s < 31 / 10000000000 := by
  have hfloor : ⌊s / 31 / 10 ^ digit s + 9999999999 / 10000000000⌋ = 0 :=
    (mul_eq_zero.mp h).resolve_right (by positivity)
  have hlt := (Int.floor_eq_zero_iff.mp hfloor).2
  have hsmall : s / 31 / 10 ^ digit s < 1 / 10000000000 := by linarith
  rcases Nat.eq_zero_or_pos ⌊s / 31⌋₊ with h₀ | hpos
  · rw [digit, h₀, Nat.log_zero_right, pow_zero, div_one] at hsmall
    linarith
  · have hpow : (10 : ℚ) ^ digit s ≤ s / 31 :=
      (show (10 : ℚ) ^ digit s ≤ ⌊s / 31⌋₊ by
        exact_mod_cast Nat.pow_log_le_self 10 hpos.ne').trans (Nat.floor_le (Nat.pos_of_floor_pos hpos).le)
    have := (one_le_div (by positivity)).mpr hpow
    linarith

theorem lt_bucketWidth (s : ℚ) : s < 31 * (bucketWidth s + 10 ^ digit s / 10000000000) := by
  have h := Int.lt_floor_add_one (s / 31 / 10 ^ digit s + 9999999999 / 10000000000)
  have hpos : (0 : ℚ) < 10 ^ digit s := by positivity
  have h' : s / 31 / 10 ^ digit s <
      ⌊s / 31 / 10 ^ digit s + 9999999999 / 10000000000⌋ + 1 / 10000000000 := by linarith
  rw [div_lt_iff₀ hpos, div_lt_iff₀ (by norm_num)] at h'
  unfold bucketWidth
  push_cast
  linarith

theorem lt_bucketWidth_of_lt (h : s < 31 * 10 ^ 9) : s < 31 * bucketWidth s + 31 / 100 := by
  have hdigit : digit s ≤ 8 := by
    rw [digit, ← Nat.lt_succ_iff]
    rcases Nat.eq_zero_or_pos ⌊s / 31⌋₊ with h₀ | hpos
    · rw [h₀, Nat.log_zero_right]
      norm_num
    · refine Nat.log_lt_of_lt_pow hpos.ne' ((Nat.floor_lt' (by norm_num)).mpr ?_)
      rw [div_lt_iff₀ (by norm_num)]
      push_cast
      linarith
  have hpow : (10 : ℚ) ^ digit s ≤ 10 ^ 8 := pow_le_pow_right₀ (by norm_num) hdigit
  have := lt_bucketWidth s
  linarith

def start (d : ℚ) : ℤ := trunc (d + 1 / 1000000)

theorem start_of_nonneg (h : 0 ≤ a) : start (a / 1000) = a / 1000 := by
  have hq : (a : ℚ) / 1000 + 1 / 1000000 = ((1000 * a + 1 : ℤ) : ℚ) / (1000000 : ℕ) := by
    push_cast
    ring
  have hpos : (0 : ℚ) ≤ (a : ℚ) / 1000 + 1 / 1000000 := by positivity
  rw [start, trunc_of_nonneg hpos, hq, Rat.floor_intCast_div_natCast]
  omega

theorem start_le (h : 0 ≤ a) : (start (a / 1000) : ℚ) ≤ a / 1000 := by
  have : a / 1000 * 1000 ≤ a := Int.ediv_mul_le a (by norm_num)
  rw [start_of_nonneg h, le_div_iff₀ (by norm_num)]
  exact_mod_cast this

theorem start_of_neg (h : a < 0) : start (a / 1000) = -((-a - 1) / 1000) := by
  have hq : -((a : ℚ) / 1000 + 1 / 1000000) = ((-(1000 * a + 1) : ℤ) : ℚ) / (1000000 : ℕ) := by
    push_cast
    ring
  have hneg : (a : ℚ) / 1000 + 1 / 1000000 ≤ 0 := by
    have : (a : ℚ) ≤ -1 := by exact_mod_cast Int.le_sub_one_of_lt h
    linarith
  rw [start, trunc_of_nonpos hneg, ← neg_neg ⌈(a : ℚ) / 1000 + 1 / 1000000⌉, ← Int.floor_neg, hq,
    Rat.floor_intCast_div_natCast]
  omega

theorem range_nonneg (h : a / 1000 ≤ p95) : 0 ≤ p95 - start (a / 1000) + 1 := by
  have hstart : start (a / 1000) * 1000 ≤ a + 1000 := by
    rcases le_or_gt 0 a with ha | ha
    · rw [start_of_nonneg ha]
      omega
    · rw [start_of_neg ha]
      omega
  have : (start (a / 1000) : ℚ) * 1000 ≤ a + 1000 := by exact_mod_cast hstart
  linarith

/-- A scale as it comes out for the least sample `d` and the percentile `p95`. -/
structure Scaled (d p95 : ℚ) (sc : Scale) : Prop where
  y : sc.y = bucketWidth (p95 - start d + 1)
  pos : 1 ≤ sc.y
  min : sc.min = (start d).tdiv sc.y * sc.y
  scale : sc.scale = 31 * sc.y

theorem findScale_cases (h : 0 ≤ p95 - start d + 1) :
    (bucketWidth (p95 - start d + 1) = 0 ∧ findScale d p95 = .error .divide) ∨
      ∃ sc, findScale d p95 = .ok sc ∧ Scaled d p95 sc := by
  have hw := width_eq h
  have h₀ := bucketWidth_nonneg h
  rcases h₀.eq_or_lt with hzero | hpos
  · exact .inl ⟨hzero.symm, if_pos (hw.trans hzero.symm)⟩
  · refine .inr ⟨_, if_neg (hw.trans_ne hpos.ne'), hw, ?_, rfl, ?_⟩
    · exact hw ▸ hpos
    · rw [← hw] at hpos
      refine (if_neg ?_).trans ?_
      all_goals
        change 0 < width (trunc (d + 1 / 1000000)) p95 at hpos
        simp only [histosize]
        omega

namespace Scaled

theorem quotient (h : Scaled d p95 sc) (x : ℚ) : sc.quotient x = trunc ((x - sc.min) / sc.y) := by
  have hy : (sc.y : ℚ) ≠ 0 := by exact_mod_cast (Int.lt_of_lt_of_le zero_lt_one h.pos).ne'
  rw [Scale.quotient, h.scale]
  congr 1
  norm_num [histosize]
  field_simp

theorem label (h : Scaled d p95 sc) (j : ℤ) : sc.label j = sc.min + sc.y * j := by
  rw [Scale.label, h.scale]
  norm_num [histosize]
  ring

theorem dvd (h : Scaled d p95 sc) : sc.y ∣ sc.min := ⟨_, h.min.trans (mul_comm _ _)⟩

theorem between (h : Scaled d p95 sc) (hx : sc.min ≤ x) :
    0 ≤ sc.quotient x ∧ sc.label (sc.quotient x) ≤ x ∧ x < sc.label (sc.quotient x + 1) := by
  have hy : (0 : ℚ) < sc.y := by exact_mod_cast Int.lt_of_lt_of_le zero_lt_one h.pos
  have hpos : 0 ≤ (x - sc.min) / sc.y := div_nonneg (sub_nonneg.mpr hx) hy.le
  rw [h.label, h.label, h.quotient, trunc_of_nonneg hpos]
  have h₁ := Int.floor_le ((x - sc.min) / sc.y)
  have h₂ := Int.lt_floor_add_one ((x - sc.min) / sc.y)
  rw [le_div_iff₀ hy] at h₁
  rw [div_lt_iff₀ hy] at h₂
  refine ⟨Int.floor_nonneg.mpr hpos, by linarith, ?_⟩
  push_cast
  linarith

theorem quotient_lt (h : Scaled d p95 sc) {n : ℤ} (hn : 0 < n) (hx : x < sc.min + n * sc.y) :
    sc.quotient x < n := by
  have hy : (0 : ℚ) < sc.y := by exact_mod_cast Int.lt_of_lt_of_le zero_lt_one h.pos
  have hlt : (x - sc.min) / sc.y < n := by
    rw [div_lt_iff₀ hy]
    linarith
  rw [h.quotient]
  rcases le_total 0 ((x - sc.min) / sc.y) with hpos | hneg
  · rw [trunc_of_nonneg hpos]
    exact Int.floor_lt.mpr hlt
  · rw [trunc_of_nonpos hneg]
    exact (Int.ceil_le.mpr (by exact_mod_cast hneg)).trans_lt hn

end Scaled

/-- The least sample is a negative whole number and a multiple of the width. -/
def Misplaced (d p95 : ℚ) : Prop := d < 0 ∧ d.den = 1 ∧ bucketWidth (p95 - d) ∣ d.num

instance (d p95 : ℚ) : Decidable (Misplaced d p95) := inferInstanceAs (Decidable (_ ∧ _))

theorem misplaced_iff :
    Misplaced d p95 ↔ ∃ k : ℤ, d = k ∧ k < 0 ∧ bucketWidth (p95 - d) ∣ k := by
  constructor
  · intro h
    have hd : d = d.num := (Rat.den_eq_one_iff d).mp h.2.1 |>.symm
    exact ⟨d.num, hd, Rat.num_neg.mpr h.1, h.2.2⟩
  · rintro ⟨k, rfl, hk, hdvd⟩
    exact ⟨by exact_mod_cast hk, Rat.den_intCast k, by rwa [Rat.num_intCast]⟩

namespace Scaled

theorem min_le_start (h : Scaled d p95 sc) (hd : 0 ≤ start d) : sc.min ≤ start d :=
  h.min ▸ tdiv_mul_le hd (Int.lt_of_lt_of_le zero_lt_one h.pos)

theorem min_le_of_nonneg (h : Scaled (a / 1000) p95 sc) (ha : 0 ≤ a) :
    (sc.min : ℚ) ≤ a / 1000 := by
  have hstart : 0 ≤ start (a / 1000) := start_of_nonneg ha ▸ Int.ediv_nonneg ha (by norm_num)
  exact (show (sc.min : ℚ) ≤ start (a / 1000) by exact_mod_cast h.min_le_start hstart).trans
    (start_le ha)

theorem fits_of_nonneg (h : Scaled (a / 1000) p95 sc) (ha : 0 ≤ a)
    (hp : p95 - a / 1000 + 2 < 31 * 10 ^ 9) : p95 < sc.min + 32 * sc.y := by
  have hs := start_of_nonneg ha
  have hlt : (a : ℚ) / 1000 < start (a / 1000) + 1 := by
    have := Int.lt_ediv_add_one_mul_self a (show 0 < 1000 by norm_num)
    rw [hs, div_lt_iff₀ (by norm_num)]
    exact_mod_cast this
  have hround : (start (a / 1000) : ℚ) + 1 ≤ sc.min + sc.y := by
    have hstart : 0 ≤ start (a / 1000) := hs ▸ Int.ediv_nonneg ha (by norm_num)
    have := lt_tdiv_mul_add hstart (Int.lt_of_lt_of_le zero_lt_one h.pos)
    rw [← h.min] at this
    exact_mod_cast this
  have hwidth := lt_bucketWidth_of_lt (s := p95 - start (a / 1000) + 1) (by linarith)
  rw [← h.y] at hwidth
  linarith

theorem min_of_neg (h : Scaled (a / 1000) p95 sc) (ha : a < 0) :
    start (a / 1000) = -((-a - 1) / 1000) ∧ start (a / 1000) ≤ sc.min ∧
      sc.min < start (a / 1000) + sc.y := by
  have hs := start_of_neg ha
  have hpos := Int.lt_of_lt_of_le zero_lt_one h.pos
  have hle : start (a / 1000) ≤ 0 := by omega
  refine ⟨hs, ?_, ?_⟩
  · rw [h.min]
    exact le_tdiv_mul hle hpos
  · rw [h.min]
    exact tdiv_mul_lt_add hle hpos

/-- No sample is further below `min` than one bucket, and one is so far only where
the least sample is misplaced. -/
theorem min_sub_le (h : Scaled (a / 1000) p95 sc) :
    (sc.min : ℚ) - a / 1000 ≤ sc.y ∧
      ((sc.min : ℚ) - a / 1000 = sc.y ↔ Misplaced (a / 1000) p95) := by
  have hy : (1 : ℚ) ≤ sc.y := by exact_mod_cast h.pos
  rcases le_or_gt 0 a with ha | ha
  · have hmin := h.min_le_of_nonneg ha
    have hd : (0 : ℚ) ≤ a / 1000 := by positivity
    exact ⟨by linarith, iff_of_false (by linarith) fun hm ↦ hd.not_gt hm.1⟩
  · obtain ⟨hs, h₁, h₂⟩ := h.min_of_neg ha
    have hle : 1000 * sc.min - a ≤ 1000 * sc.y := by omega
    have hle' : 1000 * (sc.min : ℚ) - a ≤ 1000 * sc.y := by exact_mod_cast hle
    refine ⟨by linarith, ?_⟩
    rw [misplaced_iff]
    constructor
    · intro he
      have he' : 1000 * (sc.min : ℚ) - a = 1000 * sc.y := by linarith
      have heq : 1000 * sc.min - a = 1000 * sc.y := by exact_mod_cast he'
      have hstart : start (a / 1000) = sc.min - sc.y + 1 := by omega
      have hd : (a : ℚ) / 1000 = (sc.min - sc.y : ℤ) := by
        push_cast
        linarith
      refine ⟨sc.min - sc.y, hd, by omega, ?_⟩
      have hw : bucketWidth (p95 - a / 1000) = sc.y := by
        rw [h.y, hstart, hd]
        congr 1
        push_cast
        ring
      rw [hw]
      exact dvd_sub h.dvd dvd_rfl
    · rintro ⟨k, hk, hneg, hdvd⟩
      have hak : a = 1000 * k := by
        have : (a : ℚ) = 1000 * k := by linarith
        exact_mod_cast this
      have hstart : start (a / 1000) = k + 1 := by omega
      have hw : bucketWidth (p95 - a / 1000) = sc.y := by
        rw [h.y, hstart, hk]
        congr 1
        push_cast
        ring
      have hdvd' : sc.y ∣ sc.min - k := dvd_sub h.dvd (hw ▸ hdvd)
      have hge := Int.le_of_dvd (by omega) hdvd'
      have heq : sc.min - k = sc.y := by omega
      rw [hk]
      exact_mod_cast heq

theorem quotient_neg_iff (h : Scaled (a / 1000) p95 sc) (hx : a / 1000 ≤ x) :
    sc.quotient x < 0 ↔ x = a / 1000 ∧ Misplaced (a / 1000) p95 := by
  have hy : (0 : ℚ) < sc.y := by exact_mod_cast Int.lt_of_lt_of_le zero_lt_one h.pos
  obtain ⟨hle, heq⟩ := h.min_sub_le
  rw [← not_le, h.quotient, trunc_nonneg_iff, lt_div_iff₀ hy, not_lt, ← heq]
  constructor
  · intro hlt
    have hxd : x = a / 1000 := by linarith
    exact ⟨hxd, by linarith⟩
  · rintro ⟨rfl, he⟩
    linarith

end Scaled

end LibMicro.Stats
