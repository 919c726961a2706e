import LibMicro.FloatingPoint
import LibMicro.Stats.Histogram

namespace LibMicro.Stats.Rounded

open FloatingPoint Truncation

variable {R : Rounding 53} {d p x t : ℚ} {sc : Scale}

/-- What is known of a sample in microseconds: it is a double, less than three
hundred years, and not near to a whole number without being one. -/
structure Sample (x : ℚ) : Prop where
  isFloat : IsFloat 53 x
  bound : |x| ≤ 10 ^ 16
  gap : ∀ k : ℤ, x ≠ k → 1 / 2048 ≤ |x - k|

/-- From `2 ^ 53` on only every second number is a double. -/
theorem even_of_large (h : IsFloat 53 x) (hx : 2 ^ 53 < |x|) : ∃ n : ℤ, x = (2 * n : ℤ) := by
  obtain ⟨n, rfl⟩ := h.grid (e := 1) (by rwa [sub_self, zpow_zero, mul_one])
  exact ⟨n, by push_cast; ring⟩

theorem round_int (R : Rounding 53) (m : ℤ) : ∃ n : ℤ, R m = n := by
  rcases le_or_gt |m| (2 ^ 53) with h | h
  · exact ⟨m, R.int h⟩
  · have hlarge : (2 : ℚ) ^ 53 * 2 ^ (0 - 1 : ℤ) < |R m| := by
      have hm : (2 : ℚ) ^ 53 < |(m : ℚ)| := by exact_mod_cast h
      have := R.le_abs_round ⟨2 ^ 53, 0, by norm_num, by norm_num⟩ hm.le
      norm_num at this ⊢
      linarith
    obtain ⟨n, hn⟩ := (R.isFloat m).grid hlarge
    exact ⟨n, by rw [hn, zpow_zero, mul_one]⟩

theorem sample_usecs (R : Rounding 53) {a : ℤ} (ha : |a| ≤ 2 ^ 63) : Sample (R (R a / 1000)) := by
  obtain ⟨b, hb⟩ := round_int R a
  have hbound : |(b : ℚ)| ≤ 2 ^ 63 := by
    rw [← hb]
    exact R.abs_round_le ⟨1, 63, by norm_num, by norm_num⟩ (by exact_mod_cast ha)
  rw [hb]
  refine ⟨R.isFloat _, R.abs_round_le ⟨5 ^ 16, 16, by norm_num, by norm_num⟩ ?_, fun k hk ↦ ?_⟩
  · rw [abs_div, abs_of_pos (show (0 : ℚ) < 1000 by norm_num)]
    linarith
  rcases lt_or_ge (2 ^ 42) |R (b / 1000)| with hlarge | hsmall
  · -- Here the doubles are multiples of 1/1024.
    obtain ⟨n, hn⟩ := (R.isFloat (b / 1000)).grid (e := -10) (by norm_num; linarith)
    rw [hn] at hk ⊢
    have hne : n - 1024 * k ≠ 0 := fun h ↦ hk <| by
      obtain rfl : n = 1024 * k := by omega
      push_cast
      norm_num
      ring
    have habs : (1 : ℚ) ≤ |((n - 1024 * k : ℤ) : ℚ)| := by exact_mod_cast Int.one_le_abs hne
    have heq : (n : ℚ) * 2 ^ (-10 : ℤ) - k = ((n - 1024 * k : ℤ) : ℚ) * (1 / 1024) := by
      push_cast
      norm_num
      ring
    rw [heq, abs_mul]
    norm_num at habs ⊢
    linarith
  · -- Here they are so close to each other that rounding moves by less than half of 1/1000.
    have hbk : b - 1000 * k ≠ 0 := fun h ↦ hk <| by
      obtain rfl : b = 1000 * k := by omega
      have hk' : ((1000 * k : ℤ) : ℚ) / 1000 = k := by
        push_cast
        ring
      rw [hk'] at hsmall ⊢
      refine R.int ?_
      by_contra! hgt
      have hgt' : (2 : ℚ) ^ 43 ≤ |(k : ℚ)| :=
        le_trans (by norm_num) (show (2 : ℚ) ^ 53 < |(k : ℚ)| by exact_mod_cast hgt).le
      have := R.le_abs_round ⟨1, 43, by norm_num, by norm_num⟩ hgt'
      linarith
    have hdist : (1 : ℚ) / 1000 ≤ |(b : ℚ) / 1000 - k| := by
      have habs : (1 : ℚ) ≤ |((b - 1000 * k : ℤ) : ℚ)| := by exact_mod_cast Int.one_le_abs hbk
      have heq : (b : ℚ) / 1000 - k = ((b - 1000 * k : ℤ) : ℚ) * (1 / 1000) := by
        push_cast
        ring
      rw [heq, abs_mul]
      norm_num at habs ⊢
      linarith
    have hb43 : |(b : ℚ) / 1000| ≤ 2 ^ 53 * 2 ^ (-10 : ℤ) := by
      by_contra! hgt
      have := R.le_abs_round (y := 2 ^ 43) ⟨1, 43, by norm_num, by norm_num⟩
        (le_trans (by norm_num) hgt.le)
      linarith
    have hnear := R.near hb43
    have := abs_sub_le ((b : ℚ) / 1000) (R (b / 1000)) k
    rw [abs_sub_comm ((b : ℚ) / 1000) (R (b / 1000))] at this
    norm_num at hnear
    linarith

def start (rd : ℚ → ℚ) (d : ℚ) : ℤ := trunc (rd (d + rd (1 / 1000000)))

/-- The least sample is a negative whole number, and small enough to change when a
millionth is added. -/
def Lifted (rd : ℚ → ℚ) (d : ℚ) : Prop := d < 0 ∧ d.den = 1 ∧ rd (d + rd (1 / 1000000)) ≠ d

instance (rd : ℚ → ℚ) (d : ℚ) : Decidable (Lifted rd d) := inferInstanceAs (Decidable (_ ∧ _))

theorem whole_iff (d : ℚ) : d.den = 1 ↔ ∃ k : ℤ, d = k := by
  refine ⟨fun h ↦ ⟨d.num, ((Rat.den_eq_one_iff d).mp h).symm⟩, ?_⟩
  rintro ⟨k, rfl⟩
  exact Rat.den_intCast k

theorem added (h : Sample d) :
    d ≤ R (d + R (1 / 1000000)) ∧ R (d + R (1 / 1000000)) ≤ d + 1 / 4096 := by
  have hpos : 0 ≤ R (1 / 1000000) := R.ge isFloat_zero (by norm_num)
  have hle : R (1 / 1000000) ≤ 1 / 2 ^ 19 := R.le ⟨1, -19, by norm_num, by norm_num⟩ (by norm_num)
  refine ⟨R.ge h.isFloat (by linarith), ?_⟩
  have hsub := R.sub_le (x := d + R (1 / 1000000)) h.isFloat
  rw [add_sub_cancel_left, abs_of_nonneg hpos] at hsub
  have := le_abs_self (R (d + R (1 / 1000000)) - d)
  norm_num at hle ⊢
  linarith

theorem Sample.lt_int (h : Sample x) {k : ℤ} (hk : x < k) : x + 1 / 2048 ≤ k := by
  have hgap := h.gap k hk.ne
  rw [abs_of_neg (sub_neg_of_lt hk)] at hgap
  linarith

theorem start_of_nonneg (h : Sample d) (hd : 0 ≤ d) : start R d = ⌊d⌋ := by
  obtain ⟨hge, hle⟩ := added (R := R) h
  have hlt := h.lt_int (k := ⌊d⌋ + 1) (by push_cast; exact Int.lt_floor_add_one d)
  push_cast at hlt
  rw [start, trunc_of_nonneg (hd.trans hge), Int.floor_eq_iff]
  exact ⟨(Int.floor_le d).trans hge, by linarith⟩

/-- Below zero the first number is the next whole one, and for a whole sample it
may be the one after. -/
theorem start_of_neg (h : Sample d) (hd : d < 0) :
    start R d ≤ 0 ∧ d ≤ start R d ∧
      (Lifted R d → (start R d : ℚ) = d + 1) ∧ (¬ Lifted R d → (start R d : ℚ) < d + 1) := by
  obtain ⟨hge, hle⟩ := added (R := R) h
  have hneg : R (d + R (1 / 1000000)) ≤ 0 := by
    have := h.lt_int (k := 0) (by exact_mod_cast hd)
    push_cast at this
    linarith
  have hceil := Int.le_ceil (R (d + R (1 / 1000000)))
  have hlt := Int.ceil_lt_add_one (R (d + R (1 / 1000000)))
  rw [start, trunc_of_nonpos hneg]
  refine ⟨Int.ceil_le.mpr (by exact_mod_cast hneg), hge.trans hceil, ?_, fun hno ↦ ?_⟩
  · rintro ⟨-, hden, hne⟩
    obtain ⟨k, hk⟩ := (whole_iff d).mp hden
    have hgt : (k : ℚ) < ⌈R (d + R (1 / 1000000))⌉ :=
      hk ▸ (lt_of_le_of_ne hge hne.symm).trans_le hceil
    have h₁ : k < ⌈R (d + R (1 / 1000000))⌉ := by exact_mod_cast hgt
    have h₂ : ((⌈R (d + R (1 / 1000000))⌉ : ℤ) : ℚ) < ((k + 2 : ℤ) : ℚ) := by
      push_cast
      linarith
    have h₂ : ⌈R (d + R (1 / 1000000))⌉ < k + 2 := by exact_mod_cast h₂
    have : ⌈R (d + R (1 / 1000000))⌉ = k + 1 := by omega
    rw [this, hk]
    push_cast
    rfl
  · by_contra! hgt
    by_cases heq : d = ((⌈R (d + R (1 / 1000000))⌉ - 1 : ℤ) : ℚ)
    · have hsame : R (d + R (1 / 1000000)) = d := by
        by_contra hne
        exact hno ⟨hd, (whole_iff d).mpr ⟨_, heq⟩, hne⟩
      rw [hsame] at heq hgt
      have := Int.ceil_lt_add_one d
      linarith
    · have := h.lt_int (k := ⌈R (d + R (1 / 1000000))⌉ - 1)
        (lt_of_le_of_ne (by push_cast; linarith) heq)
      push_cast at this
      linarith

theorem start_of_large (h : Sample d) (hd : 2 ^ 53 < |d|) :
    (start R d : ℚ) = d ∧ ¬ Lifted R d := by
  obtain ⟨hge, hle⟩ := added (R := R) h
  obtain ⟨n, hn⟩ := even_of_large h.isFloat hd
  have hsame : R (d + R (1 / 1000000)) = d := by
    have hlarge : 2 ^ 53 < |R (d + R (1 / 1000000))| := by
      rcases abs_cases d with ⟨h₁, -⟩ | ⟨h₁, -⟩
      · exact (h₁ ▸ hd).trans_le (hge.trans (le_abs_self _))
      · have hint : (2 : ℤ) ^ 53 < -(2 * n) := by
          rw [h₁, hn] at hd
          exact_mod_cast hd
        have hnext : (2 : ℤ) ^ 53 + 1 ≤ -(2 * n) := by omega
        have hnext : (2 : ℚ) ^ 53 + 1 ≤ -d := by
          rw [hn]
          exact_mod_cast hnext
        exact lt_of_lt_of_le (by linarith) (neg_le_abs _)
    obtain ⟨n', hn'⟩ := even_of_large (R.isFloat _) hlarge
    rw [hn', hn] at hge hle
    have h₁ : 2 * n ≤ 2 * n' := by exact_mod_cast hge
    have h₂ : ((2 * n' : ℤ) : ℚ) < ((2 * n + 1 : ℤ) : ℚ) := by
      push_cast at hle ⊢
      linarith
    have h₂ : 2 * n' < 2 * n + 1 := by exact_mod_cast h₂
    obtain rfl : n' = n := by omega
    exact hn'.trans hn.symm
  refine ⟨?_, fun hl ↦ hl.2.2 hsame⟩
  rw [start, hsame, hn, trunc_int]

theorem start_isFloat (h : Sample d) : IsFloat 53 (start R d) := by
  rcases lt_or_ge (2 ^ 53) |d| with hlarge | hsmall
  · rw [(start_of_large h hlarge).1]
    exact h.isFloat
  · refine isFloat_int ?_
    obtain ⟨h₁, h₂⟩ := abs_le.mp hsmall
    rcases le_or_gt 0 d with hd | hd
    · rw [start_of_nonneg h hd, abs_of_nonneg (Int.floor_nonneg.mpr hd)]
      exact_mod_cast (Int.floor_le d).trans h₂
    · obtain ⟨hs, hge, -⟩ := start_of_neg (R := R) h hd
      rw [abs_of_nonpos hs, neg_le]
      exact_mod_cast h₁.trans hge

theorem start_le (h : Sample d) : (start R d : ℚ) ≤ d + 1 ∧
    ((start R d : ℚ) = d + 1 ↔ Lifted R d) := by
  rcases le_or_gt 0 d with hd | hd
  · have hle := Int.floor_le d
    rw [start_of_nonneg h hd]
    exact ⟨by linarith, iff_of_false (by linarith) fun hl ↦ hl.1.not_ge hd⟩
  · obtain ⟨-, -, hyes, hno⟩ := start_of_neg (R := R) h hd
    by_cases hl : Lifted R d
    · exact ⟨(hyes hl).le, iff_of_true (hyes hl) hl⟩
    · exact ⟨(hno hl).le, iff_of_false (hno hl).ne hl⟩

theorem abs_start_le (h : Sample d) : |(start R d : ℚ)| ≤ 10 ^ 16 := by
  obtain ⟨h₁, h₂⟩ := abs_le.mp h.bound
  rcases le_or_gt 0 d with hd | hd
  · have hle := Int.floor_le d
    rw [start_of_nonneg h hd, abs_of_nonneg (by exact_mod_cast Int.floor_nonneg.mpr hd)]
    linarith
  · obtain ⟨hs, hge, -⟩ := start_of_neg (R := R) h hd
    rw [abs_of_nonpos (by exact_mod_cast hs)]
    linarith

def range (rd : ℚ → ℚ) (min : ℤ) (p95 : ℚ) : ℚ := rd (rd (p95 - rd min) + 1)

theorem range_cases (hd : Sample d) (hp : Sample p) (hle : d ≤ p) :
    (Lifted R d ∧ p = d → range R (start R d) p = 0) ∧
      (¬ (Lifted R d ∧ p = d) → 1 / 2048 ≤ range R (start R d) p) ∧
      range R (start R d) p ≤ 3 * 10 ^ 16 := by
  obtain ⟨hmax, hiff⟩ := start_le (R := R) hd
  rw [range, R.self (start_isFloat hd)]
  refine ⟨?_, fun hno ↦ ?_, ?_⟩
  · rintro ⟨hl, rfl⟩
    have hone : R (-1) = -1 := R.self ⟨-1, 0, by norm_num, by norm_num⟩
    rw [hiff.mpr hl, sub_add_cancel_left, hone, neg_add_cancel, R.zero]
  · have hgap : p - start R d ≠ -1 := by
      intro he
      have hpd : p = d := by linarith
      exact hno ⟨hiff.mp (by linarith), hpd⟩
    have hlt : ((start R d - 1 : ℤ) : ℚ) < p := by
      push_cast
      exact lt_of_le_of_ne (by linarith) fun he ↦ hgap (by linarith)
    have habs := hp.gap _ hlt.ne'
    rw [abs_of_pos (sub_pos.mpr hlt)] at habs
    push_cast at habs
    have h₁ : -2047 / 2048 ≤ R (p - start R d) :=
      R.ge ⟨-2047, -11, by norm_num, by norm_num⟩ (by linarith)
    exact R.ge ⟨1, -11, by norm_num, by norm_num⟩ (by linarith)
  · have h₁ := (abs_le.mp hp.bound).2
    have h₂ := (abs_le.mp (abs_start_le (R := R) hd)).1
    have h₃ : R (p - start R d) ≤ 2 * 10 ^ 16 :=
      R.le ⟨2 * 5 ^ 16, 16, by norm_num, by norm_num⟩ (by linarith)
    exact R.le ⟨3 * 5 ^ 16, 16, by norm_num, by norm_num⟩ (by linarith)

theorem isFloat_pow {n : ℕ} (hn : n ≤ 22) : IsFloat 53 (10 ^ n) := by
  refine ⟨5 ^ n, n, ?_, ?_⟩
  · rw [abs_of_nonneg (by positivity)]
    exact (pow_le_pow_right₀ (by norm_num) hn).trans (by norm_num)
  · push_cast
    rw [zpow_natCast, ← mul_pow]
    norm_num

/-- The loop ends below ten, and if it has run at all not below one. -/
theorem scaleDown_spec (fuel n : ℕ) (x : ℚ) (i : ℕ) (hx : IsFloat 53 x) (h₀ : 0 ≤ x)
    (hfuel : x < fuel + 10) (hn : n ≤ 21) (hlt : x < 10 ^ (n + 1)) :
    ∃ k ≤ n, ∃ x', scaleDown R fuel x i = (x', i + k) ∧ 0 ≤ x' ∧ x' < 10 ∧ (x' = x ∨ 1 ≤ x') := by
  induction fuel generalizing n x i with
  | zero => exact ⟨0, Nat.zero_le n, x, rfl, h₀, by simpa using hfuel, .inl rfl⟩
  | succ fuel ih =>
    rw [scaleDown]
    split_ifs with h10
    · obtain ⟨m, rfl⟩ : ∃ m, n = m + 1 := Nat.exists_eq_succ_of_ne_zero <| by
        rintro rfl
        exact hlt.not_ge (by simpa using h10)
      have hone : 1 ≤ R (x / 10) := R.ge ⟨1, 0, by norm_num, by norm_num⟩ (by linarith)
      have hless : R (x / 10) < 10 ^ (m + 1) :=
        R.div_lt hx (isFloat_pow (by omega)) (pow_succ (10 : ℚ) (m + 1) ▸ isFloat_pow (by omega))
          (by positivity) (by norm_num) (by rwa [← pow_succ])
      have hfifth : R (x / 10) ≤ x / 5 := by
        have hsub := R.sub_le (x := x / 10) isFloat_zero
        rw [sub_zero, sub_zero, abs_of_nonneg (div_nonneg h₀ (by norm_num))] at hsub
        linarith [le_abs_self (R (x / 10))]
      push_cast at hfuel
      obtain ⟨k, hk, x', he, hx₀, hx', hor⟩ := ih m (R (x / 10)) (i + 1) (R.isFloat _)
        (by linarith) (by linarith) (by omega) hless
      refine ⟨k + 1, by omega, x', ?_, hx₀, hx', .inr ?_⟩
      · rw [he, Nat.add_right_comm, Nat.add_assoc]
      · exact hor.elim (fun heq ↦ heq ▸ hone) id
    · exact ⟨0, Nat.zero_le n, x, rfl, h₀, not_le.mp h10, .inl rfl⟩

theorem almost_one : 1 - 1 / 2 ^ 20 ≤ R (9999999999 / 10000000000) ∧
    R (9999999999 / 10000000000) ≤ 1 - 1 / 2 ^ 34 :=
  ⟨R.ge ⟨2 ^ 20 - 1, -20, by norm_num, by norm_num⟩ (by norm_num),
    R.le ⟨2 ^ 34 - 1, -34, by norm_num, by norm_num⟩ (by norm_num)⟩

theorem width_eq (m : ℤ) (p : ℚ) : width R m p =
    let x := scaleDown R ⌊R (range R m p / 31)⌋₊ (R (range R m p / 31)) 0
    trunc (R (x.1 + R (9999999999 / 10000000000))) * 10 ^ x.2 := by
  have hx : ((histosize : ℚ) - 1) = 31 := by norm_num [histosize]
  simp only [width, hx, scaleUp_eq, range]

theorem width_zero {m : ℤ} (h : range R m p = 0) : width R m p = 0 := by
  have hfloor : ⌊(0 : ℚ)⌋₊ = 0 := Nat.floor_zero
  obtain ⟨hlow, hhigh⟩ := almost_one (R := R)
  rw [width_eq, h, zero_div, R.zero, hfloor]
  simp only [scaleDown, zero_add, R.self (R.isFloat _)]
  rw [trunc_of_nonneg (le_trans (by norm_num) hlow), Int.floor_eq_zero_iff.mpr, zero_mul]
  exact ⟨le_trans (by norm_num) hlow, hhigh.trans_lt (by norm_num)⟩

theorem width_digit {m : ℤ} (h : 1 / 2048 ≤ range R m p) (hle : range R m p ≤ 3 * 10 ^ 16) :
    ∃ k i : ℕ, 1 ≤ k ∧ k ≤ 10 ∧ i ≤ 14 ∧ width R m p = k * 10 ^ i := by
  have hlow : 1 / 2 ^ 16 ≤ R (range R m p / 31) :=
    R.ge ⟨1, -16, by norm_num, by norm_num⟩ (by norm_num; linarith)
  have hhigh : R (range R m p / 31) ≤ 97 * 10 ^ 13 :=
    R.le ⟨97 * 5 ^ 13, 13, by norm_num, by norm_num⟩ (by linarith)
  obtain ⟨i, hi, x, he, hx₀, hx, hor⟩ := scaleDown_spec (R := R) ⌊R (range R m p / 31)⌋₊ 14
    (R (range R m p / 31)) 0 (R.isFloat _) (le_trans (by norm_num) hlow)
    (by linarith [Nat.lt_floor_add_one (R (range R m p / 31))]) (by norm_num)
    (hhigh.trans_lt (by norm_num))
  obtain ⟨hc, hc'⟩ := almost_one (R := R)
  have hx16 : 1 / 2 ^ 16 ≤ x := hor.elim (fun h ↦ h ▸ hlow) fun h ↦ le_trans (by norm_num) h
  have h₁ : 1 ≤ R (x + R (9999999999 / 10000000000)) :=
    R.ge ⟨1, 0, by norm_num, by norm_num⟩ (by norm_num at *; linarith)
  have h₂ : R (x + R (9999999999 / 10000000000)) < 11 :=
    R.lt_of_le_sub ⟨11, 0, by norm_num, by norm_num⟩ (by norm_num) (by norm_num at *; linarith)
  have h₃ : 1 ≤ ⌊R (x + R (9999999999 / 10000000000))⌋ := Int.le_floor.mpr (by exact_mod_cast h₁)
  have h₄ : ⌊R (x + R (9999999999 / 10000000000))⌋ < 11 := Int.floor_lt.mpr (by exact_mod_cast h₂)
  rw [width_eq, he, zero_add]
  dsimp only
  rw [trunc_of_nonneg (by linarith)]
  obtain ⟨k, hk⟩ := Int.eq_ofNat_of_zero_le (zero_le_one.trans h₃)
  rw [hk] at h₃ h₄ ⊢
  exact ⟨k, i, by omega, by omega, hi, rfl⟩

theorem isFloat_digits {j k i : ℕ} (hj : j ≤ 992) (hk : k ≤ 10) (hi : i ≤ 14) :
    IsFloat 53 ((j * (k * 10 ^ i) : ℕ) : ℚ) := by
  refine ⟨(j * k * 5 ^ i : ℕ), i, ?_, ?_⟩
  · rw [Nat.abs_cast]
    have := Nat.mul_le_mul (Nat.mul_le_mul hj hk) (Nat.pow_le_pow_right (by norm_num : 0 < 5) hi)
    exact_mod_cast this.trans (by norm_num)
  · push_cast
    rw [zpow_natCast, mul_assoc, mul_assoc, ← mul_pow]
    norm_num

/-- A scale as it comes out for the least sample `d` and the percentile `p`. -/
structure Scaled (R : Rounding 53) (d p : ℚ) (sc : Scale) : Prop where
  y : sc.y = width R (start R d) p
  pos : 1 ≤ sc.y
  le : sc.y ≤ 10 ^ 15
  isFloat : ∀ j ≤ 992, IsFloat 53 ((j : ℕ) * sc.y)
  min_eq : sc.min = (start R d).tdiv sc.y * sc.y
  scale : sc.scale = 31 * sc.y

theorem findScale_cases (hd : Sample d) (hp : Sample p) (hle : d ≤ p) :
    (Lifted R d ∧ p = d) ∧ findScale R d p = .error .divide ∨
      ¬ (Lifted R d ∧ p = d) ∧ ∃ sc, findScale R d p = .ok sc ∧ Scaled R d p sc := by
  obtain ⟨hzero, hpos, hmax⟩ := range_cases (R := R) hd hp hle
  by_cases h : Lifted R d ∧ p = d
  · exact .inl ⟨h, if_pos (width_zero (hzero h))⟩
  · obtain ⟨k, i, hk, hk', hi, he⟩ := width_digit (hpos h) hmax
    have hw : 1 ≤ width R (start R d) p := by
      rw [he]
      exact_mod_cast Nat.mul_pos hk (Nat.pow_pos (by norm_num))
    refine .inr ⟨h, _, if_neg (show width R (start R d) p ≠ 0 by omega), rfl, hw, ?_, ?_, rfl, ?_⟩
    · change width R (start R d) p ≤ 10 ^ 15
      rw [he]
      exact_mod_cast Nat.mul_le_mul hk' (Nat.pow_le_pow_right (by norm_num) hi)
    · intro j hj
      change IsFloat 53 (j * width R (start R d) p : ℚ)
      rw [he]
      exact_mod_cast isFloat_digits hj hk' hi
    · change (if width R (start R d) p * (histosize - 1) < (histosize : ℤ) - 1 then
        (histosize : ℤ) - 1 else width R (start R d) p * (histosize - 1)) =
          31 * width R (start R d) p
      have h31 : (histosize : ℤ) - 1 = 31 := rfl
      rw [h31, if_neg (by omega)]
      omega

def offset (rd : ℚ → ℚ) (sc : Scale) (x : ℚ) : ℚ := rd (x - rd sc.min)

namespace Scaled

theorem quotient_eq (h : Scaled R d p sc) (x : ℚ) :
    quotient R sc x = trunc (R (R (31 * offset R sc x) / (31 * sc.y))) := by
  have h31 : ((histosize : ℚ) - 1) = 31 := by norm_num [histosize]
  have hscale : R sc.scale = 31 * sc.y := by
    have hfloat := h.isFloat 31 (by norm_num)
    rw [h.scale]
    push_cast at hfloat ⊢
    exact R.self hfloat
  rw [quotient, h31, hscale, offset]

theorem y_pos (h : Scaled R d p sc) : (0 : ℚ) < sc.y := by
  exact_mod_cast Int.lt_of_lt_of_le zero_lt_one h.pos

theorem isFloat_mul (h : Scaled R d p sc) {k : ℕ} (hk : k ≤ 32) :
    IsFloat 53 (k * sc.y : ℚ) ∧ IsFloat 53 (k * (31 * sc.y) : ℚ) := by
  refine ⟨h.isFloat k (by omega), ?_⟩
  have := h.isFloat (k * 31) (by omega)
  push_cast at this
  rwa [← mul_assoc]

/-- Rounding three times does not move a sample into another bucket. -/
theorem le_quotient_iff (h : Scaled R d p sc) {k : ℕ} (hk : 1 ≤ k) (hk' : k ≤ 32) (x : ℚ) :
    (k : ℤ) ≤ quotient R sc x ↔ k * (sc.y : ℚ) ≤ offset R sc x := by
  obtain ⟨h₁, h₂⟩ := h.isFloat_mul hk'
  have hpos : (0 : ℚ) < k := by exact_mod_cast hk
  have hfloat : IsFloat 53 (k : ℚ) := by
    exact_mod_cast isFloat_int (p := 53) (n := k) (by rw [Nat.abs_cast]; norm_cast; omega)
  rw [h.quotient_eq, le_trunc_iff (by omega), Int.cast_natCast, ← not_lt, ← not_lt, not_iff_not]
  exact R.mul_div_lt_iff (R.isFloat _) hfloat (by norm_num) h.y_pos hpos h₁ h₂

theorem quotient_neg_iff_offset (h : Scaled R d p sc) (x : ℚ) :
    quotient R sc x < 0 ↔ offset R sc x ≤ -sc.y := by
  obtain ⟨h₁, h₂⟩ := h.isFloat_mul (k := 1) (by norm_num)
  have hone : IsFloat 53 ((1 : ℕ) : ℚ) := ⟨1, 0, by norm_num, by norm_num⟩
  have hiff := R.lt_mul_div_iff (s := offset R sc x) (R.isFloat _) hone (c := 31) (by norm_num)
    h.y_pos (by norm_num) h₁ h₂
  rw [Nat.cast_one, one_mul] at hiff
  rw [h.quotient_eq, ← not_le, trunc_nonneg_iff, hiff, not_lt]

theorem bucket_eq (h : Scaled R d p sc) (hx : R sc.min ≤ x) :
    bucket R sc x = min ⌊offset R sc x / sc.y⌋ 31 ∧ 0 ≤ bucket R sc x := by
  have hoff : 0 ≤ offset R sc x := R.ge isFloat_zero (sub_nonneg.mpr hx)
  have hq : 0 ≤ quotient R sc x := by
    rw [← not_lt, h.quotient_neg_iff_offset, not_le]
    linarith [h.y_pos]
  have hf : 0 ≤ ⌊offset R sc x / sc.y⌋ := Int.floor_nonneg.mpr (div_nonneg hoff h.y_pos.le)
  have key (k : ℕ) (hk : 1 ≤ k) (hk' : k ≤ 32) :
      (k : ℤ) ≤ quotient R sc x ↔ (k : ℤ) ≤ ⌊offset R sc x / sc.y⌋ := by
    rw [h.le_quotient_iff hk hk', Int.le_floor, le_div_iff₀ h.y_pos, Int.cast_natCast]
  have hmin : min (quotient R sc x) 31 = min ⌊offset R sc x / sc.y⌋ 31 := by
    obtain ⟨m, hm⟩ := Int.eq_ofNat_of_zero_le hq
    obtain ⟨n, hn⟩ := Int.eq_ofNat_of_zero_le hf
    rw [hm, hn] at key ⊢
    have h₁ := key (min m 31)
    have h₂ := key (min n 31)
    omega
  rw [← hmin]
  simp only [bucket, panics, histosize, ge_iff_le, decide_eq_true_eq]
  split_ifs <;> omega

theorem min_le (h : Scaled R d p sc) (hd : Sample d) (h₀ : 0 ≤ d) : R sc.min ≤ d := by
  refine R.le hd.isFloat ?_
  have hs := start_of_nonneg (R := R) hd h₀
  have hle := tdiv_mul_le (n := start R d) (hs ▸ Int.floor_nonneg.mpr h₀)
    (Int.lt_of_lt_of_le zero_lt_one h.pos)
  rw [← h.min_eq, hs] at hle
  exact (show (sc.min : ℚ) ≤ ⌊d⌋ by exact_mod_cast hle).trans (Int.floor_le d)

theorem min_of_neg (h : Scaled R d p sc) (hd : Sample d) (h₀ : d < 0) :
    start R d ≤ sc.min ∧ sc.min < start R d + sc.y ∧ sc.min ≤ 0 := by
  have hs := (start_of_neg (R := R) hd h₀).1
  have hy := Int.lt_of_lt_of_le zero_lt_one h.pos
  rw [h.min_eq]
  exact ⟨le_tdiv_mul hs hy, tdiv_mul_lt_add hs hy, tdiv_mul_nonpos hs hy⟩

theorem dvd_min (h : Scaled R d p sc) : sc.y ∣ sc.min := ⟨_, h.min_eq.trans (mul_comm _ _)⟩

theorem offset_le_iff (h : Scaled R d p sc) (hx : IsFloat 53 x) (hm : R sc.min ≤ 0) :
    offset R sc x ≤ -sc.y ↔ x ≤ R sc.min - sc.y := by
  have hyf : IsFloat 53 (-sc.y : ℚ) := by
    have := (h.isFloat 1 (by norm_num)).neg
    rwa [Nat.cast_one, one_mul] at this
  constructor
  · intro hle
    by_contra! hgt
    rcases le_or_gt (R sc.min) x with hge | hlt
    · have := R.ge isFloat_zero (sub_nonneg.mpr hge)
      rw [offset] at hle
      linarith [h.y_pos]
    · obtain ⟨n, hn⟩ := round_int R sc.min
      rw [offset] at hle
      rw [hn] at hm hlt hgt hle
      have hle15 : (sc.y : ℚ) ≤ 10 ^ 15 := by exact_mod_cast h.le
      have habs : |x - n| = n - x := by rw [abs_of_neg (sub_neg_of_lt hlt), neg_sub]
      have hexact := hx.sub_int (n := n) (by rw [habs, abs_of_neg (by linarith)]; linarith)
        (by rw [habs]; norm_num; linarith)
      rw [R.self hexact] at hle
      linarith
  · intro hle
    exact R.le hyf (by linarith)

theorem min_round (h : Scaled R d p sc) (hd : Sample d) (h₀ : d < 0) :
    (R sc.min : ℚ) ≤ d + sc.y ∧ (R sc.min = d + sc.y ↔ Lifted R d ∧ (sc.min : ℚ) = d + sc.y) := by
  obtain ⟨hge, hlt, hneg⟩ := h.min_of_neg hd h₀
  obtain ⟨hs, hds, hyes, hno⟩ := start_of_neg (R := R) hd h₀
  have hge' : (start R d : ℚ) ≤ sc.min := by exact_mod_cast hge
  have hlt' : (sc.min : ℚ) ≤ start R d + sc.y - 1 := by
    exact_mod_cast Int.le_sub_one_of_lt hlt
  by_cases hexact : R sc.min = sc.min
  · rw [hexact]
    by_cases hl : Lifted R d
    · have := hyes hl
      exact ⟨by linarith, by simp [hl]⟩
    · have := hno hl
      exact ⟨by linarith, iff_of_false (by linarith) fun hm ↦ hl hm.1⟩
  · have hlarge : 2 ^ 53 < |sc.min| := by
      by_contra! hle
      exact hexact (R.int hle)
    have hlarge' : (2 : ℚ) ^ 53 < -sc.min := by
      rw [abs_of_nonpos hneg] at hlarge
      exact_mod_cast hlarge
    obtain ⟨n, hn⟩ := even_of_large hd.isFloat (by
      rw [abs_of_neg h₀]
      linarith)
    obtain ⟨hsd, hl⟩ := start_of_large (R := R) hd (by
      rw [abs_of_neg h₀]
      linarith)
    have hstart : start R d = 2 * n := by exact_mod_cast hsd.trans hn
    have hbound : -(10 : ℤ) ^ 16 ≤ 2 * n := by
      have := (abs_le.mp hd.bound).1
      rw [hn] at this
      exact_mod_cast this
    have heven (m : ℤ) (hm : 2 * n ≤ 2 * m) (hm' : m ≤ 0) : R ((2 * m : ℤ) : ℚ) = (2 * m : ℤ) := by
      refine R.self ⟨m, 1, ?_, by push_cast; ring⟩
      rw [abs_of_nonpos hm']
      norm_num
      omega
    have hodd : sc.min % 2 = 1 := by
      by_contra hne
      obtain ⟨m, hm⟩ : ∃ m, sc.min = 2 * m := ⟨sc.min / 2, by omega⟩
      exact hexact (hm ▸ heven m (by omega) (by omega))
    have hyodd : sc.y % 2 = 1 := by
      obtain ⟨c, hc⟩ := h.dvd_min
      rcases Int.emod_two_eq_zero_or_one sc.y with hy | hy
      · rw [hc, Int.mul_emod, hy, zero_mul, Int.zero_emod] at hodd
        omega
      · exact hy
    -- Then the even number above `min` is still below the bound.
    obtain ⟨m, hm⟩ : ∃ m, sc.min + 1 = 2 * m := ⟨(sc.min + 1) / 2, by omega⟩
    have hround : R sc.min ≤ ((sc.min + 1 : ℤ) : ℚ) := by
      rw [hm, ← heven m (by omega) (by omega), ← hm]
      exact R.mono (by push_cast; linarith)
    have hless : sc.min + 1 < 2 * n + sc.y := by omega
    have hless' : ((sc.min + 1 : ℤ) : ℚ) < d + sc.y := by
      rw [hn]
      exact_mod_cast hless
    exact ⟨by linarith, iff_of_false (by linarith) fun hm ↦ hl hm.1⟩

/-- `min` is a whole bucket above the least sample exactly if the width divides that. -/
theorem min_eq_iff (h : Scaled R d p sc) (hd : Sample d) (hl : Lifted R d) :
    (sc.min : ℚ) = d + sc.y ↔ sc.y ∣ d.num := by
  obtain ⟨hge, hlt, -⟩ := h.min_of_neg hd hl.1
  obtain ⟨k, hk⟩ := (whole_iff d).mp hl.2.1
  have hs : start R d = k + 1 := by
    have := ((start_of_neg (R := R) hd hl.1).2.2.1 hl).trans (congrArg (· + 1) hk)
    exact_mod_cast this
  rw [hk, Rat.num_intCast]
  constructor
  · intro he
    have he' : sc.min = k + sc.y := by exact_mod_cast he
    exact (Int.dvd_add_left dvd_rfl).mp (he' ▸ h.dvd_min)
  · intro hdvd
    obtain ⟨c, hc⟩ : sc.y ∣ sc.min - k := dvd_sub h.dvd_min hdvd
    have hpos := h.pos
    have hc1 : c = 1 := by nlinarith
    rw [hc1, mul_one] at hc
    exact_mod_cast (show sc.min = k + sc.y by omega)

/-- A sample gets a place in front of the histogram only if it is the least one,
and that is lifted and a multiple of the width. -/
theorem quotient_neg_iff (h : Scaled R d p sc) (hd : Sample d) (hx : Sample x) (hle : d ≤ x) :
    quotient R sc x < 0 ↔ x = d ∧ Lifted R d ∧ sc.y ∣ d.num := by
  rw [h.quotient_neg_iff_offset]
  rcases le_or_gt 0 d with h₀ | h₀
  · have hoff : 0 ≤ offset R sc x :=
      R.ge isFloat_zero (sub_nonneg.mpr ((h.min_le hd h₀).trans hle))
    exact iff_of_false (by linarith [h.y_pos]) fun hm ↦ hm.2.1.1.not_ge h₀
  · obtain ⟨hround, hiff⟩ := h.min_round hd h₀
    have hneg : R sc.min ≤ 0 := R.le isFloat_zero (by exact_mod_cast (h.min_of_neg hd h₀).2.2)
    rw [h.offset_le_iff hx.isFloat hneg]
    constructor
    · intro hfar
      have hxd : x = d := by linarith
      obtain ⟨hl, hm⟩ := hiff.mp (by linarith)
      exact ⟨hxd, hl, (h.min_eq_iff hd hl).mp hm⟩
    · rintro ⟨rfl, hl, hdvd⟩
      have := hiff.mpr ⟨hl, (h.min_eq_iff hd hl).mpr hdvd⟩
      linarith

end Scaled

/-! The samples as they come from `compute_stats`. -/

def usecs (rd : ℚ → ℚ) (ns : List ℤ) : List ℚ := ns.map fun a : ℤ ↦ rd (rd a / 1000)

@[simp]
theorem length_usecs (rd : ℚ → ℚ) (ns : List ℤ) : (usecs rd ns).length = ns.length :=
  List.length_map _

def least (rd : ℚ → ℚ) (ns : List ℤ) : ℚ := place (usecs rd ns) 0

def percentile (rd : ℚ → ℚ) (ns : List ℤ) : ℚ := place (usecs rd ns) (ns.length * 95 / 100)

variable {ns : List ℤ}

theorem sample_of_mem (hb : ∀ a ∈ ns, |a| ≤ 2 ^ 63) (hx : x ∈ usecs R ns) : Sample x := by
  obtain ⟨a, ha, rfl⟩ := List.mem_map.mp hx
  exact sample_usecs R (hb a ha)

theorem least_mem (rd : ℚ → ℚ) (h2 : 2 ≤ ns.length) : least rd ns ∈ below (usecs rd ns) := by
  refine mem_below.mpr ⟨0, ?_, rfl⟩
  rw [length_usecs]
  omega

/-- Either nothing is left of the range, or there is a scale for it. -/
theorem fillHisto_cases (R : Rounding 53) (hb : ∀ a ∈ ns, |a| ≤ 2 ^ 63) (h2 : 2 ≤ ns.length)
    (hn : ns.length * 95 < 2 ^ 31) :
    (Lifted R (least R ns) ∧ percentile R ns = least R ns) ∧
        fillHisto R (usecs R ns) = .error .divide ∨
      ¬ (Lifted R (least R ns) ∧ percentile R ns = least R ns) ∧
        ∃ sc, fillHisto R (usecs R ns) = .ok (filled R (usecs R ns) sc) ∧
          Scaled R (least R ns) (percentile R ns) sc := by
  have hlen := length_usecs R ns
  have hne : usecs R ns ≠ [] := by
    rw [← List.length_pos_iff]
    omega
  have hd : Sample (least R ns) := sample_of_mem hb (place_mem (by omega))
  have hp : Sample (percentile R ns) := sample_of_mem hb (place_mem (by omega))
  have hle : least R ns ≤ percentile R ns := place_le (Nat.zero_le _) (by omega)
  have hfill := fillHisto_eq R hne (by omega)
  rw [hlen, ← least, ← percentile] at hfill
  rcases findScale_cases (R := R) hd hp hle with ⟨h, he⟩ | ⟨h, sc, he, hs⟩
  · exact .inl ⟨h, by rw [hfill, he]; rfl⟩
  · exact .inr ⟨h, sc, by rw [hfill, he]; rfl, hs⟩

end LibMicro.Stats.Rounded
