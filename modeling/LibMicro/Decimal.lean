import Mathlib.Algebra.Order.Floor.Ring
import Mathlib.Data.Rat.Floor
import Mathlib.Tactic.FieldSimp
import Mathlib.Tactic.Linarith
import LibMicro.Text

namespace LibMicro.Decimal

open Text

variable {x : ℚ} {d n : ℕ}

/-- The nearest integer, and of two that are equally near the even one. -/
def roundEven (x : ℚ) : ℤ :=
  if x - ⌊x⌋ < 1 / 2 then ⌊x⌋
  else if 1 / 2 < x - ⌊x⌋ then ⌊x⌋ + 1
  else if ⌊x⌋ % 2 = 0 then ⌊x⌋
  else ⌊x⌋ + 1

theorem roundEven_intCast (n : ℤ) : roundEven n = n := by
  rw [roundEven, if_pos (by norm_num), Int.floor_intCast]

theorem floor_le_roundEven (x : ℚ) : ⌊x⌋ ≤ roundEven x := by
  unfold roundEven
  split_ifs <;> omega

theorem roundEven_le_ceil (x : ℚ) : roundEven x ≤ ⌈x⌉ := by
  have hle : ⌊x⌋ ≤ ⌈x⌉ := Int.floor_le_ceil x
  have hlt (h : ¬ x - ⌊x⌋ < 1 / 2) : ⌊x⌋ + 1 ≤ ⌈x⌉ := by
    refine Int.add_one_le_of_lt (Int.lt_ceil.mpr ?_)
    linarith
  unfold roundEven
  split_ifs with h₁ h₂ h₃
  · exact hle
  · exact hlt h₁
  · exact hle
  · exact hlt h₁

theorem roundEven_nonneg (h : 0 ≤ x) : 0 ≤ roundEven x :=
  (Int.floor_nonneg.mpr h).trans (floor_le_roundEven x)

theorem roundEven_nonpos (h : x ≤ 0) : roundEven x ≤ 0 :=
  (roundEven_le_ceil x).trans (Int.ceil_le.mpr (by simpa using h))

def rounded (d : ℕ) (x : ℚ) : ℚ := roundEven (x * 10 ^ d) / 10 ^ d

def integer (n : ℤ) : List Char := (if n < 0 then ['-'] else []) ++ Nat.toDigits 10 n.natAbs

def leadingZeros (d : ℕ) (w : List Char) : List Char := List.replicate (d - w.length) '0' ++ w

/-- A numeral whose last `d` digits stand behind a point. -/
def pointed (d n : ℕ) : List Char :=
  Nat.toDigits 10 (n / 10 ^ d) ++ '.' :: leadingZeros d (Nat.toDigits 10 (n % 10 ^ d))

def fixed (d : ℕ) (x : ℚ) : List Char :=
  (if x < 0 then ['-'] else []) ++ pointed d (roundEven (x * 10 ^ d)).natAbs

def sign : List Char → Bool × List Char
  | '-' :: l => (true, l)
  | '+' :: l => (false, l)
  | l => (false, l)

def digits (l : List Char) : List Char × List Char :=
  (l.takeWhile Char.isDigit, l.dropWhile Char.isDigit)

def fraction : List Char → List Char × List Char
  | '.' :: l => digits l
  | l => ([], l)

def exponent : List Char → Option ℤ
  | [] => some 0
  | c :: l =>
    if c = 'e' ∨ c = 'E' then
      let (neg, l) := sign l
      match digits l with
      | (w, []) =>
        if w = [] then none
        else some (if neg then -Nat.ofDigitChars 10 w 0 else Nat.ofDigitChars 10 w 0)
      | _ => none
    else none

/-- The number that the whole of a text spells. -/
def numeric (l : List Char) : Option ℚ :=
  let (neg, l) := sign l
  let (front, l) := digits l
  let (behind, l) := fraction l
  if front ++ behind = [] then none
  else (exponent l).map fun e ↦
    (if neg then -1 else 1) * Nat.ofDigitChars 10 (front ++ behind) 0 *
      (10 : ℚ) ^ (e - (behind.length : ℤ))

theorem isDigit_toDigits {c : Char} (h : c ∈ Nat.toDigits 10 n) : c.isDigit :=
  Nat.isDigit_of_mem_toDigits (by decide) le_rfl h

theorem isDigit_leadingZeros {w : List Char} (hw : ∀ c ∈ w, c.isDigit) {c : Char}
    (h : c ∈ leadingZeros d w) : c.isDigit := by
  rcases List.mem_append.mp h with h | h
  · rw [List.eq_of_mem_replicate h]
    rfl
  · exact hw c h

theorem length_leadingZeros (hd : 0 < d) (h : n < 10 ^ d) :
    (leadingZeros d (Nat.toDigits 10 n)).length = d := by
  have := (Nat.length_toDigits_le_iff (by decide) hd).mpr h
  rw [leadingZeros, List.length_append, List.length_replicate]
  omega

theorem ofDigitChars_leadingZeros (d : ℕ) (w : List Char) (k : ℕ) :
    Nat.ofDigitChars 10 (leadingZeros d w) k =
      Nat.ofDigitChars 10 w (10 ^ (d - w.length) * k) := by
  rw [leadingZeros, Nat.ofDigitChars_append, Nat.ofDigitChars_replicate_zero]

theorem ofDigitChars_pointed (hd : 0 < d) (n : ℕ) :
    Nat.ofDigitChars 10 (Nat.toDigits 10 (n / 10 ^ d) ++
      leadingZeros d (Nat.toDigits 10 (n % 10 ^ d))) 0 = n := by
  have hlt : n % 10 ^ d < 10 ^ d := Nat.mod_lt n (by positivity)
  rw [Nat.ofDigitChars_append, Nat.ofDigitChars_ten_toDigits,
    Nat.ofDigitChars_eq_ofDigitChars_zero, length_leadingZeros hd hlt, ofDigitChars_leadingZeros,
    Nat.mul_zero, Nat.ofDigitChars_ten_toDigits]
  exact Nat.div_add_mod n (10 ^ d)

theorem digits_append {w l : List Char} (hw : ∀ c ∈ w, c.isDigit) (hl : digits l = ([], l)) :
    digits (w ++ l) = (w, l) := by
  simp only [digits, Prod.mk.injEq] at hl ⊢
  rw [List.takeWhile_append_of_pos hw, List.dropWhile_append_of_pos hw, hl.1, hl.2, List.append_nil]
  exact ⟨rfl, rfl⟩

theorem sign_digit {c : Char} (hc : c.isDigit) (l : List Char) : sign (c :: l) = (false, c :: l) := by
  unfold sign
  split
  · next h =>
    rw [(List.cons.inj h).1] at hc
    exact absurd hc (by decide)
  · next h =>
    rw [(List.cons.inj h).1] at hc
    exact absurd hc (by decide)
  · rfl

theorem sign_pointed (neg : Bool) (d n : ℕ) :
    sign ((if neg then ['-'] else []) ++ pointed d n) = (neg, pointed d n) := by
  cases neg with
  | true => rfl
  | false =>
    obtain ⟨c, w, hw⟩ := List.exists_cons_of_ne_nil (Nat.toDigits_ne_nil (n := n / 10 ^ d) (b := 10))
    have hc : c.isDigit := isDigit_toDigits (hw ▸ List.mem_cons_self)
    simp only [pointed, hw, List.cons_append, Bool.false_eq_true, if_false, List.nil_append]
    exact sign_digit hc _

theorem numeric_pointed (hd : 0 < d) (neg : Bool) (n : ℕ) :
    numeric ((if neg then ['-'] else []) ++ pointed d n) =
      some ((if neg then -1 else 1 : ℚ) * (n / 10 ^ d)) := by
  have hfront := digits_append (l := '.' :: leadingZeros d (Nat.toDigits 10 (n % 10 ^ d)))
    (fun c ↦ isDigit_toDigits (n := n / 10 ^ d)) rfl
  have hbehind := digits_append (l := [])
    (fun c ↦ isDigit_leadingZeros (d := d) fun c ↦ isDigit_toDigits (n := n % 10 ^ d)) rfl
  have hlen := length_leadingZeros hd (Nat.mod_lt n (by positivity : 0 < 10 ^ d))
  rw [List.append_nil] at hbehind
  simp only [numeric, sign_pointed]
  rw [pointed, hfront]
  simp only [fraction, hbehind, ofDigitChars_pointed hd, hlen, exponent]
  rw [if_neg (by simp [Nat.toDigits_ne_nil])]
  simp only [Option.map_some, zero_sub, zpow_neg, zpow_natCast]
  rw [mul_assoc, ← div_eq_mul_inv]

/-- What is printed is read back. -/
theorem numeric_fixed (hd : 0 < d) (x : ℚ) : numeric (fixed d x) = some (rounded d x) := by
  rw [fixed, rounded]
  rcases lt_or_ge x 0 with hx | hx
  · have hle := roundEven_nonpos (mul_nonpos_of_nonpos_of_nonneg hx.le (by positivity : (0 : ℚ) ≤ 10 ^ d))
    have hcast : ((roundEven (x * 10 ^ d)).natAbs : ℚ) = -roundEven (x * 10 ^ d) := by
      rw [Nat.cast_natAbs, abs_of_nonpos hle, Int.cast_neg]
    have h := numeric_pointed hd true (roundEven (x * 10 ^ d)).natAbs
    rw [if_pos rfl, if_pos rfl, hcast] at h
    rw [if_pos hx, h]
    congr 1
    ring
  · have hle := roundEven_nonneg (mul_nonneg hx (by positivity : (0 : ℚ) ≤ 10 ^ d))
    have hcast : ((roundEven (x * 10 ^ d)).natAbs : ℚ) = roundEven (x * 10 ^ d) := by
      rw [Nat.cast_natAbs, abs_of_nonneg hle]
    have h := numeric_pointed hd false (roundEven (x * 10 ^ d)).natAbs
    rw [if_neg Bool.false_ne_true, if_neg Bool.false_ne_true, hcast] at h
    rw [if_neg hx.not_gt, h, one_mul]

theorem minus_mem_fixed (d : ℕ) (x : ℚ) : '-' ∈ fixed d x ↔ x < 0 := by
  have hpointed (n : ℕ) : '-' ∉ pointed d n := by
    have hdigits : ¬ '-'.isDigit := by decide
    simp only [pointed, List.mem_append, List.mem_cons, not_or]
    refine ⟨fun h ↦ hdigits (isDigit_toDigits h), by decide, fun h ↦ hdigits ?_⟩
    exact isDigit_leadingZeros (fun c ↦ isDigit_toDigits) h
  rw [fixed, List.mem_append, or_iff_left (hpointed _)]
  split_ifs with h <;> simp [h]

theorem rounded_mul (d k : ℕ) (x : ℚ) :
    roundEven (rounded d x * 10 ^ (d + k)) = roundEven (x * 10 ^ d) * 10 ^ k := by
  have hcast : rounded d x * 10 ^ (d + k) = ((roundEven (x * 10 ^ d) * 10 ^ k : ℤ) : ℚ) := by
    rw [rounded, pow_add]
    push_cast
    field_simp
  rw [hcast, roundEven_intCast]

theorem pos_of_rounded_pos (h : 0 < rounded d x) : 0 < x ∧ 0 < roundEven (x * 10 ^ d) := by
  have hround : 0 < roundEven (x * 10 ^ d) := by
    rw [rounded, div_pos_iff_of_pos_right (by positivity)] at h
    exact_mod_cast h
  refine ⟨lt_of_not_ge fun hx ↦ hround.not_ge ?_, hround⟩
  exact roundEven_nonpos (mul_nonpos_of_nonpos_of_nonneg hx (by positivity))

theorem fixed_rounded (h : 0 < rounded d x) : fixed d (rounded d x) = fixed d x := by
  have hr := rounded_mul d 0 x
  rw [Nat.add_zero, pow_zero, mul_one] at hr
  rw [fixed, fixed, hr, if_neg h.not_gt, if_neg (pos_of_rounded_pos h).1.not_gt]

theorem pointed_succ (hd : 0 < d) (n : ℕ) : pointed (d + 1) (n * 10) = pointed d n ++ ['0'] := by
  have hdiv : n * 10 / 10 ^ (d + 1) = n / 10 ^ d := by
    rw [pow_succ]
    exact Nat.mul_div_mul_right n (10 ^ d) (by decide)
  have hmod : n * 10 % 10 ^ (d + 1) = 10 * (n % 10 ^ d) := by
    rw [pow_succ, Nat.mul_mod_mul_right, Nat.mul_comm]
  rw [pointed, pointed, hdiv, hmod, List.append_assoc, List.cons_append]
  congr 2
  have hlen := (Nat.length_toDigits_le_iff (by decide) hd).mpr (Nat.mod_lt n (by positivity : 0 < 10 ^ d))
  generalize n % 10 ^ d = m at hlen ⊢
  rcases Nat.eq_zero_or_pos m with rfl | hm
  · obtain ⟨k, rfl⟩ := Nat.exists_eq_add_of_le' hd
    simp [leadingZeros, Nat.toDigits_zero, List.replicate_succ']
  · have hdigits : Nat.toDigits 10 (10 * m) = Nat.toDigits 10 m ++ ['0'] :=
      (Nat.toDigits_append_toDigits (by decide) hm (by decide : 0 < 10)).symm
    rw [hdigits, leadingZeros, leadingZeros, List.length_append, List.append_assoc]
    congr 2
    exact Nat.add_sub_add_right d 1 _

theorem fixed_succ_rounded (hd : 0 < d) (h : 0 < rounded d x) :
    fixed (d + 1) (rounded d x) = fixed d x ++ ['0'] := by
  obtain ⟨hx, hround⟩ := pos_of_rounded_pos h
  have hr := rounded_mul d 1 x
  rw [pow_one] at hr
  rw [fixed, fixed, hr, if_neg h.not_gt, if_neg hx.not_gt, Int.natAbs_mul]
  exact pointed_succ hd _

theorem isBlank_of_isDigit {c : Char} (h : c.isDigit) : isBlank c = false := by
  rw [isBlank, decide_eq_false_iff_not]
  rintro (rfl | rfl) <;> exact absurd h (by decide)

theorem isBlank_minus {p : Prop} [Decidable p] {c : Char} (h : c ∈ if p then ['-'] else []) :
    isBlank c = false := by
  split_ifs at h
  · rw [List.mem_singleton.mp h]
    rfl
  · cases h

theorem isField_integer (n : ℤ) : IsField (integer n) where
  ne_nil := by simp [integer, Nat.toDigits_ne_nil]
  solid c hc := by
    rcases List.mem_append.mp hc with hc | hc
    · exact isBlank_minus hc
    · exact isBlank_of_isDigit (isDigit_toDigits hc)

theorem isField_fixed (d : ℕ) (x : ℚ) : IsField (fixed d x) where
  ne_nil := by simp [fixed, pointed]
  solid c hc := by
    rcases List.mem_append.mp hc with hc | hc
    · exact isBlank_minus hc
    · rcases List.mem_append.mp hc with hc | hc
      · exact isBlank_of_isDigit (isDigit_toDigits hc)
      · rcases List.mem_cons.mp hc with rfl | hc
        · rfl
        · exact isBlank_of_isDigit (isDigit_leadingZeros (fun c ↦ isDigit_toDigits) hc)

theorem integer_natCast (n : ℕ) : integer n = Nat.toDigits 10 n := by
  rw [integer, if_neg (by omega), List.nil_append, Int.natAbs_natCast]

theorem integer_inj {m n : ℕ} (h : integer m = integer n) : m = n := by
  rw [integer_natCast, integer_natCast] at h
  rw [← Nat.ofDigitChars_ten_toDigits (n := m), h, Nat.ofDigitChars_ten_toDigits]

theorem plain_of_isDigit {w : List Char} (h : ∀ c ∈ w, c.isDigit) : Plain w :=
  fun hn ↦ absurd (h _ hn) (by decide)

theorem plain_sign (p : Prop) [Decidable p] : Plain (if p then ['-'] else []) := by
  split_ifs <;> simp

@[simp] theorem plain_integer (n : ℤ) : Plain (integer n) :=
  plain_append.mpr ⟨plain_sign _, plain_of_isDigit fun _ ↦ isDigit_toDigits⟩

theorem mem_fixed {d : ℕ} {x : ℚ} {c : Char} (h : c ∈ fixed d x) :
    c = '-' ∨ c = '.' ∨ c.isDigit := by
  rw [fixed, pointed, List.mem_append, List.mem_append, List.mem_cons] at h
  rcases h with h | h | h | h
  · split_ifs at h
    · exact .inl (List.mem_singleton.mp h)
    · cases h
  · exact .inr (.inr (isDigit_toDigits h))
  · exact .inr (.inl h)
  · exact .inr (.inr (isDigit_leadingZeros (fun _ ↦ isDigit_toDigits) h))

@[simp] theorem plain_fixed (d : ℕ) (x : ℚ) : Plain (fixed d x) := by
  intro h
  rcases mem_fixed h with h | h | h <;> cases h

end LibMicro.Decimal
