import LibMicro.Sizes.Strtoll

namespace LibMicro.Sizes

open Decimal

variable {arg l p : List Char} {c : Char} {d m d' m' : ℕ}

/-- What stands behind the digits of a size, and what it multiplies them by. -/
inductive Suffix : List Char → ℕ → Prop
  | none : Suffix [] 1
  | kilo {c : Char} : c = 'k' ∨ c = 'K' → Suffix [c] (2 ^ 10)
  | mega {c : Char} : c = 'm' ∨ c = 'M' → Suffix [c] (2 ^ 20)
  | giga {c : Char} : c = 'g' ∨ c = 'G' → Suffix [c] (2 ^ 30)

/-- One or more digits that denote `d`, and a suffix that stands for `m`. -/
def IsSize (arg : List Char) (d m : ℕ) : Prop :=
  ∃ w l, arg = w ++ l ∧ w ≠ [] ∧ (∀ c ∈ w, c.isDigit) ∧ Nat.ofDigitChars 10 w 0 = d ∧ Suffix l m

theorem Suffix.cases_on (h : Suffix l m) :
    l = [] ∧ m = 1 ∨ ∃ c, l = [c] ∧ c.isAlpha ∧ multiplier c = some (m : ℤ) := by
  cases h with
  | none => exact .inl ⟨rfl, rfl⟩
  | kilo h => rcases h with rfl | rfl <;> exact .inr ⟨_, rfl, rfl, rfl⟩
  | mega h => rcases h with rfl | rfl <;> exact .inr ⟨_, rfl, rfl, rfl⟩
  | giga h => rcases h with rfl | rfl <;> exact .inr ⟨_, rfl, rfl, rfl⟩

theorem multiplier_pos {mult : ℤ} (h : multiplier c = some mult) : 0 < mult := by
  unfold multiplier at h
  split at h <;> cases h <;> decide

theorem toInt_eq (n : ℕ) :
    toInt n = if n % 2 ^ 32 < 2 ^ 31 then (n % 2 ^ 32 : ℤ) else n % 2 ^ 32 - 2 ^ 32 := by
  rw [toInt, Int.bmod_def]
  split_ifs <;> omega

def ending (p : List Char) : Option ℤ :=
  match p.getLast? with
  | none => some 1
  | some c =>
    if c.isAlpha then
      (multiplier c).bind fun mult ↦ if p.dropLast.all Char.isDigit then some mult else none
    else some 1

def taken (arg : List Char) : List Char := arg.take (toInt arg.length).toNat

theorem suffix_of_neg (h : toInt arg.length < 0) : suffix arg = none := by
  simp only [suffix, if_neg h.ne, if_pos h]

theorem suffix_eq (h : 0 ≤ toInt arg.length) : suffix arg = some (ending (taken arg)) := by
  obtain ⟨k, hk⟩ := Int.eq_ofNat_of_zero_le h
  have hle : k ≤ arg.length := by
    rw [toInt_eq] at hk
    split_ifs at hk <;> omega
  rw [suffix, taken, hk]
  cases k with
  | zero => rfl
  | succ j =>
    have hlt : j < arg.length := hle
    have htake : arg.take (j + 1) = arg.take j ++ [arg[j]] := by
      rw [List.take_add_one, List.getElem?_eq_getElem hlt]
      rfl
    have hpos : ((j + 1 : ℕ) : ℤ) ≠ 0 := by omega
    have hnonneg : ¬ ((j + 1 : ℕ) : ℤ) < 0 := by omega
    simp only [if_neg hpos, if_neg hnonneg, Int.toNat_natCast, Nat.add_sub_cancel,
      List.getElem?_eq_getElem hlt, Option.map_some, ending, htake, List.getLast?_concat,
      List.dropLast_concat]

theorem taken_of_lt (h : arg.length < 2 ^ 31) : taken arg = arg := by
  have hlen : toInt arg.length = arg.length := by
    rw [toInt_eq]
    split_ifs <;> omega
  rw [taken, hlen, Int.toNat_natCast, List.take_length]

def Rejected (p : List Char) : Prop :=
  ∃ q c, p = q ++ [c] ∧ c.isAlpha ∧ (multiplier c = none ∨ ∃ x ∈ q, ¬ x.isDigit)

def Lettered (p : List Char) : Prop := ∃ q c, p = q ++ [c] ∧ c.isAlpha

theorem ending_of_not_lettered (h : ¬ Lettered p) : ending p = some 1 := by
  rcases List.eq_nil_or_concat' p with rfl | ⟨q, c, rfl⟩
  · rfl
  · rw [ending, List.getLast?_concat]
    exact if_neg fun hc ↦ h ⟨q, c, rfl, hc⟩

theorem ending_concat (hc : c.isAlpha) (q : List Char) :
    ending (q ++ [c]) =
      (multiplier c).bind fun mult ↦ if q.all Char.isDigit then some mult else none := by
  rw [ending, List.getLast?_concat, List.dropLast_concat]
  exact if_pos hc

theorem ending_eq_none_iff : ending p = none ↔ Rejected p := by
  constructor
  · intro h
    by_cases hp : Lettered p
    · obtain ⟨q, c, rfl, hc⟩ := hp
      refine ⟨q, c, rfl, hc, ?_⟩
      rw [ending_concat hc] at h
      cases hm : multiplier c with
      | none => exact .inl rfl
      | some mult =>
        rw [hm] at h
        right
        by_contra hall
        push Not at hall
        rw [Option.bind_some, if_pos (List.all_eq_true.mpr hall)] at h
        cases h
    · rw [ending_of_not_lettered hp] at h
      cases h
  · rintro ⟨q, c, rfl, hc, hm | ⟨x, hx, hdigit⟩⟩
    · rw [ending_concat hc, hm]
      rfl
    · have hall : ¬ q.all Char.isDigit := fun h ↦ hdigit (List.all_eq_true.mp h x hx)
      rw [ending_concat hc]
      cases multiplier c with
      | none => rfl
      | some mult => exact if_neg hall

theorem not_lettered_of_digits (h : ∀ c ∈ p, c.isDigit) : ¬ Lettered p := by
  rintro ⟨q, c, rfl, hc⟩
  have hdigit := h c (List.mem_append_right q (List.mem_singleton_self c))
  rw [not_isDigit_of_isAlpha hc] at hdigit
  cases hdigit

theorem Suffix.head_isAlpha (h : Suffix l m) (hc : l.head? = some c) : c.isAlpha := by
  rcases h.cases_on with ⟨rfl, -⟩ | ⟨a, rfl, ha, -⟩
  · cases hc
  · obtain rfl := Option.some.inj hc
    exact ha

theorem Suffix.unique (h : Suffix l m) (h' : Suffix l m') : m = m' := by
  rcases h.cases_on with ⟨rfl, rfl⟩ | ⟨a, rfl, -, hm⟩
  · cases h'
    rfl
  · rcases h'.cases_on with ⟨he, -⟩ | ⟨b, he, -, hm'⟩
    · cases he
    · cases he
      exact_mod_cast Option.some.inj (hm.symm.trans hm')

namespace IsSize

theorem unique (h : IsSize arg d m) (h' : IsSize arg d' m') : d = d' ∧ m = m' := by
  obtain ⟨w, l, rfl, -, hw, rfl, hl⟩ := h
  obtain ⟨w', l', he, -, hw', rfl, hl'⟩ := h'
  have hsplit := digits_append_alpha hw fun c ↦ hl.head_isAlpha
  rw [he, digits_append_alpha hw' fun c ↦ hl'.head_isAlpha] at hsplit
  cases hsplit
  exact ⟨rfl, hl.unique hl'⟩

theorem strtoll_eq (h : IsSize arg d m) : strtoll arg = min (d : ℤ) (2 ^ 63 - 1) := by
  obtain ⟨w, l, rfl, -, hw, rfl, hl⟩ := h
  exact strtoll_digits hw fun c ↦ hl.head_isAlpha

theorem ending_of_lt (h : IsSize arg d m) (hlt : arg.length < 2 ^ 31) :
    ending (taken arg) = some (m : ℤ) := by
  rw [taken_of_lt hlt]
  obtain ⟨w, l, rfl, -, hw, -, hl⟩ := h
  rcases hl.cases_on with ⟨rfl, rfl⟩ | ⟨c, rfl, hc, hm⟩
  · rw [List.append_nil]
    exact ending_of_not_lettered (not_lettered_of_digits hw)
  · rw [ending_concat hc, hm, Option.bind_some, if_pos (List.all_eq_true.mpr hw)]

theorem ending_of_ge (h : IsSize arg d m) (hge : 2 ^ 31 ≤ arg.length) :
    ending (taken arg) = some 1 := by
  obtain ⟨w, l, rfl, -, hw, -, hl⟩ := h
  have hshort : l.length ≤ 1 := by
    rcases hl.cases_on with ⟨rfl, -⟩ | ⟨c, rfl, -⟩ <;> simp
  have hcut : (toInt (w ++ l).length).toNat ≤ w.length := by
    rw [List.length_append] at hge ⊢
    rw [toInt_eq]
    split_ifs <;> omega
  apply ending_of_not_lettered
  apply not_lettered_of_digits
  intro c hc
  rw [taken, List.take_append_of_le_length hcut] at hc
  exact hw c (List.mem_of_mem_take hc)

end IsSize

theorem sizetoll_of_neg (h : toInt arg.length < 0) : sizetoll arg = none := by
  rw [sizetoll, suffix_of_neg h]
  rfl

theorem sizetoll_of_none (h : 0 ≤ toInt arg.length) (he : ending (taken arg) = none) :
    sizetoll arg = some (-1) := by
  rw [sizetoll, suffix_eq h, he]
  rfl

theorem sizetoll_of_some {mult : ℤ} (h : 0 ≤ toInt arg.length)
    (he : ending (taken arg) = some mult) : sizetoll arg = longLong (mult * strtoll arg) := by
  rw [sizetoll, suffix_eq h, he]
  rfl

theorem longLong_eq_some_iff {z v : ℤ} : longLong z = some v ↔ z = v ∧ -2 ^ 63 ≤ z ∧ z < 2 ^ 63 := by
  unfold longLong
  split_ifs with h
  · rw [Option.some_inj, and_iff_left h]
  · exact iff_of_false nofun fun hz ↦ h hz.2

/-- Sizes that fit are accepted, and everything else is reported as an error. -/
structure Parses (arg : List Char) : Prop where
  size : ∀ d m, IsSize arg d m → d * m < 2 ^ 63 → sizetoll arg = some (d * m : ℤ)
  other : (∀ d m, IsSize arg d m → 2 ^ 63 ≤ d * m) → sizetoll arg = some (-1)

theorem Suffix.pos (h : Suffix l m) : 0 < m := by
  cases h <;> norm_num

theorem IsSize.le_mul (h : IsSize arg d m) : d ≤ d * m := by
  obtain ⟨w, l, -, -, -, -, hl⟩ := h
  exact Nat.le_mul_of_pos_right d hl.pos

theorem IsSize.sizetoll_eq (hsize : IsSize arg d m) (h : 0 ≤ toInt arg.length) :
    sizetoll arg =
      longLong ((if arg.length < 2 ^ 31 then (m : ℤ) else 1) * min (d : ℤ) (2 ^ 63 - 1)) := by
  rw [← hsize.strtoll_eq]
  apply sizetoll_of_some h
  split_ifs with hlt
  · exact hsize.ending_of_lt hlt
  · exact hsize.ending_of_ge (not_lt.mp hlt)

theorem longLong_ne_neg_one {a b : ℤ} (ha : 0 ≤ a) (hb : 0 ≤ b) : longLong (a * b) ≠ some (-1) := by
  intro h
  have := (longLong_eq_some_iff.mp h).1
  have := mul_nonneg ha hb
  omega

theorem parses_of_size (h : 0 ≤ toInt arg.length) (hsize : IsSize arg d m) :
    Parses arg ↔ d * m < 2 ^ 63 ∧ (arg.length < 2 ^ 31 ∨ d * m = d) := by
  have heq := hsize.sizetoll_eq h
  have hle := hsize.le_mul
  constructor
  · intro hp
    by_cases hfit : d * m < 2 ^ 63
    · refine ⟨hfit, or_iff_not_imp_left.mpr fun hlen ↦ ?_⟩
      have hr := hp.size d m hsize hfit
      rw [heq, if_neg hlen, one_mul, longLong_eq_some_iff] at hr
      have hd : (d : ℤ) = d * m := by
        rw [← hr.1, min_eq_left (by omega)]
      exact_mod_cast hd.symm
    · have hother : ∀ d' m', IsSize arg d' m' → 2 ^ 63 ≤ d' * m' := by
        intro d' m' h'
        obtain ⟨rfl, rfl⟩ := hsize.unique h'
        exact not_lt.mp hfit
      have hr := hp.other hother
      rw [heq] at hr
      have hmult : (0 : ℤ) ≤ if arg.length < 2 ^ 31 then (m : ℤ) else 1 := by
        split_ifs <;> omega
      exact absurd hr (longLong_ne_neg_one hmult (by omega))
  · rintro ⟨hfit, hlen⟩
    constructor
    · intro d' m' h' _
      obtain ⟨rfl, rfl⟩ := hsize.unique h'
      have hprod : (if arg.length < 2 ^ 31 then (m : ℤ) else 1) * min (d : ℤ) (2 ^ 63 - 1) = d * m := by
        rw [min_eq_left (by omega)]
        split_ifs with hlt
        · exact mul_comm _ _
        · rw [one_mul]
          exact_mod_cast (hlen.resolve_left hlt).symm
      have hnonneg : (0 : ℤ) ≤ d * m := mul_nonneg (Int.natCast_nonneg d) (Int.natCast_nonneg m)
      have hbound : (d : ℤ) * m < 2 ^ 63 := by exact_mod_cast hfit
      rw [heq, hprod, longLong_eq_some_iff]
      exact ⟨rfl, by omega, hbound⟩
    · intro hall
      exact absurd (hall d m hsize) (not_le.mpr hfit)

theorem parses_of_not_size (h : 0 ≤ toInt arg.length) (hno : ∀ d m, ¬ IsSize arg d m) :
    Parses arg ↔ Rejected (taken arg) ∨ ¬ Lettered (taken arg) ∧ MinusOne arg := by
  have hparses : Parses arg ↔ sizetoll arg = some (-1) :=
    ⟨fun hp ↦ hp.other fun d m hs ↦ absurd hs (hno d m),
      fun hr ↦ ⟨fun d m hs ↦ absurd hs (hno d m), fun _ ↦ hr⟩⟩
  rw [hparses, ← ending_eq_none_iff, ← strtoll_eq_neg_one_iff]
  cases he : ending (taken arg) with
  | none => exact iff_of_true (sizetoll_of_none h he) (.inl rfl)
  | some mult =>
    rw [sizetoll_of_some h he, or_iff_right (by simp)]
    by_cases hl : Lettered (taken arg)
    · refine iff_of_false ?_ fun hr ↦ hr.1 hl
      obtain ⟨q, c, hq, hc⟩ := hl
      rw [hq, ending_concat hc] at he
      obtain ⟨mult', hm, he⟩ := Option.bind_eq_some_iff.mp he
      split_ifs at he with hdigits
      cases he
      have harg : arg = q ++ c :: arg.drop (toInt arg.length).toNat := by
        rw [← List.singleton_append, ← List.append_assoc, ← hq]
        exact (List.take_append_drop _ _).symm
      have hvalue : 0 ≤ strtoll arg := by
        rw [harg, strtoll_digits (List.all_eq_true.mp hdigits)]
        · omega
        · intro c' hc'
          obtain rfl := Option.some.inj hc'
          exact hc
      exact longLong_ne_neg_one (multiplier_pos hm).le hvalue
    · rw [ending_of_not_lettered hl] at he
      obtain rfl := Option.some.inj he
      rw [one_mul, longLong_eq_some_iff, and_iff_left (strtoll_range arg), and_iff_right hl]

/-- Exactly these texts are treated as they should be. -/
theorem parses_iff (arg : List Char) :
    Parses arg ↔ 0 ≤ toInt arg.length ∧
      ((∃ d m, IsSize arg d m ∧ d * m < 2 ^ 63 ∧ (arg.length < 2 ^ 31 ∨ d * m = d)) ∨
        Rejected (taken arg) ∨ ¬ Lettered (taken arg) ∧ MinusOne arg) := by
  rcases lt_or_ge (toInt arg.length) 0 with hneg | h
  · refine iff_of_false (fun hp ↦ ?_) fun hr ↦ hneg.not_ge hr.1
    have hr := sizetoll_of_neg hneg
    by_cases hfit : ∃ d m, IsSize arg d m ∧ d * m < 2 ^ 63
    · obtain ⟨d, m, hs, hlt⟩ := hfit
      cases hr.symm.trans (hp.size d m hs hlt)
    · push Not at hfit
      cases hr.symm.trans (hp.other hfit)
  · rw [and_iff_right h]
    by_cases hsize : ∃ d m, IsSize arg d m
    · obtain ⟨d, m, hs⟩ := hsize
      rw [parses_of_size h hs]
      constructor
      · rintro ⟨hfit, hlen⟩
        exact .inl ⟨d, m, hs, hfit, hlen⟩
      · rintro (⟨d', m', hs', hr⟩ | hrejected | ⟨-, hminus⟩)
        · obtain ⟨rfl, rfl⟩ := hs.unique hs'
          exact hr
        · rw [← ending_eq_none_iff] at hrejected
          rcases lt_or_ge arg.length (2 ^ 31) with hlt | hge
          · cases hrejected.symm.trans (hs.ending_of_lt hlt)
          · cases hrejected.symm.trans (hs.ending_of_ge hge)
        · have hvalue := (strtoll_eq_neg_one_iff arg).mpr hminus
          rw [hs.strtoll_eq] at hvalue
          omega
    · push Not at hsize
      rw [parses_of_not_size h hsize]
      constructor
      · exact .inr
      · rintro (⟨d, m, hs, -⟩ | hr)
        · exact absurd hs (hsize d m)
        · exact hr

/-- `1.5` is taken for 1, as only the branch for suffixes looks at every character. -/
theorem stray_character : ¬ ∀ arg, Parses arg := by
  intro h
  have hno : ∀ d m, ¬ IsSize "1.5".toList d m := by
    rintro d m ⟨w, l, he, -, hw, -, hl⟩
    have hlen : w.length + l.length = 3 := by
      rw [← List.length_append, ← he]
      rfl
    have hdot : '.' ∈ w := by
      rcases hl.cases_on with ⟨rfl, -⟩ | ⟨c, rfl, hc, -⟩
      · rw [List.append_nil] at he
        exact he ▸ by decide
      · have hw2 := congrArg (List.take 2) he
        rw [List.take_append_of_le_length (by simp at hlen; omega)] at hw2
        have hmem : '.' ∈ "1.5".toList.take 2 := by decide
        exact List.mem_of_mem_take (hw2 ▸ hmem)
    exact absurd (hw '.' hdot) (by decide)
  have hr := (h "1.5".toList).other fun d m hs ↦ absurd hs (hno d m)
  exact absurd hr (by decide +kernel)

end LibMicro.Sizes
