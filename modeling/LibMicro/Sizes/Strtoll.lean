import Mathlib.Data.List.Induction
import Mathlib.Data.List.TakeWhile
import LibMicro.Sizes.Model

namespace LibMicro.Sizes

open Decimal

variable {w l : List Char} {c : Char}

theorem isspace_iff : isspace c ↔ c.toNat = 32 ∨ 9 ≤ c.toNat ∧ c.toNat ≤ 13 := by
  rw [isspace, decide_eq_true_iff, ← Char.toNat_inj]
  exact Iff.rfl

theorem isAlpha_iff :
    c.isAlpha ↔ 65 ≤ c.toNat ∧ c.toNat ≤ 90 ∨ 97 ≤ c.toNat ∧ c.toNat ≤ 122 := by
  constructor
  · intro h
    rcases Bool.or_eq_true_iff.mp h with h | h
    · exact .inl (of_decide_eq_true h)
    · obtain ⟨h₁, h₂⟩ := Bool.and_eq_true_iff.mp h
      exact .inr ⟨of_decide_eq_true h₁, of_decide_eq_true h₂⟩
  · intro h
    apply Bool.or_eq_true_iff.mpr
    rcases h with h | h
    · exact .inl (decide_eq_true h)
    · exact .inr (Bool.and_eq_true_iff.mpr ⟨decide_eq_true h.1, decide_eq_true h.2⟩)

theorem isDigit_iff : c.isDigit ↔ 48 ≤ c.toNat ∧ c.toNat ≤ 57 := Char.isDigit_iff_toNat

theorem not_isDigit_of_isAlpha (h : c.isAlpha) : c.isDigit = false := by
  rw [← Bool.not_eq_true, isDigit_iff]
  rw [isAlpha_iff] at h
  omega

theorem skip_nothing (h : ∀ c, l.head? = some c → c.isDigit ∨ c.isAlpha) :
    sign (l.dropWhile isspace) = (false, l) := by
  cases l with
  | nil => rfl
  | cons c l =>
    have hc := h c rfl
    rw [isDigit_iff, isAlpha_iff] at hc
    have hspace : ¬ isspace c := by
      rw [isspace_iff]
      omega
    rw [List.dropWhile_cons_of_neg hspace]
    unfold sign
    split
    · next he =>
      cases he
      exact absurd hc (by decide)
    · next he =>
      cases he
      exact absurd hc (by decide)
    · rfl

theorem digits_append_alpha (hw : ∀ c ∈ w, c.isDigit) (hl : ∀ c, l.head? = some c → c.isAlpha) :
    digits (w ++ l) = (w, l) := by
  apply digits_append hw
  cases l with
  | nil => rfl
  | cons c l =>
    have hc := not_isDigit_of_isAlpha (hl c rfl)
    simp [digits, hc]

theorem strtoll_digits (hw : ∀ c ∈ w, c.isDigit) (hl : ∀ c, l.head? = some c → c.isAlpha) :
    strtoll (w ++ l) = min (Nat.ofDigitChars 10 w 0 : ℤ) (2 ^ 63 - 1) := by
  have hhead : ∀ c, (w ++ l).head? = some c → c.isDigit ∨ c.isAlpha := by
    intro c hc
    cases w with
    | nil => exact .inr (hl c hc)
    | cons a w =>
      obtain rfl := Option.some.inj hc
      exact .inl (hw a List.mem_cons_self)
  simp only [strtoll, skip_nothing hhead, digits_append_alpha hw hl]
  rfl

theorem strtoll_range (s : List Char) : -2 ^ 63 ≤ strtoll s ∧ strtoll s < 2 ^ 63 := by
  simp only [strtoll]
  split_ifs <;> omega

theorem ofDigitChars_concat (w : List Char) (c : Char) :
    Nat.ofDigitChars 10 (w ++ [c]) 0 = 10 * Nat.ofDigitChars 10 w 0 + (c.toNat - 48) := by
  rw [Nat.ofDigitChars_append, Nat.ofDigitChars_cons, Nat.ofDigitChars_nil]
  rfl

theorem ofDigitChars_eq_zero_iff (hw : ∀ c ∈ w, c.isDigit) :
    Nat.ofDigitChars 10 w 0 = 0 ↔ ∃ k, w = List.replicate k '0' := by
  induction w using List.reverseRecOn with
  | nil => exact iff_of_true rfl ⟨0, rfl⟩
  | append_singleton w c ih =>
    rw [List.forall_mem_append, List.forall_mem_singleton] at hw
    obtain ⟨hw, hc⟩ := hw
    have hzero : c.toNat - 48 = 0 ↔ c = '0' := by
      rw [isDigit_iff] at hc
      rw [← Char.toNat_inj]
      change _ ↔ c.toNat = 48
      omega
    rw [ofDigitChars_concat, Nat.add_eq_zero_iff, hzero, Nat.mul_eq_zero, or_iff_right (by decide),
      ih hw]
    constructor
    · rintro ⟨⟨k, rfl⟩, rfl⟩
      exact ⟨k + 1, List.replicate_succ'.symm⟩
    · rintro ⟨k, hk⟩
      cases k with
      | zero => simp at hk
      | succ k =>
        rw [List.replicate_succ'] at hk
        obtain ⟨rfl, he⟩ := List.append_inj' hk rfl
        exact ⟨⟨k, rfl⟩, by simpa using he⟩

theorem ofDigitChars_eq_one_iff (hw : ∀ c ∈ w, c.isDigit) :
    Nat.ofDigitChars 10 w 0 = 1 ↔ ∃ k, w = List.replicate k '0' ++ ['1'] := by
  constructor
  · intro h
    induction w using List.reverseRecOn with
    | nil => cases h
    | append_singleton w c ih =>
      rw [List.forall_mem_append, List.forall_mem_singleton, isDigit_iff] at hw
      rw [ofDigitChars_concat] at h
      obtain ⟨k, hk⟩ := (ofDigitChars_eq_zero_iff hw.1).mp (by omega)
      have hc : c = '1' := by
        rw [← Char.toNat_inj]
        change c.toNat = 49
        omega
      exact ⟨k, by rw [hk, hc]⟩
  · rintro ⟨k, rfl⟩
    rw [ofDigitChars_concat, Nat.ofDigitChars_replicate_zero]
    rfl

def MinusOne (s : List Char) : Prop :=
  ∃ blanks k rest, s = blanks ++ '-' :: (List.replicate k '0' ++ '1' :: rest) ∧
    (∀ c ∈ blanks, isspace c) ∧ ∀ c, rest.head? = some c → ¬ c.isDigit

theorem sign_eq_true (h : (sign l).1 = true) : l = '-' :: (sign l).2 := by
  unfold sign at h ⊢
  split at h
  · rfl
  · cases h
  · cases h

theorem strtoll_eq_neg_one_iff (s : List Char) : strtoll s = -1 ↔ MinusOne s := by
  constructor
  · intro h
    simp only [strtoll] at h
    split_ifs at h with hneg
    · have hone : Nat.ofDigitChars 10 (digits (sign (s.dropWhile isspace)).2).1 0 = 1 := by omega
      have hdigits : ∀ c ∈ (digits (sign (s.dropWhile isspace)).2).1, c.isDigit :=
        fun c hc ↦ List.mem_takeWhile_imp hc
      obtain ⟨k, hk⟩ := (ofDigitChars_eq_one_iff hdigits).mp hone
      refine ⟨s.takeWhile isspace, k, (digits (sign (s.dropWhile isspace)).2).2, ?_,
        fun c hc ↦ List.mem_takeWhile_imp hc, fun c hc ↦ ?_⟩
      · have hsplit : (digits (sign (s.dropWhile isspace)).2).1 ++
            (digits (sign (s.dropWhile isspace)).2).2 = (sign (s.dropWhile isspace)).2 :=
          List.takeWhile_append_dropWhile
        rw [hk, List.append_assoc, List.singleton_append] at hsplit
        rw [hsplit, ← sign_eq_true hneg, List.takeWhile_append_dropWhile]
      · have hstop := List.head?_dropWhile_not Char.isDigit (sign (s.dropWhile isspace)).2
        have hhead : ((sign (s.dropWhile isspace)).2.dropWhile Char.isDigit).head? = some c := hc
        rw [hhead] at hstop
        simpa using hstop
    · omega
  · rintro ⟨blanks, k, rest, rfl, hblanks, hrest⟩
    have hskip : (blanks ++ '-' :: (List.replicate k '0' ++ '1' :: rest)).dropWhile isspace =
        '-' :: (List.replicate k '0' ++ '1' :: rest) :=
      List.dropWhile_append_of_pos hblanks
    have hones : ∀ c ∈ List.replicate k '0' ++ ['1'], c.isDigit := by
      intro c hc
      rcases List.mem_append.mp hc with hc | hc
      · rw [List.eq_of_mem_replicate hc]
        rfl
      · rw [List.mem_singleton.mp hc]
        rfl
    have hdigits : (digits (List.replicate k '0' ++ '1' :: rest)).1 =
        List.replicate k '0' ++ ['1'] := by
      rw [← List.singleton_append, ← List.append_assoc]
      exact Text.takeWhile_append_of_head hones hrest
    simp only [strtoll, hskip, sign, hdigits, if_true, (ofDigitChars_eq_one_iff hones).mpr ⟨k, rfl⟩]
    rfl

end LibMicro.Sizes
