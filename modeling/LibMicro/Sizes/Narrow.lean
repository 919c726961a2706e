import Mathlib.Data.Int.ModEq
import LibMicro.Sizes.Grammar

namespace LibMicro.Sizes

variable {arg p : List Char} {c : Char} {v mult : ℤ}

def FitsInt (v : ℤ) : Prop := -2 ^ 31 ≤ v ∧ v < 2 ^ 31

theorem toInt_fits (v : ℤ) : FitsInt (toInt v) := by
  have h₁ := Int.le_bmod (x := v) (m := 2 ^ 32) (by norm_num)
  have h₂ := Int.bmod_lt (x := v) (m := 2 ^ 32) (by norm_num)
  constructor
  · exact h₁
  · exact h₂

theorem toInt_of_fits (h : FitsInt v) : toInt v = v := by
  apply Int.bmod_eq_of_le
  · exact h.1
  · exact h.2

theorem toInt_eq_neg_one_iff : toInt v = -1 ↔ v ≡ -1 [ZMOD 2 ^ 32] := by
  unfold toInt Int.ModEq
  rw [Int.bmod_def]
  split_ifs <;> omega

theorem multiplier_le (h : multiplier c = some mult) : mult ≤ 2 ^ 30 := by
  unfold multiplier at h
  split at h <;> cases h <;> decide

theorem ending_bound (h : ending p = some mult) : 0 ≤ mult ∧ mult ≤ 2 ^ 30 := by
  by_cases hl : Lettered p
  · obtain ⟨q, c, rfl, hc⟩ := hl
    rw [ending_concat hc] at h
    obtain ⟨mult', hm, he⟩ := Option.bind_eq_some_iff.mp h
    split_ifs at he
    cases he
    exact ⟨(multiplier_pos hm).le, multiplier_le hm⟩
  · rw [ending_of_not_lettered hl] at h
    cases h
    decide

theorem suffix_bound (h : suffix arg = some (some mult)) : 0 ≤ mult ∧ mult ≤ 2 ^ 30 := by
  rcases lt_or_ge (toInt arg.length) 0 with hneg | hlen
  · rw [suffix_of_neg hneg] at h
    cases h
  · rw [suffix_eq hlen] at h
    exact ending_bound (Option.some.inj h)

theorem longLong_mul (h₀ : 0 ≤ mult) (h : mult ≤ 2 ^ 30) (hv : FitsInt v) :
    longLong (mult * v) = some (mult * v) := by
  have hlow := mul_le_mul_of_nonneg_left hv.1 h₀
  have hhigh := mul_le_mul_of_nonneg_left hv.2.le h₀
  apply if_pos
  constructor
  · linarith
  · linarith

theorem sizetoint_eq (h : sizetoll arg = some v) : sizetoint arg = some (toInt v) := by
  cases hr : suffix arg with
  | none =>
    rw [sizetoll, hr] at h
    cases h
  | some r =>
    rw [sizetoll, hr] at h
    rw [sizetoint, hr]
    cases r with
    | none =>
      cases h
      rfl
    | some mult =>
      obtain ⟨hpos, hle⟩ := suffix_bound hr
      have hfits := longLong_mul hpos hle (toInt_fits (strtoll arg))
      have hv : mult * strtoll arg = v := (longLong_eq_some_iff.mp h).1
      have hwrap : toInt (mult * toInt (strtoll arg)) = toInt v := by
        rw [← hv]
        exact Int.mul_bmod_bmod
      simp only [Option.bind_eq_bind, Option.bind_some, atoi, hfits, hwrap, Option.pure_def]

/-- The two functions agree on what fits. Of what does not, only -1 modulo `2 ^ 32` is
reported as an error. -/
theorem sizetoint_agrees_iff (arg : List Char) (v : ℤ) (h : sizetoll arg = some v) :
    ((FitsInt v → sizetoint arg = some v) ∧ (¬ FitsInt v → sizetoint arg = some (-1))) ↔
      FitsInt v ∨ v ≡ -1 [ZMOD 2 ^ 32] := by
  rw [sizetoint_eq h, Option.some_inj, Option.some_inj, toInt_eq_neg_one_iff]
  constructor
  · intro hr
    exact or_iff_not_imp_left.mpr hr.2
  · intro hr
    exact ⟨toInt_of_fits, or_iff_not_imp_left.mp hr⟩

theorem sizetoint_agrees_iff_64k :
    ((FitsInt 65536 → sizetoint "64k".toList = some 65536) ∧
        (¬ FitsInt 65536 → sizetoint "64k".toList = some (-1))) ↔
      FitsInt 65536 ∨ 65536 ≡ -1 [ZMOD 2 ^ 32] :=
  sizetoint_agrees_iff "64k".toList 65536 (by decide +kernel)

/-- Four gigabytes become nothing. -/
theorem sizetoint_wraps :
    ¬ ∀ arg v, sizetoll arg = some v →
      (FitsInt v → sizetoint arg = some v) ∧ (¬ FitsInt v → sizetoint arg = some (-1)) := by
  intro h
  have hsize : sizetoll "4g".toList = some (2 ^ 32) := by decide +kernel
  have hr := (h _ _ hsize).2 fun hfits ↦ absurd hfits.2 (by norm_num)
  rw [sizetoint_eq hsize] at hr
  cases hr

end LibMicro.Sizes
