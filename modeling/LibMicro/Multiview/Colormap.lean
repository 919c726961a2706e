import Mathlib.Tactic.FieldSimp
import Mathlib.Tactic.NormNum
import LibMicro.Ramp
import LibMicro.Multiview.Model

namespace LibMicro.Multiview

open Text Decimal Ramp Truncation

structure Channels where
  r : ℚ
  g : ℚ
  b : ℚ

/-- `r`, `g` and `b` in `colormap`, where `#ffffff` stands for the greatest value of each. -/
def channels (value : ℚ) : Channels :=
  let value := if value ≤ 1 / 5 then 1 / 5 else value
  let value := if value > 5 then 5 else value
  if value < 9 / 10 then
    ⟨colorcalc (1 / 5) value (9 / 10) 0 255, colorcalc (1 / 5) value (9 / 10) 153 255,
      colorcalc (1 / 5) value (9 / 10) 0 255⟩
  else if value < 11 / 10 then ⟨255, 255, 255⟩
  else ⟨255, colorcalc (11 / 10) value 5 255 0, colorcalc (11 / 10) value 5 255 0⟩

def Channels.bgcolor (c : Channels) : List Char := '#' :: (hex c.r ++ hex c.g ++ hex c.b)

/-- Channels for which two digits are enough. -/
structure Color extends Channels where
  r_mem : r ∈ Set.Icc 0 255
  g_mem : g ∈ Set.Icc 0 255
  b_mem : b ∈ Set.Icc 0 255

variable {f f' x b : ℚ}

def greenToWhite (f : ℚ) : ℚ := ramp (1 / 5) (9 / 10) f

def whiteToRed (f : ℚ) : ℚ := ramp (11 / 10) 5 f

theorem greenToWhite_mem (f : ℚ) : greenToWhite f ∈ Set.Icc 0 1 :=
  ⟨ramp_nonneg .., ramp_le_one ..⟩

theorem whiteToRed_mem (f : ℚ) : whiteToRed f ∈ Set.Icc 0 1 :=
  ⟨ramp_nonneg .., ramp_le_one ..⟩

theorem white_between (f : ℚ) : greenToWhite f = 1 ∨ whiteToRed f = 0 :=
  ramp_next (by norm_num) (by norm_num) (by norm_num)

def scale (f : ℚ) : Color where
  r := 255 * greenToWhite f
  g := 153 + 102 * greenToWhite f - 255 * whiteToRed f
  b := 255 * greenToWhite f - 255 * whiteToRed f
  r_mem := by
    obtain ⟨h₀, h₁⟩ := greenToWhite_mem f
    constructor <;> linarith
  g_mem := by
    obtain ⟨h₀, h₁⟩ := greenToWhite_mem f
    obtain ⟨h₂, h₃⟩ := whiteToRed_mem f
    rcases white_between f with h | h <;> constructor <;> linarith
  b_mem := by
    obtain ⟨h₀, h₁⟩ := greenToWhite_mem f
    obtain ⟨h₂, h₃⟩ := whiteToRed_mem f
    rcases white_between f with h | h <;> constructor <;> linarith

theorem colorcalc_eq {min value max : ℚ} (h : min < max) (h₀ : min ≤ value) (h₁ : value ≤ max)
    (mincolor maxcolor : ℚ) :
    colorcalc min value max mincolor maxcolor =
      mincolor + (maxcolor - mincolor) * ramp min max value := by
  rw [colorcalc, ramp_between h h₀ h₁]
  ring

theorem greenToWhite_cut (f : ℚ) : greenToWhite (min 5 (max f (1 / 5))) = greenToWhite f := by
  rw [greenToWhite, ramp_min (by norm_num) (by norm_num), ramp_max (by norm_num) le_rfl,
    greenToWhite]

theorem whiteToRed_cut (f : ℚ) : whiteToRed (min 5 (max f (1 / 5))) = whiteToRed f := by
  rw [whiteToRed, ramp_min (by norm_num) le_rfl, ramp_max (by norm_num) (by norm_num), whiteToRed]

/-- The first two tests of `colormap` cut off what is beyond the ends of the scale. -/
theorem channels_eq_scale (f : ℚ) : channels f = (scale f).toChannels := by
  have hcut : (if (if f ≤ 1 / 5 then 1 / 5 else f) > 5 then 5 else if f ≤ 1 / 5 then 1 / 5 else f) =
      min 5 (max f (1 / 5)) := by
    rw [max_def, min_def_lt]
  have hlow : 1 / 5 ≤ min 5 (max f (1 / 5)) := le_min (by norm_num) (le_max_right _ _)
  have hhigh : min 5 (max f (1 / 5)) ≤ 5 := min_le_left _ _
  simp only [channels, hcut, scale, ← greenToWhite_cut f, ← whiteToRed_cut f]
  generalize min 5 (max f (1 / 5)) = value at hlow hhigh
  unfold greenToWhite whiteToRed
  rcases lt_or_ge value (9 / 10) with hgreen | hwhite
  · have hzero : ramp (11 / 10) 5 value = 0 := ramp_before (by norm_num) (by linarith)
    rw [if_pos hgreen, hzero]
    simp only [colorcalc_eq (by norm_num) hlow hgreen.le, Channels.mk.injEq]
    refine ⟨?_, ?_, ?_⟩ <;> ring
  · rw [if_neg hwhite.not_gt, ramp_behind (by norm_num) hwhite]
    rcases lt_or_ge value (11 / 10) with hwhite' | hred
    · rw [if_pos hwhite', ramp_before (by norm_num) hwhite'.le]
      norm_num
    · rw [if_neg hred.not_gt]
      simp only [colorcalc_eq (by norm_num) hred hhigh, Channels.mk.injEq]
      refine ⟨?_, ?_, ?_⟩ <;> ring

theorem trunc_byte (h : x ∈ Set.Icc 0 255) : 0 ≤ trunc x ∧ trunc x ≤ 255 := by
  have hle : (⌊x⌋ : ℚ) ≤ 255 := (Int.floor_le x).trans h.2
  rw [trunc_of_nonneg h.1]
  exact ⟨Int.floor_nonneg.mpr h.1, by exact_mod_cast hle⟩

theorem hex_byte (h : x ∈ Set.Icc 0 255) :
    hex x = [((trunc x).toNat / 16).digitChar, ((trunc x).toNat % 16).digitChar] := by
  obtain ⟨h₀, h₁⟩ := trunc_byte h
  have hlt : (trunc x).toNat < 256 := by omega
  rw [hex]
  generalize (trunc x).toNat = n at hlt
  rcases Nat.lt_or_ge n 16 with hn | hn
  · rw [Nat.toDigits_of_lt_base hn, Nat.div_eq_of_lt hn, Nat.mod_eq_of_lt hn]
    rfl
  · rw [Nat.toDigits_of_base_le (by decide) hn, Nat.toDigits_of_lt_base (by omega)]
    rfl

theorem isHexDigit_digitChar : ∀ n < 16, (Nat.digitChar n).isHexDigit := by decide

theorem isHexDigit_hex (h : x ∈ Set.Icc 0 255) : (hex x).length = 2 ∧ ∀ c ∈ hex x, c.isHexDigit := by
  have hlt : (trunc x).toNat < 256 := by
    have := trunc_byte h
    omega
  rw [hex_byte h]
  refine ⟨rfl, fun c hc ↦ ?_⟩
  simp only [List.mem_cons, List.not_mem_nil, or_false] at hc
  rcases hc with rfl | rfl
  · exact isHexDigit_digitChar _ (by omega)
  · exact isHexDigit_digitChar _ (by omega)

def IsColor (l : List Char) : Prop := ∃ w, l = '#' :: w ∧ w.length = 6 ∧ ∀ c ∈ w, c.isHexDigit

theorem Color.isColor (c : Color) : IsColor c.bgcolor := by
  obtain ⟨hr, hr'⟩ := isHexDigit_hex c.r_mem
  obtain ⟨hg, hg'⟩ := isHexDigit_hex c.g_mem
  obtain ⟨hb, hb'⟩ := isHexDigit_hex c.b_mem
  refine ⟨_, rfl, ?_, ?_⟩
  · rw [List.length_append, List.length_append, hr, hg, hb]
  · intro d hd
    rcases List.mem_append.mp hd with hd | hd
    · rcases List.mem_append.mp hd with hd | hd
      · exact hr' d hd
      · exact hg' d hd
    · exact hb' d hd

theorem hex_255 : hex 255 = ['f', 'f'] := by
  have htrunc : trunc 255 = 255 := by
    rw [trunc_of_nonneg (by norm_num)]
    exact Int.floor_natCast 255
  rw [hex, htrunc]
  decide

theorem colormap_eq (f : ℚ) : colormap f = (channels f).bgcolor := by
  have hwhite : "#ffffff".toList = (Channels.mk 255 255 255).bgcolor := by
    rw [Channels.bgcolor, hex_255]
    rfl
  simp only [colormap, channels, hwhite, apply_ite Channels.bgcolor]
  rfl

theorem percentage_pos (h₀ : 0 < f) (h : f < 1) : 0 < percentage f := by
  have hone : 1 < 1 / f := (one_lt_div h₀).mpr h
  rw [percentage, if_neg h.not_gt]
  linarith [mul_one_div 100 f]

theorem percentage_one : percentage 1 = 0 := by
  norm_num [percentage]

theorem percentage_neg (h : 1 < f) : percentage f < 0 := by
  rw [percentage, if_pos h]
  linarith

theorem percentage_iff (h₀ : 0 < f) : (0 < percentage f ↔ f < 1) ∧ (percentage f = 0 ↔ f = 1) ∧
    (percentage f < 0 ↔ 1 < f) := by
  rcases lt_trichotomy f 1 with h | rfl | h
  · have hp := percentage_pos h₀ h
    exact ⟨iff_of_true hp h, iff_of_false hp.ne' h.ne, iff_of_false hp.not_gt h.not_gt⟩
  · rw [percentage_one]
    exact ⟨iff_of_false (lt_irrefl 0) (lt_irrefl 1), iff_of_true rfl rfl,
      iff_of_false (lt_irrefl 0) (lt_irrefl 1)⟩
  · have hp := percentage_neg h
    exact ⟨iff_of_false hp.not_gt h.not_gt, iff_of_false hp.ne h.ne', iff_of_true hp h⟩

theorem red_mono (h : f ≤ f') : (channels f).r ≤ (channels f').r := by
  have hw : greenToWhite f ≤ greenToWhite f' := ramp_mono (by norm_num) h
  simp only [channels_eq_scale, scale]
  linarith

/-- Red grows faster than green up to white, and then green becomes less. -/
theorem red_sub_green_mono (h : f ≤ f') :
    (channels f).r - (channels f).g ≤ (channels f').r - (channels f').g := by
  have hw : greenToWhite f ≤ greenToWhite f' := ramp_mono (by norm_num) h
  have hr : whiteToRed f ≤ whiteToRed f' := ramp_mono (by norm_num) h
  simp only [channels_eq_scale, scale]
  linarith

theorem trunc_red_mono (h : f ≤ f') : trunc (channels f).r ≤ trunc (channels f').r := by
  have hmem (f : ℚ) : 0 ≤ (channels f).r := by
    rw [channels_eq_scale]
    exact (scale f).r_mem.1
  rw [trunc_of_nonneg (hmem f), trunc_of_nonneg (hmem f')]
  exact Int.floor_le_floor (red_mono h)

theorem colormap_white (h₀ : 9 / 10 ≤ f) (h₁ : f < 11 / 10) : colormap f = "#ffffff".toList := by
  have hlow : ¬ f ≤ 1 / 5 := by linarith
  have hhigh : ¬ f > 5 := by linarith
  simp only [colormap, if_neg hlow, if_neg hhigh, if_neg h₀.not_gt, if_pos h₁]

theorem compareCell_positive {a b : Value} (ha : 0 < a.toNum) (hb : 0 < b.toNum)
    (hgt : b.gtZero) :
    compareCell a b = some (.compared (colormap (b.toNum / a.toNum)) b.toNum
      (percentage (b.toNum / a.toNum))) := by
  have hfactor : b.toNum / a.toNum ≠ 0 := (div_pos hb ha).ne'
  rw [compareCell, if_pos hgt, if_neg ha.ne']
  exact if_neg fun h ↦ hfactor h.2

theorem minus_mem_text (bgcolor : List Char) (hb : 0 < b) (percentage : ℚ) :
    '-' ∈ (Cell.compared bgcolor b percentage).text ↔ percentage < 0 := by
  have hplus : '-' ∉ (if percentage < 0 then [] else ['+']) := by
    split_ifs <;> decide
  have hend : '-' ∉ "%]".toList := by decide
  change '-' ∈ padLeft 11 (fixed 5 b) ++ '[' :: (padLeft 7
    ((if percentage < 0 then [] else ['+']) ++ fixed 1 percentage) ++ "%]".toList) ↔ _
  rw [List.mem_append, mem_padLeft (by decide), minus_mem_fixed, or_iff_right hb.not_gt,
    List.mem_cons, or_iff_right (by decide), List.mem_append, or_iff_left hend,
    mem_padLeft (by decide), List.mem_append, or_iff_right hplus, minus_mem_fixed]

/-- The slower the redder, the faster the greener, and the percentage has the sign that goes
with it. -/
theorem colormap_scale :
    (∀ f : ℚ, 0 < f → IsColor (colormap f) ∧ colormap f = (channels f).bgcolor ∧
      ∀ x ∈ [(channels f).r, (channels f).g, (channels f).b], 0 ≤ trunc x ∧ trunc x ≤ 255) ∧
    (∀ f f' : ℚ, 0 < f → f ≤ f' →
      (channels f).r ≤ (channels f').r ∧ trunc (channels f).r ≤ trunc (channels f').r ∧
        (channels f).r - (channels f).g ≤ (channels f').r - (channels f').g) ∧
    (∀ f : ℚ, 9 / 10 ≤ f → f < 11 / 10 → colormap f = "#ffffff".toList) ∧
    ∀ a b : Value, 0 < a.toNum → 0 < b.toNum → b.gtZero →
      ∃ bgcolor percentage, compareCell a b = some (.compared bgcolor b.toNum percentage) ∧
        (0 < percentage ↔ b.toNum < a.toNum) ∧ (percentage = 0 ↔ b.toNum = a.toNum) ∧
        (percentage < 0 ↔ a.toNum < b.toNum) ∧
        ('-' ∈ (Cell.compared bgcolor b.toNum percentage).text ↔ a.toNum < b.toNum) := by
  refine ⟨fun f _ ↦ ?_, fun f f' _ h ↦ ⟨red_mono h, trunc_red_mono h, red_sub_green_mono h⟩,
    fun f ↦ colormap_white, fun a b ha hb hgt ↦ ?_⟩
  · rw [colormap_eq, channels_eq_scale]
    refine ⟨(scale f).isColor, rfl, fun x hx ↦ trunc_byte ?_⟩
    simp only [List.mem_cons, List.not_mem_nil, or_false] at hx
    rcases hx with rfl | rfl | rfl
    · exact (scale f).r_mem
    · exact (scale f).g_mem
    · exact (scale f).b_mem
  · obtain ⟨hpos, hzero, hneg⟩ := percentage_iff (div_pos hb ha)
    rw [div_lt_one ha] at hpos
    rw [div_eq_one_iff_eq ha.ne'] at hzero
    rw [one_lt_div ha] at hneg
    exact ⟨_, _, compareCell_positive ha hb hgt, hpos, hzero, hneg,
      (minus_mem_text _ hb _).trans hneg⟩

theorem colormap_scale_half :
    IsColor (colormap (1 / 2)) ∧ trunc (channels (1 / 2)).r ≤ trunc (channels 2).r ∧
      colormap 1 = "#ffffff".toList ∧
      ∃ bgcolor percentage, compareCell (.num 2) (.num 1) = some (.compared bgcolor 1 percentage) ∧
        0 < percentage := by
  obtain ⟨hvalid, hmono, hwhite, hsign⟩ := colormap_scale
  refine ⟨(hvalid _ (by norm_num)).1, (hmono _ 2 (by norm_num) (by norm_num)).2.1,
    hwhite 1 (by norm_num) (by norm_num), ?_⟩
  obtain ⟨bgcolor, percentage, hcell, hpos, -⟩ := hsign (.num 2) (.num 1) (by norm_num [Value.toNum])
    (by norm_num [Value.toNum]) (by decide)
  exact ⟨bgcolor, percentage, hcell, hpos.mpr (by norm_num [Value.toNum])⟩

end LibMicro.Multiview
