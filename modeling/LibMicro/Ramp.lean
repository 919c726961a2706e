import Mathlib.Algebra.Order.Field.Basic
import Mathlib.Order.Lattice
import Mathlib.Tactic.Linarith

namespace LibMicro.Ramp

variable {α : Type*} [Field α] [LinearOrder α] [IsStrictOrderedRing α] {a b c d x y : α}

/-- Climbs from 0 at `a` to 1 at `b`, and is level before and behind. -/
def ramp (a b x : α) : α := max 0 (min 1 ((x - a) / (b - a)))

omit [IsStrictOrderedRing α] in
theorem ramp_nonneg (a b x : α) : 0 ≤ ramp a b x := le_max_left _ _

theorem ramp_le_one (a b x : α) : ramp a b x ≤ 1 := max_le zero_le_one (min_le_left _ _)

theorem ramp_mono (hab : a < b) (h : x ≤ y) : ramp a b x ≤ ramp a b y := by
  have hpos : 0 < b - a := sub_pos.mpr hab
  unfold ramp
  gcongr

theorem ramp_before (hab : a < b) (h : x ≤ a) : ramp a b x = 0 := by
  have hneg : (x - a) / (b - a) ≤ 0 :=
    div_nonpos_of_nonpos_of_nonneg (sub_nonpos.mpr h) (sub_pos.mpr hab).le
  rw [ramp, min_eq_right (hneg.trans zero_le_one), max_eq_left hneg]

theorem ramp_behind (hab : a < b) (h : b ≤ x) : ramp a b x = 1 := by
  have hone : 1 ≤ (x - a) / (b - a) :=
    (one_le_div (sub_pos.mpr hab)).mpr (sub_le_sub_right h a)
  rw [ramp, min_eq_left hone, max_eq_right zero_le_one]

theorem ramp_between (hab : a < b) (ha : a ≤ x) (hb : x ≤ b) :
    ramp a b x = (x - a) / (b - a) := by
  have hpos : 0 < b - a := sub_pos.mpr hab
  rw [ramp, min_eq_right ((div_le_one hpos).mpr (sub_le_sub_right hb a)),
    max_eq_right (div_nonneg (sub_nonneg.mpr ha) hpos.le)]

theorem ramp_max (hab : a < b) (hc : c ≤ a) : ramp a b (max x c) = ramp a b x := by
  rcases le_total c x with h | h
  · rw [max_eq_left h]
  · rw [max_eq_right h, ramp_before hab hc, ramp_before hab (h.trans hc)]

theorem ramp_min (hab : a < b) (hd : b ≤ d) : ramp a b (min d x) = ramp a b x := by
  rcases le_total x d with h | h
  · rw [min_eq_right h]
  · rw [min_eq_left h, ramp_behind hab hd, ramp_behind hab (hd.trans h)]

theorem ramp_next (hab : a < b) (hbc : b ≤ c) (hcd : c < d) :
    ramp a b x = 1 ∨ ramp c d x = 0 :=
  (le_total b x).imp (ramp_behind hab) fun h ↦ ramp_before hcd (h.trans hbc)

end LibMicro.Ramp
