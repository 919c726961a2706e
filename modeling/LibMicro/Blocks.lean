import Mathlib.Data.Nat.Basic
import Mathlib.Order.CompletePartialOrder
import Mathlib.Order.Interval.Set.Disjoint
import Mathlib.Tactic.Common

namespace LibMicro.Blocks

variable {P T p t p' t' base size len line n i j a b : ℕ}

/-- The place of a pair in a table with `T` columns that is stored row by row. -/
def rowMajor (T p t : ℕ) : ℕ := p * T + t

theorem rowMajor_lt (hp : p < P) (ht : t < T) : rowMajor T p t < P * T := by
  have hrow := Nat.mul_le_mul_right T (Nat.succ_le_of_lt hp)
  rw [Nat.succ_mul] at hrow
  unfold rowMajor
  omega

theorem rowMajor_inj (ht : t < T) (ht' : t' < T) (h : rowMajor T p t = rowMajor T p' t') :
    p = p' ∧ t = t' := by
  have hpos : 0 < T := Nat.zero_lt_of_lt ht
  have hp : ∀ q s, s < T → rowMajor T q s / T = q := by
    intro q s hs
    rw [rowMajor, Nat.mul_comm, Nat.mul_add_div hpos, Nat.div_eq_of_lt hs, Nat.add_zero]
  have heq : p = p' := by
    rw [← hp p t ht, h, hp p' t' ht']
  subst heq
  exact ⟨rfl, Nat.add_left_cancel h⟩

def block (base size len i : ℕ) : Set ℕ := Set.Ico (base + i * size) (base + i * size + len)

theorem block_end_le (hl : len ≤ size) (hi : i < n) : i * size + len ≤ n * size := by
  have hrow := Nat.mul_le_mul_right size (Nat.succ_le_of_lt hi)
  rw [Nat.succ_mul] at hrow
  omega

theorem line_lt (hbase : line ∣ base) (hsize : line ∣ size) (hl : len ≤ size) (hij : i < j)
    (ha : a ∈ block base size len i) (hb : b ∈ block base size len j) : a / line < b / line := by
  obtain ⟨m, hm⟩ := Nat.dvd_add hbase (Nat.dvd_mul_left_of_dvd hsize j)
  have hend := block_end_le hl hij
  have hlt : a < line * m := by
    have := ha.2
    omega
  have hge : line * m ≤ b := hm ▸ hb.1
  have hpos : 0 < line := Nat.pos_of_mul_pos_right (Nat.zero_lt_of_lt hlt)
  calc a / line < m := Nat.div_lt_of_lt_mul hlt
    _ ≤ b / line := (Nat.le_div_iff_mul_le hpos).mpr (Nat.mul_comm m line ▸ hge)

theorem line_ne (hbase : line ∣ base) (hsize : line ∣ size) (hl : len ≤ size) (hij : i ≠ j)
    (ha : a ∈ block base size len i) (hb : b ∈ block base size len j) : a / line ≠ b / line := by
  rcases Nat.lt_or_gt_of_ne hij with hlt | hgt
  · exact Nat.ne_of_lt (line_lt hbase hsize hl hlt ha hb)
  · exact Nat.ne_of_gt (line_lt hbase hsize hl hgt hb ha)

theorem block_disjoint (hl : len ≤ size) (hij : i ≠ j) :
    Disjoint (block base size len i) (block base size len j) := by
  apply Set.disjoint_left.mpr
  intro a ha hb
  exact line_ne (Nat.one_dvd base) (Nat.one_dvd size) hl hij ha hb rfl

end LibMicro.Blocks
