import Mathlib.Data.List.Sort
import Mathlib.Order.Lattice

namespace LibMicro.OrderStatistics

variable {α : Type} [LinearOrder α] {l : List α} {x : α} {k : ℕ}

/-- At least `k + 1` elements are at most `x`, and all but `k` are at least `x`. -/
structure HasRank (l : List α) (k : ℕ) (x : α) : Prop where
  mem : x ∈ l
  below : k + 1 ≤ l.countP (· ≤ x)
  above : l.length - k ≤ l.countP (x ≤ ·)

theorem HasRank.perm {l' : List α} (h : HasRank l k x) (hp : l.Perm l') : HasRank l' k x where
  mem := hp.mem_iff.mp h.mem
  below := hp.countP_eq _ ▸ h.below
  above := hp.length_eq ▸ hp.countP_eq _ ▸ h.above

theorem hasRank_getElem (hl : l.Pairwise (· ≤ ·)) (hk : k < l.length) : HasRank l k l[k] where
  mem := List.getElem_mem hk
  below := by
    have hall : ∀ y ∈ l.take (k + 1), (fun y ↦ decide (y ≤ l[k])) y = true := by
      intro y hy
      obtain ⟨i, hi, rfl⟩ := List.mem_take_iff_getElem.mp hy
      rcases Nat.lt_or_ge i k with hik | hik
      · exact decide_eq_true (List.pairwise_iff_getElem.mp hl i k (by omega) hk hik)
      · obtain rfl : i = k := by omega
        exact decide_eq_true le_rfl
    have hcount := List.countP_eq_length.mpr hall
    rw [List.length_take_of_le hk] at hcount
    exact hcount.symm.trans_le (List.take_sublist _ _).countP_le
  above := by
    have hall : ∀ y ∈ l.drop k, (fun y ↦ decide (l[k] ≤ y)) y = true := by
      intro y hy
      obtain ⟨i, hi, rfl⟩ := List.mem_drop_iff_getElem.mp hy
      rcases Nat.eq_zero_or_pos i with rfl | h0
      · exact decide_eq_true le_rfl
      · exact decide_eq_true (List.pairwise_iff_getElem.mp hl k (k + i) hk (by omega) (by omega))
    have hcount := List.countP_eq_length.mpr hall
    rw [List.length_drop] at hcount
    exact hcount.symm.trans_le (List.drop_sublist _ _).countP_le

end LibMicro.OrderStatistics
