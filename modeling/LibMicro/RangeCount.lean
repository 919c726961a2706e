import Mathlib.Data.List.Nodup
import Mathlib.Data.List.Perm.Basic
import Mathlib.Data.List.Range
import Mathlib.Tactic.Common

namespace LibMicro.RangeCount

theorem countP_range_succ (p : ℕ → Bool) (n : ℕ) :
    (List.range (n + 1)).countP p = (List.range n).countP p + if p n then 1 else 0 := by
  rw [List.range_succ, List.countP_append, List.countP_singleton]

theorem countP_range_lt (m n : ℕ) : (List.range n).countP (fun i ↦ decide (i < m)) = min m n := by
  induction n with
  | zero => simp
  | succ n ih =>
    rw [countP_range_succ, ih]
    by_cases h : n < m
    · simp only [h, decide_true, if_true]
      omega
    · simp only [h, decide_false, Bool.false_eq_true, if_false]
      omega

theorem countP_range_or (a w n : ℕ) :
    (List.range n).countP (fun i ↦ decide (a ≤ i ∨ i < w)) = min w n + (n - max a w) := by
  induction n with
  | zero => simp
  | succ n ih =>
    rw [countP_range_succ, ih]
    by_cases h : a ≤ n ∨ n < w
    · simp only [h, decide_true, if_true]
      omega
    · simp only [h, decide_false, Bool.false_eq_true, if_false]
      omega

theorem countP_range_mem {l : List ℕ} {n : ℕ} (hd : l.Nodup) (hl : ∀ x ∈ l, x < n)
    (p : ℕ → Bool) : (List.range n).countP (fun x ↦ decide (x ∈ l) && p x) = l.countP p := by
  have hp : ((List.range n).filter fun x ↦ decide (x ∈ l)).Perm l := by
    apply (List.perm_ext_iff_of_nodup (List.nodup_range.filter _) hd).mpr
    intro x
    rw [List.mem_filter, List.mem_range, decide_eq_true_iff]
    exact ⟨fun h ↦ h.2, fun h ↦ ⟨hl x h, h⟩⟩
  rw [← hp.countP_eq p, List.countP_filter]
  apply List.countP_congr
  intro x _
  rw [Bool.and_comm]

end LibMicro.RangeCount
