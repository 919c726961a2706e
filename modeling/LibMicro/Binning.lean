import Mathlib.Algebra.BigOperators.Intervals
import Mathlib.Data.Finset.Basic

namespace LibMicro.Binning

variable {α β κ : Type} [DecidableEq κ] (g : β → α → β) (f : α → κ)

def accumulate (c : κ → β) (l : List α) : κ → β :=
  l.foldl (fun c x ↦ Function.update c (f x) (g (c (f x)) x)) c

theorem accumulate_cons (c : κ → β) (x : α) (l : List α) :
    accumulate g f c (x :: l) = accumulate g f (Function.update c (f x) (g (c (f x)) x)) l := rfl

theorem accumulate_apply (c : κ → β) (l : List α) (k : κ) :
    accumulate g f c l k = (l.filter (f · = k)).foldl g (c k) := by
  induction l generalizing c with
  | nil => rfl
  | cons x l ih =>
    rw [accumulate_cons, ih]
    by_cases h : f x = k
    · rw [List.filter_cons_of_pos (by simpa using h), List.foldl_cons, h, Function.update_self]
    · rw [List.filter_cons_of_neg (by simpa using h), Function.update_of_ne (Ne.symm h)]

variable {f : α → ℤ} {l : List α} {n : ℕ}

theorem sum_length_filter (h : ∀ x ∈ l, 0 ≤ f x ∧ f x < n) :
    ((List.range n).map fun j : ℕ ↦ (l.filter (f · = (j : ℤ))).length).sum = l.length := by
  change ∑ j ∈ Finset.range n, (l.filter (f · = (j : ℤ))).length = l.length
  induction l with
  | nil => simp
  | cons x l ih =>
    obtain ⟨h₀, hn⟩ := h x List.mem_cons_self
    obtain ⟨k, hk⟩ := Int.eq_ofNat_of_zero_le h₀
    have hlen (j : ℕ) : ((x :: l).filter (f · = (j : ℤ))).length =
        (l.filter (f · = (j : ℤ))).length + if k = j then 1 else 0 := by
      rcases eq_or_ne k j with rfl | hne
      · rw [List.filter_cons_of_pos (by simpa using hk), List.length_cons, if_pos rfl]
      · have hx : f x ≠ j := by
          rw [hk]
          exact_mod_cast hne
        rw [List.filter_cons_of_neg (by simpa using hx), if_neg hne, Nat.add_zero]
    simp only [hlen, Finset.sum_add_distrib, Finset.sum_ite_eq, Finset.mem_range]
    rw [ih fun y hy ↦ h y (List.mem_cons_of_mem x hy), if_pos (by omega), List.length_cons]

end LibMicro.Binning
