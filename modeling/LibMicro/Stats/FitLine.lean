import Mathlib.Algebra.BigOperators.Intervals
import Mathlib.Algebra.Order.Ring.Rat
import LibMicro.LeastSquares

namespace LibMicro.Stats

open LeastSquares Finset

variable {x y : ℕ → ℚ} {count : ℕ}

structure Sums where
  sumx : ℚ
  sumx2 : ℚ
  sumy : ℚ
  sumxy : ℚ

def addPoint (x y : ℕ → ℚ) (s : Sums) (i : ℕ) : Sums where
  sumx := s.sumx + x i
  sumx2 := s.sumx2 + x i * x i
  sumy := s.sumy + y i
  sumxy := s.sumxy + x i * y i

/-- The result, and what `a` and `b` point to afterwards. -/
def fitLine (x y : ℕ → ℚ) (count : ℕ) (a b : ℚ) : ℤ × ℚ × ℚ :=
  let s := (List.range count).foldl (addPoint x y) ⟨0, 0, 0, 0⟩
  let denom := count * s.sumx2 - s.sumx * s.sumx
  if denom = 0 then (-1, a, b)
  else (0, (s.sumy * s.sumx2 - s.sumx * s.sumxy) / denom,
    (count * s.sumxy - s.sumx * s.sumy) / denom)

theorem addPoint_foldl (x y : ℕ → ℚ) (count : ℕ) :
    (List.range count).foldl (addPoint x y) ⟨0, 0, 0, 0⟩ =
      { sumx := ∑ i ∈ range count, x i
        sumx2 := ∑ i ∈ range count, x i * x i
        sumy := ∑ i ∈ range count, y i
        sumxy := ∑ i ∈ range count, x i * y i } := by
  induction count with
  | zero => rfl
  | succ n ih => simp only [List.range_succ, List.foldl_append, ih, List.foldl_cons,
      List.foldl_nil, addPoint, sum_range_succ]

theorem fitLine_of_spread (h : spread (range count) x = 0) (a b : ℚ) :
    fitLine x y count a b = (-1, a, b) := by
  rw [fitLine, addPoint_foldl]
  apply if_pos
  rw [← h, spread, card_range]

theorem fitLine_of_spread_ne (h : spread (range count) x ≠ 0) (a b : ℚ) :
    ∃ a' b', fitLine x y count a b = (0, a', b') ∧ Normal (range count) x y a' b' := by
  have hn := normal_of_spread (y := y) h
  rw [spread, card_range] at h hn
  refine ⟨_, _, ?_, hn⟩
  rw [fitLine, addPoint_foldl]
  exact if_neg h

/-- `fit_line` fails only where all `x` are equal, and else finds the one best line. -/
theorem fit_line_least_squares (x y : ℕ → ℚ) (count : ℕ) (a b : ℚ) :
    ((fitLine x y count a b).1 = -1 ↔ ∀ i < count, ∀ j < count, x i = x j) ∧
      (fitLine x y count a b = (-1, a, b) ∨
        ∃ a' b', fitLine x y count a b = (0, a', b') ∧ IsFit (range count) x y a' b' ∧
          ∀ p q, (∀ i < count, y i = p + q * x i) → (p, q) = (a', b')) := by
  have heq : spread (range count) x = 0 ↔ ∀ i < count, ∀ j < count, x i = x j := by
    simp only [spread_eq_zero_iff, mem_range]
  by_cases h : spread (range count) x = 0
  · have hfit := fitLine_of_spread (y := y) h a b
    exact ⟨iff_of_true (congrArg Prod.fst hfit) (heq.mp h), .inl hfit⟩
  · obtain ⟨a', b', hfit, hnormal⟩ := fitLine_of_spread_ne (y := y) h a b
    have hbest := hnormal.isFit h
    refine ⟨iff_of_false ?_ (mt heq.mpr h), .inr ⟨a', b', hfit, hbest, fun p q hline ↦ ?_⟩⟩
    · rw [hfit]
      norm_num
    · exact hbest.of_line fun i hi ↦ hline i (mem_range.mp hi)

example : fitLine (fun i ↦ i) (fun i ↦ 3 * i + 1) 4 0 0 = (0, 1, 3) := by decide +kernel

end LibMicro.Stats
