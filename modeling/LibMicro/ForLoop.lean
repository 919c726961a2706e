import Mathlib.Data.List.Basic
import Mathlib.Tactic.Common

namespace LibMicro.ForLoop

variable {ε σ : Type}

/-- `for (i = 0; i < n; i++)`, with a body that may fail. -/
def forLoop (n : ℕ) (body : ℕ → σ → Except ε σ) (s : σ) : Except ε σ :=
  (List.range n).foldlM (fun s i ↦ body i s) s

variable {body : ℕ → σ → Except ε σ} {n : ℕ} {s s' : σ}

theorem forLoop_zero : forLoop 0 body s = .ok s := rfl

theorem forLoop_succ : forLoop (n + 1) body s = forLoop n body s >>= body n := by
  rw [forLoop, List.range_succ, List.foldlM_append]
  apply bind_congr
  intro s
  exact bind_pure (body n s)

theorem forLoop_eq (f : ℕ → σ) (h : ∀ i < n, body i (f i) = .ok (f (i + 1))) :
    forLoop n body (f 0) = .ok (f n) := by
  induction n with
  | zero => exact forLoop_zero
  | succ n ih =>
    have hlast := h n (Nat.lt_succ_self n)
    rw [forLoop_succ, ih fun i hi ↦ h i (Nat.lt_succ_of_lt hi)]
    exact hlast

end LibMicro.ForLoop
