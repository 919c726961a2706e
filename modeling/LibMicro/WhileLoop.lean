import Mathlib.Data.Nat.Init
import Mathlib.Order.Lattice
import Mathlib.Tactic.Common

namespace LibMicro.WhileLoop

variable {ε σ α β : Type}

/-- Why there is no result: the rounds did not suffice, or something has failed. -/
inductive Halt (ε : Type)
  | running
  | failed (e : ε)
  deriving DecidableEq

/-- At most `n` rounds. A round says whether there is another one. -/
def loop (round : σ → Except (Halt ε) (Bool × σ)) : ℕ → σ → Except (Halt ε) σ
  | 0, _ => .error .running
  | n + 1, s => do
    let (again, s) ← round s
    if again then loop round n s else return s

def whileRound (test : σ → Except (Halt ε) Bool) (body : σ → Except (Halt ε) σ) (s : σ) :
    Except (Halt ε) (Bool × σ) := do
  if ← test s then
    let s ← body s
    return (true, s)
  else return (false, s)

def whileLoop (test : σ → Except (Halt ε) Bool) (body : σ → Except (Halt ε) σ) :
    ℕ → σ → Except (Halt ε) σ :=
  loop (whileRound test body)

/-- With enough rounds the result is `r`, and with fewer there is none. -/
structure Settles (p : ℕ → Except (Halt ε) α) (r : Except (Halt ε) α) : Prop where
  enough : ∃ n, ∀ m ≥ n, p m = r
  only : ∀ m, p m = .error .running ∨ p m = r

section Settles

variable {p : ℕ → Except (Halt ε) α} {q : α → ℕ → Except (Halt ε) β} {r : Except (Halt ε) α}
  {a b : α} {e : ε}

theorem settles_const (r : Except (Halt ε) α) : Settles (fun _ ↦ r) r where
  enough := ⟨0, fun _ _ ↦ rfl⟩
  only _ := .inr rfl

theorem Settles.bind {r : Except (Halt ε) β} (hp : Settles p (.ok a)) (hq : Settles (q a) r) :
    Settles (fun n ↦ p n >>= fun a ↦ q a n) r where
  enough := by
    obtain ⟨n, hn⟩ := hp.enough
    obtain ⟨k, hk⟩ := hq.enough
    refine ⟨max n k, fun m hm ↦ ?_⟩
    rw [hn m ((le_max_left n k).trans hm)]
    exact hk m ((le_max_right n k).trans hm)
  only m := by
    rcases hp.only m with hm | hm
    · left
      rw [hm]
      rfl
    · rw [hm]
      exact hq.only m

theorem Settles.map (hp : Settles p (.ok a)) (f : α → β) :
    Settles (fun n ↦ p n >>= fun a ↦ .ok (f a)) (.ok (f a)) :=
  hp.bind (q := fun a _ ↦ .ok (f a)) (settles_const _)

theorem Settles.bind_failed (hp : Settles p (.error (.failed e))) :
    Settles (fun n ↦ p n >>= fun a ↦ q a n) (.error (.failed e)) where
  enough := by
    obtain ⟨n, hn⟩ := hp.enough
    refine ⟨n, fun m hm ↦ ?_⟩
    rw [hn m hm]
    rfl
  only m := by
    rcases hp.only m with hm | hm
    · left
      rw [hm]
      rfl
    · right
      rw [hm]
      rfl

theorem Settles.returns (h : Settles p (.ok a)) : ∃ n, p n = .ok a := by
  obtain ⟨n, hn⟩ := h.enough
  exact ⟨n, hn n le_rfl⟩

theorem Settles.unique (h : Settles p (.ok a)) {n : ℕ} (hb : p n = .ok b) : b = a := by
  rcases h.only n with hn | hn
  · cases hb.symm.trans hn
  · exact Except.ok.inj (hb.symm.trans hn)

theorem Settles.not_returns (h : Settles p (.error (.failed e))) (n : ℕ) : p n ≠ .ok b := by
  intro hb
  rcases h.only n with hn | hn
  · cases hb.symm.trans hn
  · cases hb.symm.trans hn

end Settles

section Loops

variable {round : σ → Except (Halt ε) (Bool × σ)} {test : σ → Except (Halt ε) Bool}
  {body : σ → Except (Halt ε) σ} {s t : σ} {r : Except (Halt ε) σ} {e : Halt ε}
  (f : ℕ → σ) (n : ℕ)

theorem settles_again (h : round s = .ok (true, t)) (ht : Settles (loop round · t) r) :
    Settles (loop round · s) r where
  enough := by
    obtain ⟨n, hn⟩ := ht.enough
    refine ⟨n + 1, fun m hm ↦ ?_⟩
    obtain ⟨k, rfl⟩ := Nat.exists_eq_add_of_le hm
    rw [Nat.add_right_comm, loop, h]
    exact hn (n + k) (Nat.le_add_right n k)
  only m := by
    cases m with
    | zero => exact .inl rfl
    | succ m =>
      rw [loop, h]
      exact ht.only m

theorem settles_stop (h : ∀ k, loop round (k + 1) s = r) : Settles (loop round · s) r where
  enough := by
    refine ⟨1, fun m hm ↦ ?_⟩
    obtain ⟨k, rfl⟩ := Nat.exists_eq_add_of_le' hm
    exact h k
  only m := by
    cases m with
    | zero => exact .inl rfl
    | succ m => exact .inr (h m)

theorem settles_done (h : round s = .ok (false, t)) : Settles (loop round · s) (.ok t) := by
  apply settles_stop
  intro k
  rw [loop, h]
  rfl

theorem settles_error (h : round s = .error e) : Settles (loop round · s) (.error e) := by
  apply settles_stop
  intro k
  rw [loop, h]
  rfl

theorem settles_loop (h : ∀ i < n, round (f i) = .ok (true, f (i + 1)))
    (hend : Settles (loop round · (f n)) r) : Settles (loop round · (f 0)) r := by
  induction n with
  | zero => exact hend
  | succ n ih =>
    apply ih fun i hi ↦ h i (Nat.lt_succ_of_lt hi)
    exact settles_again (h n (Nat.lt_succ_self n)) hend

theorem whileRound_again (htest : test s = .ok true) (hbody : body s = .ok t) :
    whileRound test body s = .ok (true, t) := by
  rw [whileRound, htest]
  simp only [bind, Except.bind, if_true, hbody]
  rfl

theorem settles_while (h : ∀ i < n, test (f i) = .ok true ∧ body (f i) = .ok (f (i + 1)))
    (hend : test (f n) = .ok false) : Settles (whileLoop test body · (f 0)) (.ok (f n)) := by
  apply settles_loop f n fun i hi ↦ whileRound_again (h i hi).1 (h i hi).2
  apply settles_done
  rw [whileRound, hend]
  rfl

theorem settles_while_test (h : ∀ i < n, test (f i) = .ok true ∧ body (f i) = .ok (f (i + 1)))
    (hend : test (f n) = .error e) : Settles (whileLoop test body · (f 0)) (.error e) := by
  apply settles_loop f n fun i hi ↦ whileRound_again (h i hi).1 (h i hi).2
  apply settles_error
  rw [whileRound, hend]
  rfl

theorem settles_while_body (h : ∀ i < n, test (f i) = .ok true ∧ body (f i) = .ok (f (i + 1)))
    (htest : test (f n) = .ok true) (hend : body (f n) = .error e) :
    Settles (whileLoop test body · (f 0)) (.error e) := by
  apply settles_loop f n fun i hi ↦ whileRound_again (h i hi).1 (h i hi).2
  apply settles_error
  rw [whileRound, htest]
  simp only [bind, Except.bind, if_true, hend]

end Loops

end LibMicro.WhileLoop
