import Mathlib.Algebra.Order.BigOperators.Group.Finset
import Mathlib.Data.Nat.Find
import Mathlib.Logic.Relation
import Mathlib.Tactic.Common

namespace LibMicro.TransitionSystem

variable {σ ε τ δ : Type}

/-- A labelled system. A label says who moves and which of the possible
answers the environment gives, so that a step is a partial function. -/
structure System (σ ε : Type) where
  init : σ → Prop
  step : σ → ε → Option σ

namespace System

inductive Run (A : System σ ε) : σ → List ε → σ → Prop
  | nil (s : σ) : Run A s [] s
  | cons {s s' t : σ} {a : ε} {l : List ε} :
      A.step s a = some s' → Run A s' l t → Run A s (a :: l) t

/-- The states of the runs in which every step meets the guard `G`. -/
inductive ReachableBy (A : System σ ε) (G : σ → ε → Prop) : σ → Prop
  | start {s : σ} : A.init s → ReachableBy A G s
  | next {s s' : σ} {a : ε} :
      ReachableBy A G s → G s a → A.step s a = some s' → ReachableBy A G s'

def Reachable (A : System σ ε) : σ → Prop := A.ReachableBy (fun _ _ ↦ True)

def Enabled (A : System σ ε) (P : ε → Prop) (s : σ) : Prop :=
  ∃ a s', P a ∧ A.step s a = some s'

def exec (A : System σ ε) (s : σ) (l : List ε) : Option σ := l.foldlM A.step s

/-- The labels in turn, each where it can be taken. -/
def turns (A : System σ ε) (s : σ) (l : List ε) : σ := l.foldl (fun s a ↦ (A.step s a).getD s) s

def taken (A : System σ ε) (s : σ) : List ε → List ε
  | [] => []
  | a :: l =>
    match A.step s a with
    | none => A.taken s l
    | some s' => a :: A.taken s' l

/-- Only the steps that meet the guard. -/
def under (A : System σ ε) (G : σ → ε → Prop) [∀ s a, Decidable (G s a)] : System σ ε where
  init := A.init
  step s a := if G s a then A.step s a else none

variable {A : System σ ε} {B : System τ δ} {G : σ → ε → Prop} {P : ε → Prop} {s s' t : σ}

theorem Reachable.start (h : A.init s) : A.Reachable s := ReachableBy.start h

theorem Reachable.next {a : ε} (h : A.Reachable s) (hs : A.step s a = some s') :
    A.Reachable s' := ReachableBy.next h trivial hs

theorem ReachableBy.reachable (h : A.ReachableBy G s) : A.Reachable s := by
  induction h with
  | start h => exact .start h
  | next _ _ hs ih => exact ih.next hs

theorem Run.one {a : ε} (h : A.step s a = some s') : A.Run s [a] s' := .cons h (.nil s')

theorem Run.trans {l m : List ε} (h : A.Run s l s') (h' : A.Run s' m t) :
    A.Run s (l ++ m) t := by
  induction h with
  | nil => exact h'
  | cons hs _ ih => exact .cons hs (ih h')

theorem Run.split {l m : List ε} (h : A.Run s (l ++ m) t) :
    ∃ r, A.Run s l r ∧ A.Run r m t := by
  induction l generalizing s with
  | nil => exact ⟨s, .nil s, h⟩
  | cons a l ih =>
    cases h with
    | cons hs h =>
      obtain ⟨r, hl, hm⟩ := ih h
      exact ⟨r, .cons hs hl, hm⟩

theorem Run.reachable {l : List ε} (h : A.Run s l t) (hs : A.Reachable s) : A.Reachable t := by
  induction h with
  | nil => exact hs
  | cons hst _ ih => exact ih (hs.next hst)

theorem Run.reachableBy {l : List ε} (h : A.Run s l t) (hs : A.ReachableBy G s)
    (hg : ∀ a ∈ l, ∀ s, G s a) : A.ReachableBy G t := by
  induction h with
  | nil => exact hs
  | cons hst _ ih =>
    exact ih (hs.next (hg _ List.mem_cons_self _) hst)
      (fun a ha ↦ hg a (List.mem_cons_of_mem _ ha))

theorem exec_run {l : List ε} (h : A.exec s l = some t) : A.Run s l t := by
  induction l generalizing s with
  | nil => cases h; exact .nil _
  | cons a l ih =>
    obtain ⟨s', hs, hl⟩ := Option.bind_eq_some_iff.mp h
    exact .cons hs (ih hl)

theorem exec_reachable {l : List ε} (h : A.exec s l = some t) (hs : A.init s) :
    A.Reachable t := (exec_run h).reachable (.start hs)

theorem turns_run (s : σ) (l : List ε) : A.Run s (A.taken s l) (A.turns s l) := by
  induction l generalizing s with
  | nil => exact .nil s
  | cons a l ih =>
    rw [turns, List.foldl_cons, taken]
    cases hs : A.step s a with
    | none => exact ih s
    | some s' => exact .cons hs (ih s')

theorem turns_reachable (h : A.init s) (l : List ε) : A.Reachable (A.turns s l) :=
  (turns_run s l).reachable (.start h)

/-- The induction behind every safety result. A step may use that its
source is reachable, hence any invariant that is already known. -/
theorem ReachableBy.invariant {I : σ → Prop} (h : A.ReachableBy G s)
    (hinit : ∀ s, A.init s → I s)
    (hstep : ∀ s a s', A.ReachableBy G s → I s → G s a → A.step s a = some s' → I s') :
    I s := by
  induction h with
  | start h => exact hinit _ h
  | next hr hg hs ih => exact hstep _ _ _ hr ih hg hs

theorem Reachable.invariant {I : σ → Prop} (h : A.Reachable s)
    (hinit : ∀ s, A.init s → I s)
    (hstep : ∀ s a s', A.Reachable s → I s → A.step s a = some s' → I s') : I s :=
  ReachableBy.invariant h hinit (fun s a s' hr hi _ hs ↦ hstep s a s' hr hi hs)

theorem Reachable.reachableBy [∀ s a, Decidable (G s a)] (h : (A.under G).Reachable s) :
    A.ReachableBy G s := by
  refine h.invariant (fun s hs ↦ .start hs) fun s a s' _ hs hst ↦ ?_
  obtain ⟨hg, hst⟩ := Option.ite_none_right_eq_some.mp hst
  exact hs.next hg hst

theorem Run.invariant {I : σ → Prop} {l : List ε} (h : A.Run s l t) (hs : I s)
    (hstep : ∀ s a s', I s → a ∈ l → A.step s a = some s' → I s') : I t := by
  induction h with
  | nil => exact hs
  | cons hst _ ih =>
    exact ih (hstep _ _ _ hs List.mem_cons_self hst)
      (fun s a s' hi ha ↦ hstep s a s' hi (List.mem_cons_of_mem _ ha))

def stepOrStay (B : System τ δ) (t : τ) : Option δ → Option τ
  | some b => B.step t b
  | none => some t

/-- Under `α` every step of `A` is one of `B`, or leaves `B` where it is. -/
theorem Run.map {I : σ → Prop} {f : ε → Option δ} {l : List ε} (α : σ → τ)
    (hstep : ∀ s a s', I s → A.step s a = some s' →
      I s' ∧ B.stepOrStay (α s) (f a) = some (α s'))
    (h : A.Run s l t) (hs : I s) : B.Run (α s) (l.filterMap f) (α t) := by
  induction h with
  | nil => exact .nil _
  | @cons s s' t a l hst _ ih =>
    obtain ⟨hs', hb⟩ := hstep _ _ _ hs hst
    rw [List.filterMap_cons]
    cases hf : f a with
    | none =>
      rw [hf] at hb
      rw [Option.some.inj hb]
      exact ih hs'
    | some b =>
      rw [hf] at hb
      exact .cons hb (ih hs')

/-- If every step of the kind `P` lowers a measure, then from every state a
run of such steps leads to one where none of them can be taken. -/
theorem exists_stuck {I : σ → Prop} (μ : σ → ℕ)
    (hstep : ∀ s a s', I s → P a → A.step s a = some s' → I s' ∧ μ s' < μ s) (hs : I s) :
    ∃ l t, (∀ a ∈ l, P a) ∧ A.Run s l t ∧ I t ∧ ¬ A.Enabled P t := by
  induction h : μ s using Nat.strongRecOn generalizing s with
  | ind n ih =>
    by_cases he : A.Enabled P s
    · obtain ⟨a, s', ha, hst⟩ := he
      obtain ⟨hs', hlt⟩ := hstep s a s' hs ha hst
      obtain ⟨l, t, hl, hr, ht, hn⟩ := ih _ (h ▸ hlt) hs' rfl
      refine ⟨a :: l, t, ?_, .cons hst hr, ht, hn⟩
      rintro b (_ | ⟨_, hb⟩)
      · exact ha
      · exact hl b hb
    · exact ⟨[], s, by simp, .nil s, hs, he⟩

/-- The same where every such step counts something up that has a bound. -/
theorem exists_stuck_of_counter {κ : Type} [Fintype κ] [DecidableEq κ] {I : σ → Prop}
    (count : σ → κ → ℕ) (B : ℕ)
    (hstep : ∀ s a s', I s → P a → A.step s a = some s' →
      I s' ∧ ∃ p k, count s p < k ∧ k ≤ B ∧ count s' = Function.update (count s) p k)
    (hs : I s) : ∃ l t, (∀ a ∈ l, P a) ∧ A.Run s l t ∧ I t ∧ ¬ A.Enabled P t := by
  refine exists_stuck (fun s ↦ ∑ p, (B - count s p)) (fun s a s' hi ha hst ↦ ?_) hs
  obtain ⟨hi', p, k, hlt, hle, hc⟩ := hstep s a s' hi ha hst
  refine ⟨hi', Finset.sum_lt_sum (fun q _ ↦ ?_) ⟨p, Finset.mem_univ p, ?_⟩⟩
  · rw [hc]
    by_cases hq : q = p
    · subst hq
      rw [Function.update_self]
      omega
    · rw [Function.update_of_ne hq]
  · rw [hc, Function.update_self]
    omega

/-- A bound on the number of steps of the kind `P` in a run. The others may
raise the measure, but by no more than `c` each. -/
theorem Run.countP_le {I : σ → Prop} {p : ε → Bool} {l : List ε} (μ : σ → ℕ) (c : ℕ)
    (hstep : ∀ s a s', I s → A.step s a = some s' →
      I s' ∧ if p a then μ s' < μ s else μ s' ≤ μ s + c)
    (h : A.Run s l t) (hs : I s) :
    l.countP p + μ t ≤ μ s + c * l.countP (fun a ↦ !p a) := by
  induction h with
  | nil => simp
  | @cons s s' t a l hst _ ih =>
    obtain ⟨hs', hμ⟩ := hstep _ _ _ hs hst
    have hle := ih hs'
    cases hp : p a with
    | true =>
      simp only [hp, if_true] at hμ
      simp only [List.countP_cons, hp, Bool.not_true, Bool.false_eq_true, if_false, if_true,
        Nat.add_zero]
      omega
    | false =>
      simp only [hp, Bool.false_eq_true, if_false] at hμ
      simp only [List.countP_cons, hp, Bool.not_false, Bool.false_eq_true, if_false, if_true]
      rw [Nat.mul_add]
      omega

theorem Run.length_le {I : σ → Prop} {p q : ε → Bool} {l : List ε} (μ : σ → ℕ) (j k : ℕ)
    (hstep : ∀ s a s', I s → A.step s a = some s' →
      I s' ∧ 1 + μ s' ≤ μ s + ((if p a then j else 0) + if q a then k else 0))
    (h : A.Run s l t) (hs : I s) :
    l.length + μ t ≤ μ s + j * l.countP p + k * l.countP q := by
  induction h with
  | nil => simp
  | @cons s s' t a l hst _ ih =>
    obtain ⟨hs', hμ⟩ := hstep _ _ _ hs hst
    have hle := ih hs'
    simp only [List.length_cons, List.countP_cons, Nat.mul_add]
    split_ifs at hμ ⊢ <;> omega

end System

theorem sum_move {κ : Type} [DecidableEq κ] {S : Finset κ} {f g : κ → ℕ} {u : κ} (hu : u ∈ S)
    (h : ∀ v ≠ u, g v = f v) : ∑ v ∈ S, g v + f u = ∑ v ∈ S, f v + g u := by
  have hrest : ∑ v ∈ S.erase u, g v = ∑ v ∈ S.erase u, f v :=
    Finset.sum_congr rfl fun v hv ↦ h v (Finset.ne_of_mem_erase hv)
  have hg := Finset.add_sum_erase S g hu
  have hf := Finset.add_sum_erase S f hu
  omega

/-- A forward simulation: a step of `A` is a step of `B` or leaves it where it is. -/
structure Simulation (A : System σ ε) (B : System τ δ) (R : σ → τ → Prop) : Prop where
  init : ∀ s, A.init s → ∃ t, B.init t ∧ R s t
  step : ∀ s t a s', A.Reachable s → B.Reachable t → R s t → A.step s a = some s' →
    R s' t ∨ ∃ b t', B.step t b = some t' ∧ R s' t'

theorem Simulation.reachable {A : System σ ε} {B : System τ δ} {R : σ → τ → Prop}
    (h : Simulation A B R) {s : σ} (hs : A.Reachable s) : ∃ t, B.Reachable t ∧ R s t := by
  induction hs with
  | start hi =>
    obtain ⟨t, ht, hr⟩ := h.init _ hi
    exact ⟨t, .start ht, hr⟩
  | next hs _ hst ih =>
    obtain ⟨t, ht, hr⟩ := ih
    rcases h.step _ t _ _ hs ht hr hst with hr' | ⟨b, t', hb, hr'⟩
    · exact ⟨t, ht, hr'⟩
    · exact ⟨t', ht.next hb, hr'⟩

end LibMicro.TransitionSystem
