import Mathlib.Tactic.IntervalCases
import LibMicro.Ownership
import LibMicro.Cascade.Ports

namespace LibMicro.Cascade

open TransitionSystem Ownership

def ring (N u : ℕ) : TsdT := assignLocks N u ⟨0, 0, 0, 0, 0, 0⟩

def held (l : List Call) (n : LockName) : Bool :=
  l.foldl (fun h c ↦ match c with
    | .block m => h || m = n
    | .unblock m => h && m ≠ n) false

variable {N : ℕ} {script : List Call} {s s' : State N} {u v w : Fin N}

theorem ring_us0 (N u : ℕ) : (ring N u).index .us0 = u * 2 := rfl

theorem ring_us1 (N u : ℕ) : (ring N u).index .us1 = u * 2 + 1 := rfl

theorem ring_them (u : Fin N) :
    (u.val + 1 < N ∧ (ring N u).index .them0 = (u.val + 1) * 2 ∧
      (ring N u).index .them1 = (u.val + 1) * 2 + 1) ∨
    (u.val + 1 = N ∧ (ring N u).index .them0 = 1 ∧ (ring N u).index .them1 = 0) :=
  assignLocksAt_them 2 1 u.isLt

theorem ring_index (u : Fin N) (n : LockName) : (ring N u).index n = Layout.pairs.place (port u n) :=
  Layout.pairs.assignLocksAt_index u n

theorem assignLocks_ring (N u : ℕ) : assignLocks N u (ring N u) = ring N u := rfl

theorem held_block (l : List Call) (m n : LockName) :
    held (l ++ [.block m]) n = true ↔ held l n = true ∨ m = n := by
  simp [held]

theorem held_unblock (l : List Call) (m n : LockName) :
    held (l ++ [.unblock m]) n = true ↔ held l n = true ∧ m ≠ n := by
  simp [held]

theorem step_cases (h : step script s u = some s') :
    (∃ c locks, (roundOf script)[s.pos u]? = some c ∧ (s.pos u = 1 → s.AllAt u 1) ∧
      callStep s.locks u (s.ready u) c = some locks ∧
      s' = { s with
        locks := locks
        tsd := Function.update s.tsd u (s.ready u)
        pos := Function.update s.pos u (s.pos u + 1)
        moves := if c.isMove then
            s.moves ++ [(s.round u, ((roundOf script).take (s.pos u)).countP Call.isMove, u.val)]
          else s.moves }) ∨
    ((roundOf script).length ≤ s.pos u ∧ s.AllAt u (roundOf script).length ∧
      s' = { s with
        round := Function.update s.round u (s.round u + 1)
        pos := Function.update s.pos u 0 }) := by
  unfold step at h
  split at h
  · next c hc =>
    by_cases hall : s.pos u = 1 → s.AllAt u 1
    · rw [if_pos hall] at h
      obtain ⟨locks, hl, rfl⟩ := Option.map_eq_some_iff.mp h
      exact .inl ⟨c, locks, hc, hall, hl, rfl⟩
    · rw [if_neg hall] at h
      cases h
  · next hc =>
    split_ifs at h with hall
    exact .inr ⟨List.getElem?_eq_none_iff.mp hc, hall, (Option.some.inj h).symm⟩

def LocksOk (script : List Call) (locks : ℕ → Option (Fin N)) (pos : Fin N → ℕ) : Prop :=
  ∀ i, Owns (locks i) fun w ↦
    ∃ n, (ring N w).index n = i ∧ held ((roundOf script).take (pos w)) n = true

/-- The other name that a lock can have for the same worker, if it is its own successor. -/
def LockName.twin : LockName → LockName
  | .us0 => .them1
  | .us1 => .them0
  | .them0 => .us1
  | .them1 => .us0

/-- A script that takes no lock twice, even under two names, and releases what it holds. -/
structure Balanced (script : List Call) : Prop where
  block : ∀ p n, (roundOf script)[p]? = some (.block n) →
    ¬ held ((roundOf script).take p) n = true ∧ ¬ held ((roundOf script).take p) n.twin = true
  unblock : ∀ p n, (roundOf script)[p]? = some (.unblock n) →
    held ((roundOf script).take p) n = true ∧ ¬ held ((roundOf script).take p) n.twin = true
  clean : ∀ n, held (roundOf script) n = false

theorem index_cases {n m : LockName} (h : (ring N u).index m = (ring N u).index n) :
    m = n ∨ m = n.twin := by
  have h0 := ring_us0 N u
  have h1 := ring_us1 N u
  have ht := ring_them u
  cases n <;> cases m <;> first | (simp [LockName.twin]; done) | (exfalso; omega)

theorem take_succ_of {c : Call} {p : ℕ} (hc : (roundOf script)[p]? = some c) :
    (roundOf script).take (p + 1) = (roundOf script).take p ++ [c] := by
  rw [List.take_add_one, hc, Option.toList_some]

theorem holders_update {pos : Fin N → ℕ} {i : ℕ}
    (h : ∀ n, (ring N u).index n = i → (held ((roundOf script).take (pos u + 1)) n = true ↔
      held ((roundOf script).take (pos u)) n = true)) (v : Fin N) :
    (∃ n, (ring N v).index n = i ∧
      held ((roundOf script).take (Function.update pos u (pos u + 1) v)) n = true) ↔
    ∃ n, (ring N v).index n = i ∧ held ((roundOf script).take (pos v)) n = true := by
  by_cases hv : v = u
  · subst hv
    rw [Function.update_self]
    exact exists_congr fun n ↦ and_congr_right (h n)
  · rw [Function.update_of_ne hv]

theorem LocksOk.call (hb : Balanced script) {locks locks' : ℕ → Option (Fin N)} {pos : Fin N → ℕ}
    (hl : LocksOk script locks pos) {c : Call} (hc : (roundOf script)[pos u]? = some c)
    (hs : callStep locks u (ring N u) c = some locks') :
    LocksOk script locks' (Function.update pos u (pos u + 1)) := by
  have hother (i : ℕ) (v : Fin N) (hv : v ≠ u) :
      (∃ n, (ring N v).index n = i ∧
        held ((roundOf script).take (Function.update pos u (pos u + 1) v)) n = true) ↔
      ∃ n, (ring N v).index n = i ∧ held ((roundOf script).take (pos v)) n = true := by
    rw [Function.update_of_ne hv]
  intro i
  have hi := hl i
  cases c with
  | block m =>
    simp only [callStep] at hs
    split_ifs at hs with hfree
    cases hs
    by_cases he : i = (ring N u).index m
    · subst he
      rw [Function.update_self]
      rw [hfree] at hi
      refine hi.enter (hother _) ⟨m, rfl, ?_⟩
      rw [Function.update_self, take_succ_of hc, held_block]
      exact .inr rfl
    · rw [Function.update_of_ne he]
      refine hi.congr (holders_update fun n hn ↦ ?_)
      rw [take_succ_of hc, held_block]
      exact or_iff_left fun hmn ↦ he (hmn ▸ hn.symm)
  | unblock m =>
    obtain ⟨hm, htwin⟩ := hb.unblock _ _ hc
    have hown : locks ((ring N u).index m) = some u := (hl _ u).mpr ⟨m, rfl, hm⟩
    simp only [callStep, hown, if_true] at hs
    cases hs
    by_cases he : i = (ring N u).index m
    · subst he
      rw [Function.update_self]
      refine hi.leave (hother _) ⟨m, rfl, hm⟩ ?_
      rintro ⟨n, hn, hh⟩
      rw [Function.update_self, take_succ_of hc, held_unblock] at hh
      rcases index_cases hn with rfl | rfl
      · exact hh.2 rfl
      · exact htwin hh.1
    · rw [Function.update_of_ne he]
      refine hi.congr (holders_update fun n hn ↦ ?_)
      rw [take_succ_of hc, held_unblock]
      exact and_iff_left fun hmn ↦ he (hmn ▸ hn.symm)

theorem LocksOk.unblock (hb : Balanced script) {locks : ℕ → Option (Fin N)} {pos : Fin N → ℕ}
    (hl : LocksOk script locks pos) {n : LockName}
    (hc : (roundOf script)[pos u]? = some (.unblock n)) :
    locks ((ring N u).index n) = some u :=
  (hl _ u).mpr ⟨n, rfl, (hb.unblock _ _ hc).1⟩

theorem LocksOk.block (hb : Balanced script) {locks : ℕ → Option (Fin N)} {pos : Fin N → ℕ}
    (hl : LocksOk script locks pos) {n : LockName}
    (hc : (roundOf script)[pos u]? = some (.block n)) :
    locks ((ring N u).index n) ≠ some u := by
  intro h
  obtain ⟨m, hm, hh⟩ := (hl _ u).mp h
  obtain ⟨hn, htwin⟩ := hb.block _ _ hc
  rcases index_cases hm with rfl | rfl
  · exact hn hh
  · exact htwin hh

theorem LocksOk.free (hb : Balanced script) {locks : ℕ → Option (Fin N)} {pos : Fin N → ℕ}
    (hl : LocksOk script locks pos) (hf : ∀ u, pos u = (roundOf script).length) (i : ℕ) :
    locks i = none := by
  rcases Option.eq_none_or_eq_some (locks i) with h | ⟨u, h⟩
  · exact h
  · obtain ⟨n, -, hh⟩ := (hl i u).mp h
    rw [hf u, List.take_length, hb.clean] at hh
    cases hh

def TsdOk (s : State N) : Prop :=
  ∀ u, s.tsd u = ring N u ∨ s.pos u = 0 ∧ s.tsd u = ⟨0, 0, 0, 0, 0, 0⟩

theorem TsdOk.ready (h : TsdOk s) (u : Fin N) : s.ready u = ring N u := by
  unfold State.ready
  rcases h u with he | ⟨hp, he⟩
  · rw [he, assignLocks_ring, ite_self]
  · rw [if_pos hp, he]
    rfl

theorem TsdOk.step (h : TsdOk s) (hst : step script s u = some s') : TsdOk s' := by
  intro v
  rcases step_cases hst with ⟨c, locks, -, -, -, rfl⟩ | ⟨-, -, rfl⟩
  · by_cases hv : v = u
    · subst hv
      left
      simp only [Function.update_self, h.ready]
    · simpa only [Function.update_of_ne hv] using h v
  · by_cases hv : v = u
    · subst hv
      simpa only [Function.update_self, true_and] using (h v).imp_right And.right
    · simpa only [Function.update_of_ne hv] using h v

theorem LocksOk.step (hb : Balanced script) (ht : TsdOk s) (hl : LocksOk script s.locks s.pos)
    (hst : step script s u = some s') : LocksOk script s'.locks s'.pos := by
  rcases step_cases hst with ⟨c, locks, hc, -, hs, rfl⟩ | ⟨hp, -, rfl⟩
  · exact hl.call hb hc (ht.ready u ▸ hs)
  · refine fun i ↦ (hl i).congr fun v ↦ ?_
    by_cases hv : v = u
    · subst hv
      simp only [Function.update_self, List.take_zero, List.take_of_length_le hp, hb.clean]
      simp [held]
    · simp only [Function.update_of_ne hv]

end LibMicro.Cascade
