import Mathlib.Data.Prod.Lex
import Mathlib.Data.Finset.Max
import LibMicro.Cascade.Locks

namespace LibMicro.Cascade

open TransitionSystem Ownership

def moved (p : ℕ) : ℕ := ((roundOf benchmark).take p).countP Call.isMove

/-- A worker hands the batten over when it releases a lock of the next worker. -/
def Call.isHandover : Call → Bool
  | .unblock .them0 | .unblock .them1 => true
  | _ => false

def handed (p : ℕ) : ℕ := ((roundOf benchmark).take p).countP Call.isHandover

theorem moved_table : ∀ p < 13, moved p = 0 ∧ p ≤ 1 ∨ moved p = 1 ∧ 2 ≤ p ∧ p ≤ 5 ∨
    moved p = 2 ∧ 6 ≤ p ∧ p ≤ 9 ∨ moved p = 3 ∧ 10 ≤ p := by decide

theorem handed_table : ∀ p < 13, handed p = 0 ∧ p ≤ 4 ∨ handed p = 1 ∧ 5 ≤ p ∧ p ≤ 8 ∨
    handed p = 2 ∧ 9 ≤ p ∧ p ≤ 10 ∨ handed p = 3 ∧ 11 ≤ p := by decide

theorem held_table : ∀ p < 13,
    (held ((roundOf benchmark).take p) .us0 = true ↔ p = 2 ∨ p = 10 ∨ p = 11) ∧
    (held ((roundOf benchmark).take p) .us1 = true ↔ p = 6) ∧
    (held ((roundOf benchmark).take p) .them0 = true ↔ 1 ≤ p ∧ p ≤ 4 ∨ 8 ≤ p ∧ p ≤ 10) ∧
    (held ((roundOf benchmark).take p) .them1 = true ↔ 4 ≤ p ∧ p ≤ 8) := by decide

theorem balanced_benchmark : Balanced benchmark where
  block p n h := by
    have hp : p < 12 := (List.getElem?_eq_some_iff.mp h).1
    interval_cases p <;> cases h <;> decide
  unblock p n h := by
    have hp : p < 12 := (List.getElem?_eq_some_iff.mp h).1
    interval_cases p <;> cases h <;> decide
  clean n := by cases n <;> rfl

variable {N : ℕ} {s s' : State N} {u v w : Fin N}

def State.moved (s : State N) (u : Fin N) : ℕ := 3 * s.round u + Cascade.moved (s.pos u)

def State.handed (s : State N) (u : Fin N) : ℕ := 3 * s.round u + Cascade.handed (s.pos u)

/-- Nobody is two rounds ahead, or in `benchmark` before all have been through
`benchmark_pre`; and nobody moves before the worker in front has handed over. -/
structure RingOk (s : State N) : Prop where
  tsd : TsdOk s
  bound : ∀ u, s.pos u < 13
  locks : LocksOk benchmark s.locks s.pos
  ahead : ∀ u v, s.round u < s.round v → s.round v = s.round u + 1 ∧ s.pos u = 12 ∧ s.pos v ≤ 1
  level : ∀ u v, s.round u = s.round v → 2 ≤ s.pos u → 1 ≤ s.pos v
  straight : ∀ u v, u.val + 1 = v.val → s.moved v ≤ s.handed u
  crossed : ∀ u v, u.val + 1 = N → v.val = 0 → s.moved v ≤ s.handed u + 1

theorem start_ringOk : RingOk (start N) where
  tsd _ := .inr ⟨rfl, rfl⟩
  bound _ := by simp [start]
  locks i := owns_none (by simp [start, held])
  ahead _ _ h := by simp [start] at h
  level _ _ _ h := by simp [start] at h
  straight _ _ _ := by simp [start, State.moved, Cascade.moved]
  crossed _ _ _ _ := by simp [start, State.moved, Cascade.moved]

theorem RingOk.same_round (hr : RingOk s) {c : Call} (hc : (roundOf benchmark)[s.pos u]? = some c)
    (h1 : 1 ≤ s.pos u) (hall : s.pos u = 1 → s.AllAt u 1) (v : Fin N) :
    s.round v = s.round u ∧ 1 ≤ s.pos v := by
  have hlt : s.pos u < 12 := (List.getElem?_eq_some_iff.mp hc).1
  have huv := hr.ahead u v
  have hvu := hr.ahead v u
  by_cases hp : s.pos u = 1
  · have ha := hall hp v
    omega
  · have hl := hr.level u v
    omega

theorem RingOk.not_held (hr : RingOk s) {i : ℕ} (hi : s.locks i = none) {n : LockName}
    (hn : (ring N u).index n = i) : ¬ held ((roundOf benchmark).take (s.pos u)) n = true := by
  intro hh
  have h := (hr.locks i u).mpr ⟨n, hn, hh⟩
  rw [hi] at h
  cases h

def InStep (p r q t : ℕ) : Prop :=
  (r < t → t = r + 1 ∧ p = 12 ∧ q ≤ 1) ∧ (r = t → 2 ≤ p → 1 ≤ q)

theorem inStep_of_ne {pos pos' round round' : Fin N → ℕ} (hpos : ∀ v ≠ u, pos' v = pos v)
    (hround : ∀ v ≠ u, round' v = round v)
    (h : ∀ v w, InStep (pos v) (round v) (pos w) (round w))
    (hleft : ∀ w, InStep (pos' u) (round' u) (pos w) (round w))
    (hright : ∀ v, InStep (pos v) (round v) (pos' u) (round' u)) (v w : Fin N) :
    InStep (pos' v) (round' v) (pos' w) (round' w) := by
  by_cases hv : v = u
  · subst hv
    by_cases hw : w = v
    · subst hw
      exact ⟨fun hlt ↦ absurd hlt (Nat.lt_irrefl _), fun _ hp ↦ Nat.le_of_succ_le hp⟩
    · rw [hpos w hw, hround w hw]
      exact hleft w
  · rw [hpos v hv, hround v hv]
    by_cases hw : w = u
    · subst hw
      exact hright v
    · rw [hpos w hw, hround w hw]
      exact h v w

theorem RingOk.inStep (hr : RingOk s) (v w : Fin N) :
    InStep (s.pos v) (s.round v) (s.pos w) (s.round w) :=
  ⟨hr.ahead v w, hr.level v w⟩

theorem RingOk.bound_update (hr : RingOk s) {p : ℕ} (hp : p < 13) (v : Fin N) :
    Function.update s.pos u p v < 13 := by
  by_cases hv : v = u
  · rw [hv, Function.update_self]
    exact hp
  · rw [Function.update_of_ne hv]
    exact hr.bound v

theorem RingOk.inStep_call (hr : RingOk s) {c : Call}
    (hc : (roundOf benchmark)[s.pos u]? = some c) (hall : s.pos u = 1 → s.AllAt u 1)
    (v w : Fin N) : InStep (Function.update s.pos u (s.pos u + 1) v) (s.round v)
      (Function.update s.pos u (s.pos u + 1) w) (s.round w) := by
  have hlt : s.pos u < 12 := (List.getElem?_eq_some_iff.mp hc).1
  have hsame (h1 : 1 ≤ s.pos u) := hr.same_round hc h1 hall
  apply inStep_of_ne (fun v hv ↦ Function.update_of_ne hv _ _) (fun v _ ↦ rfl) hr.inStep
  · intro w
    have huw := hr.ahead u w
    rw [Function.update_self]
    refine ⟨fun hround ↦ by omega, fun _ hpos ↦ ?_⟩
    exact (hsame (by omega) w).2
  · intro v
    have hvu := hr.ahead v u
    rw [Function.update_self]
    refine ⟨fun hround ↦ ?_, fun _ _ ↦ by omega⟩
    obtain ⟨h1, h2, h3⟩ := hvu hround
    refine ⟨h1, h2, ?_⟩
    by_contra hpos
    have := hsame (by omega) v
    omega

theorem RingOk.inStep_turn (hr : RingOk s) (hall : s.AllAt u 12) (v w : Fin N) : InStep (Function.update s.pos u 0 v) (Function.update s.round u (s.round u + 1) v)
      (Function.update s.pos u 0 w) (Function.update s.round u (s.round u + 1) w) := by
  apply inStep_of_ne (fun v hv ↦ Function.update_of_ne hv _ _)
    (fun v hv ↦ Function.update_of_ne hv _ _) hr.inStep
  · intro w
    have hw := hall w
    have huw := hr.ahead u w
    rw [Function.update_self, Function.update_self]
    exact ⟨fun hround ↦ by omega, fun _ hpos ↦ by omega⟩
  · intro v
    have hv := hall v
    have huv := hr.ahead u v
    have hbound := hr.bound v
    rw [Function.update_self, Function.update_self]
    exact ⟨fun hround ↦ by omega, fun hround hpos ↦ by omega⟩

theorem RingOk.rounds_step (hr : RingOk s) (hst : step benchmark s u = some s') :
    (∀ v, s'.pos v < 13) ∧ ∀ v w, InStep (s'.pos v) (s'.round v) (s'.pos w) (s'.round w) := by
  rcases step_cases hst with ⟨c, locks, hc, hall, -, rfl⟩ | ⟨-, hall, rfl⟩
  · have hlt : s.pos u < 12 := (List.getElem?_eq_some_iff.mp hc).1
    exact ⟨hr.bound_update (Nat.succ_lt_succ hlt), hr.inStep_call hc hall⟩
  · exact ⟨hr.bound_update (Nat.succ_pos 12), hr.inStep_turn hall⟩

theorem callStep_block {locks locks' : ℕ → Option (Fin N)} {ts : TsdT} {n : LockName}
    (h : callStep locks u ts (.block n) = some locks') : locks (ts.index n) = none := by
  simp only [callStep] at h
  split_ifs at h with hfree
  exact hfree

theorem moved_succ {p : ℕ} (hp : p < 12) :
    (p = 1 ∨ p = 5 ∨ p = 9) ∨ moved (p + 1) = moved p := by
  have h0 := moved_table p (by omega)
  have h1 := moved_table (p + 1) (by omega)
  omega

theorem RingOk.move_free (hr : RingOk s) {c : Call} {locks : ℕ → Option (Fin N)}
    (hc : (roundOf benchmark)[s.pos u]? = some c) (hs : callStep s.locks u (ring N u) c = some locks)
    (hp : s.pos u = 1 ∨ s.pos u = 5 ∨ s.pos u = 9) (m : LockName)
    (hm : s.pos u = 5 ∧ (ring N v).index m = u.val * 2 + 1 ∨
      s.pos u ≠ 5 ∧ (ring N v).index m = u.val * 2) :
    ¬ held ((roundOf benchmark).take (s.pos v)) m = true := by
  have h0 := ring_us0 N u
  have h1 := ring_us1 N u
  rcases hp with hp | hp | hp <;> rw [hp] at hc <;> cases hc <;>
    exact hr.not_held (callStep_block hs) (by omega)

/-- A worker that gets the batten has been handed it by the worker before it. To
the first worker the last one hands it crosswise, after the free first move. -/
theorem RingOk.move_front (hr : RingOk s) {c : Call} {locks : ℕ → Option (Fin N)} {k : ℕ}
    (hc : (roundOf benchmark)[s.pos u]? = some c) (hall : s.pos u = 1 → s.AllAt u 1)
    (hs : callStep s.locks u (ring N u) c = some locks)
    (hv : v.val + 1 = u.val ∧ k = 0 ∨ v.val + 1 = N ∧ u.val = 0 ∧ k = 1)
    (hold : s.moved u ≤ s.handed v + k) :
    3 * s.round u + Cascade.moved (s.pos u + 1) ≤ s.handed v + k := by
  have hlt : s.pos u < 12 := (List.getElem?_eq_some_iff.mp hc).1
  simp only [State.moved, State.handed] at hold ⊢
  rcases moved_succ hlt with hp | hp
  · obtain ⟨hround, hpos⟩ := hr.same_round hc (by omega) hall v
    have hm := moved_table (s.pos u + 1) (by omega)
    have hm' := moved_table (s.pos u) (by omega)
    have hh := handed_table (s.pos v) (hr.bound v)
    have ht := held_table (s.pos v) (hr.bound v)
    have hring := ring_them v
    have h0 := hr.move_free (v := v) hc hs hp .them0
    have h1 := hr.move_free (v := v) hc hs hp .them1
    rw [ht.2.2.1] at h0
    rw [ht.2.2.2] at h1
    rcases hv with ⟨hv, rfl⟩ | ⟨hv, hu, rfl⟩ <;> omega
  · rw [hp]
    exact hold

theorem moved_le (hr : RingOk s) (u : Fin N) : s.handed u ≤ s.moved u ∧ s.moved u ≤ s.handed u + 1 := by
  have hm := moved_table (s.pos u) (hr.bound u)
  have hh := handed_table (s.pos u) (hr.bound u)
  simp only [State.moved, State.handed]
  omega

/-- A step moves at most its worker's counts. They grow with a call, and with the
round they only change their form. -/
theorem RingOk.counts_step (hr : RingOk s) (hst : step benchmark s u = some s') :
    (∀ v, v ≠ u → s'.moved v = s.moved v ∧ s'.handed v = s.handed v) ∧
      s.handed u ≤ s'.handed u ∧
      (s'.moved u = s.moved u ∧ s'.moves = s.moves ∨
        s'.moved u = s.moved u + 1 ∧ Cascade.moved (s.pos u) < 3 ∧
          s'.moves = s.moves ++ [(s.round u, Cascade.moved (s.pos u), u.val)] ∧
          (∀ v, v.val + 1 = u.val → s.moved u < s.handed v) ∧
          ∀ v, v.val + 1 = N → u.val = 0 → s.moved u ≤ s.handed v) := by
  have hu := hr.bound u
  have hm := moved_table (s.pos u) hu
  have hh := handed_table (s.pos u) hu
  rcases step_cases hst with ⟨c, locks, hc, hall, hs, rfl⟩ | ⟨hp, -, rfl⟩
  · have hlt : s.pos u < 12 := (List.getElem?_eq_some_iff.mp hc).1
    have hm' := moved_table (s.pos u + 1) (by omega)
    have hh' := handed_table (s.pos u + 1) (by omega)
    have hmove : Cascade.moved (s.pos u + 1) =
        Cascade.moved (s.pos u) + if c.isMove then 1 else 0 := by
      simp [Cascade.moved, take_succ_of hc, List.countP_append, List.countP_cons]
    refine ⟨fun v hv ↦ ?_, ?_, ?_⟩
    · simp only [State.moved, State.handed, Function.update_of_ne hv, and_self]
    · simp only [State.handed, Function.update_self]
      omega
    · have hfront {v k} := hr.move_front (v := v) (k := k) hc hall (hr.tsd.ready u ▸ hs)
      simp only [State.moved, Function.update_self]
      split_ifs at hmove ⊢ with hmv
      · refine .inr ⟨by omega, by omega, rfl, fun v hv ↦ ?_, fun v hv hz ↦ ?_⟩
        · have := hfront (.inl ⟨hv, rfl⟩) (hr.straight v u hv)
          omega
        · have := hfront (.inr ⟨hv, hz, rfl⟩) (hr.crossed v u hv hz)
          omega
      · exact .inl ⟨by omega, rfl⟩
  · have hlen : (roundOf benchmark).length = 12 := rfl
    have hz : Cascade.moved 0 = 0 ∧ Cascade.handed 0 = 0 := by decide
    refine ⟨fun v hv ↦ ?_, ?_, .inl ⟨?_, rfl⟩⟩
    · simp only [State.moved, State.handed, Function.update_of_ne hv, and_self]
    · simp only [State.handed, Function.update_self]
      omega
    · simp only [State.moved, Function.update_self]
      omega

theorem RingOk.step (hr : RingOk s) (hst : step benchmark s u = some s') : RingOk s' := by
  obtain ⟨hbound, hround⟩ := hr.rounds_step hst
  obtain ⟨hother, hhanded, hmoved⟩ := hr.counts_step hst
  refine ⟨hr.tsd.step hst, hbound, hr.locks.step balanced_benchmark hr.tsd hst,
    fun v w ↦ (hround v w).1, fun v w ↦ (hround v w).2, fun v w hw ↦ ?_, fun v w hv hw ↦ ?_⟩
  · have hold := hr.straight v w hw
    have hvw : v ≠ w := by rintro rfl; omega
    by_cases hwu : w = u
    · subst hwu
      rw [(hother v hvw).2]
      rcases hmoved with ⟨he, -⟩ | ⟨he, -, -, hfront, -⟩
      · omega
      · have := hfront v hw
        omega
    · rw [(hother w hwu).1]
      by_cases hvu : v = u
      · subst hvu; omega
      · rw [(hother v hvu).2]; exact hold
  · have hold := hr.crossed v w hv hw
    by_cases hvu : v = u
    · subst hvu
      by_cases hwv : w = v
      · subst hwv
        have hm := moved_table (s'.pos w) (hbound w)
        have hh := handed_table (s'.pos w) (hbound w)
        simp only [State.moved, State.handed]
        omega
      · rw [(hother w hwv).1]; omega
    · rw [(hother v hvu).2]
      by_cases hwu : w = u
      · subst hwu
        rcases hmoved with ⟨he, -⟩ | ⟨he, -, -, -, hfront⟩
        · omega
        · have := hfront v hv hw
          omega
      · rw [(hother w hwu).1]; exact hold

structure MovesOk (s : State N) (q i : ℕ) : Prop where
  lt : i < N
  moves : s.moves = (List.range (q * N + i)).map fun m ↦ (m / N / 3, m / N % 3, m % N)
  counts : ∀ u, s.moved u = q + if u.val < i then 1 else 0

theorem MovesOk.step {q i : ℕ} (hr : RingOk s) (hm : MovesOk s q i)
    (hst : Cascade.step benchmark s u = some s') : ∃ q' i', MovesOk s' q' i' := by
  obtain ⟨hother, -, ⟨he, hsame⟩ | ⟨he, hlt, hlog, hstraight, hcrossed⟩⟩ := hr.counts_step hst
  · refine ⟨q, i, hm.lt, hsame.trans hm.moves, fun v ↦ ?_⟩
    by_cases hv : v = u
    · subst hv; exact he.trans (hm.counts v)
    · exact (hother v hv).1.trans (hm.counts v)
  have hcu := hm.counts u
  have hui : u.val = i := by
    have hNi := hm.lt
    rcases Nat.eq_zero_or_pos u.val with hz | hpos
    · have hlast := hcrossed ⟨N - 1, by omega⟩ (by simp only; omega) hz
      have hle := (moved_le hr ⟨N - 1, by omega⟩).1
      have hcl := hm.counts ⟨N - 1, by omega⟩
      simp only at hcl
      split_ifs at hcu hcl <;> omega
    · have hfront := hstraight ⟨u.val - 1, by omega⟩ (by simp only; omega)
      have hle := (moved_le hr ⟨u.val - 1, by omega⟩).1
      have hcf := hm.counts ⟨u.val - 1, by omega⟩
      simp only at hcf
      split_ifs at hcu hcf <;> omega
  rw [if_neg (by omega)] at hcu
  have hNpos : 0 < N := by have := hm.lt; omega
  have hq : s.round u = q / 3 ∧ Cascade.moved (s.pos u) = q % 3 := by
    unfold State.moved at hcu
    omega
  have hlog' : s'.moves =
      (List.range (q * N + i + 1)).map fun m ↦ (m / N / 3, m / N % 3, m % N) := by
    have hdiv : (q * N + i) / N = q := by
      rw [mul_comm, Nat.mul_add_div hNpos, Nat.div_eq_of_lt hm.lt, add_zero]
    have hmod : (q * N + i) % N = i := by
      rw [mul_comm, Nat.mul_add_mod, Nat.mod_eq_of_lt hm.lt]
    rw [hlog, hm.moves, List.range_succ, List.map_append, List.map_singleton, hdiv, hmod, hq.1,
      hq.2, hui]
  have hcount (v : Fin N) : s'.moved v = q + if v.val < i + 1 then 1 else 0 := by
    by_cases hv : v = u
    · subst hv
      rw [he, hcu, if_pos (by omega)]
    · have hne : v.val ≠ i := fun h ↦ hv (Fin.ext (h.trans hui.symm))
      rw [(hother v hv).1, hm.counts v]
      split_ifs <;> omega
  rcases Nat.lt_or_ge (i + 1) N with hi | hi
  · exact ⟨q, i + 1, hi, hlog', hcount⟩
  · have hlt := hm.lt
    refine ⟨q + 1, 0, hNpos, ?_, fun v ↦ ?_⟩
    · rw [hlog', add_mul, one_mul, add_zero, add_assoc, show i + 1 = N by omega]
    · have hv := v.isLt
      rw [hcount v, if_pos (by omega), if_neg (by omega)]

theorem reachable_ringOk (hs : (system benchmark N).Reachable s) : RingOk s :=
  hs.invariant (fun _ h ↦ h ▸ start_ringOk) fun _ _ _ _ hr hst ↦ hr.step hst

theorem reachable_movesOk (hN : 0 < N) (hs : (system benchmark N).Reachable s) :
    ∃ q i, MovesOk s q i := by
  refine hs.invariant (I := fun s ↦ ∃ q i, MovesOk s q i) (fun s h ↦ ?_)
    fun s u s' hr ⟨q, i, hm⟩ hst ↦ hm.step (reachable_ringOk hr) hst
  subst h
  exact ⟨0, 0, hN, by simp [start], fun u ↦ by simp [start, State.moved, Cascade.moved]⟩

end LibMicro.Cascade
