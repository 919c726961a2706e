import LibMicro.Harness.Phased

namespace LibMicro.Harness.Loaded

open TransitionSystem

variable {σ κ : Type} {opt : Options} {init : σ → Prop} {cb : Callbacks (WorkerId opt) σ κ}
  {s s' : State (WorkerId opt) σ κ} {m : κ → ℕ} {B M : ℕ} {u : WorkerId opt}

def weight (m : κ → ℕ) (B : ℕ) (s : State (WorkerId opt) σ κ) (u : WorkerId opt) : ℕ :=
  if (s.harness.worker u).pc.callback = none then 0
  else match s.place u with
    | none => B + 1
    | some k => m k

theorem weight_le (hm : ∀ k, m k ≤ B) (s : State (WorkerId opt) σ κ) (u : WorkerId opt) :
    weight m B s u ≤ B + 1 := by
  unfold weight
  split_ifs
  · exact Nat.zero_le _
  · cases s.place u with
    | none => exact le_rfl
    | some k => exact (hm k).trans (Nat.le_succ B)

theorem weight_place {k : κ} (hc : (s.harness.worker u).pc.callback ≠ none)
    (hplace : s.place u = some k) : weight m B s u = m k := by
  rw [weight, if_neg hc, hplace]

theorem sum_weight (m : κ → ℕ) (B : ℕ) (s s' : State (WorkerId opt) σ κ) {u : WorkerId opt}
    (hworker : ∀ v ≠ u, s'.harness.worker v = s.harness.worker v)
    (hplace : ∀ v ≠ u, s'.place v = s.place v) :
    ∑ v, weight m B s' v + weight m B s u = ∑ v, weight m B s v + weight m B s' u :=
  sum_move (Finset.mem_univ u) fun v hv ↦ by
    rw [weight, weight, hworker v hv, hplace v hv]

/-- How many steps the workers still make. One of the harness counts for a whole callback. -/
def measure (m : κ → ℕ) (B M : ℕ) (s : State (WorkerId opt) σ κ) : ℕ :=
  (B + 2) * ∑ u, s.harness.rank M u + ∑ u, weight m B s u

theorem measure_le (hm : ∀ k, m k ≤ B) (s : State (WorkerId opt) σ κ) :
    measure m B M s ≤
      Fintype.card (WorkerId opt) * ((B + 2) * (28 * (M + 2)) + (B + 1)) := by
  have hrank : ∑ u, s.harness.rank M u ≤ Fintype.card (WorkerId opt) * (28 * (M + 2)) := by
    have h := Finset.sum_le_card_nsmul Finset.univ (s.harness.rank M) (28 * (M + 2))
      fun u _ ↦ s.harness.rank_le M u
    rwa [Finset.card_univ, smul_eq_mul] at h
  have hweight : ∑ u, weight m B s u ≤ Fintype.card (WorkerId opt) * (B + 1) := by
    have h := Finset.sum_le_card_nsmul Finset.univ (weight m B s) (B + 1) fun u _ ↦ weight_le hm s u
    rwa [Finset.card_univ, smul_eq_mul] at h
  have hmul := Nat.mul_le_mul_left (B + 2) hrank
  rw [mul_left_comm] at hmul
  rw [Nat.mul_add]
  exact Nat.add_le_add hmul hweight

theorem measure_spurious (hstep : step opt cb s (.spurious u) = some s') :
    measure m B M s' ≤ measure m B M s + 2 * (B + 2) := by
  cases step_cases hstep with
  | @spurious u h hst =>
    have hrank : ∑ v, h.rank M v ≤ ∑ v, s.harness.rank M v + 2 := by
      refine (Finset.sum_le_sum fun v _ ↦ rank_spurious hst v).trans ?_
      simp [Finset.sum_add_distrib]
    have hsame (v : WorkerId opt) : weight m B { s with harness := h } v = weight m B s v := by
      rcases Harness.step_cases hst with ⟨u', now, b, w, he, -⟩ | ⟨u', -, -, rfl⟩
      · cases he
      · rfl
    have hmul := Nat.mul_le_mul_left (B + 2) hrank
    simp only [measure, hsame]
    rw [Nat.mul_add] at hmul
    omega

variable [Nonempty (WorkerId opt)]
  (ht : (targetSamples opt).toNat = M * Fintype.card (WorkerId opt))
include ht

theorem sum_rank_run {h h' : Harness.State (WorkerId opt)} {now : BitVec 64}
    (hh : (Harness.system opt).Reachable h) (hst : Harness.step opt h (.run u now) = some h') :
    ∑ v, h'.rank M v < ∑ v, h.rank M v := by
  have ha := reachable_accounting ht (reachable_step hh hst)
  refine Finset.sum_lt_sum (fun v _ ↦ ?_) ⟨u, Finset.mem_univ u, rank_mover hh ha hst⟩
  by_cases hv : v = u
  · exact hv ▸ (rank_mover hh ha hst).le
  · exact rank_other hh hv hst

theorem measure_run {now : BitVec 64} (hm : ∀ k, m k ≤ B)
    (hcb : ∀ c k x k', (s.harness.worker u).pc.callback = some c → s.place u = some k →
      cb.step u c (s.harness.worker u).rounds s.shared k = some (x, some k') → m k' < m k)
    (hreach : (Harness.system opt).Reachable s.harness)
    (hstep : step opt cb s (.run u now) = some s') : measure m B M s' < measure m B M s := by
  -- a step of the harness pays for the callback to which it may lead
  have hpay {h : Harness.State (WorkerId opt)}
      (hst : Harness.step opt s.harness (.run u now) = some h) :
      (B + 2) * ∑ v, h.rank M v + (B + 2) ≤ (B + 2) * ∑ v, s.harness.rank M v :=
    Nat.mul_le_mul_left (B + 2) (sum_rank_run ht hreach hst)
  unfold measure
  cases step_cases hstep with
  | @outside u now h hc hst =>
    have hle := weight_le hm { s with harness := h } u
    have hsum := sum_weight m B s { s with harness := h } (run_worker hst).1 fun _ _ ↦ rfl
    have := hpay hst
    change (B + 2) * ∑ v, h.rank M v + _ < _
    omega
  | @enter u now c hc hplace =>
    have hsum := sum_weight m B s
      { s with place := Function.update s.place u (some (cb.entry c)) }
      (fun _ _ ↦ rfl) fun v hv ↦ Function.update_of_ne hv _ _
    have hbefore : weight m B s u = B + 1 := by
      rw [weight, if_neg (by simp [hc]), hplace]
    rw [hbefore, weight_place (by simp [hc]) (Function.update_self _ _ _)] at hsum
    have := hm (cb.entry c)
    change (B + 2) * ∑ v, s.harness.rank M v + _ < _
    omega
  | @inside u now c k k' x hc hplace hgo =>
    have hsum := sum_weight m B s
      { s with shared := x, place := Function.update s.place u (some k') }
      (fun _ _ ↦ rfl) fun v hv ↦ Function.update_of_ne hv _ _
    rw [weight_place (by simp [hc]) hplace,
      weight_place (by simp [hc]) (Function.update_self _ _ _)] at hsum
    have := hcb c k x k' hc hplace hgo
    change (B + 2) * ∑ v, s.harness.rank M v + _ < _
    omega
  | @back u now c k x h hc hplace hgo hst =>
    have hle := weight_le hm ⟨h, x, Function.update s.place u none⟩ u
    have hsum := sum_weight m B s ⟨h, x, Function.update s.place u none⟩ (run_worker hst).1
      fun v hv ↦ Function.update_of_ne hv _ _
    have := hpay hst
    change (B + 2) * ∑ v, h.rank M v + _ < _
    omega

end LibMicro.Harness.Loaded
