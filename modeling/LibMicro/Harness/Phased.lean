import LibMicro.Harness.Callbacks

namespace LibMicro.Harness

open TransitionSystem Barrier

variable {σ κ : Type} {opt : Options} {init : σ → Prop}

namespace Loaded

variable {cb : Callbacks (WorkerId opt) σ κ} {s s' : State (WorkerId opt) σ κ}
  {a : Act (WorkerId opt)} {u v : WorkerId opt} {now : BitVec 64} {c : Callback} {k : κ}

inductive Steps (cb : Callbacks (WorkerId opt) σ κ) (s : State (WorkerId opt) σ κ) :
    Act (WorkerId opt) → State (WorkerId opt) σ κ → Prop
  | spurious {u : WorkerId opt} {h : Harness.State (WorkerId opt)}
    (hst : Harness.step opt s.harness (.spurious u) = some h) :
    Steps cb s (.spurious u) { s with harness := h }
  | outside {u : WorkerId opt} {now : BitVec 64} {h : Harness.State (WorkerId opt)}
    (hc : (s.harness.worker u).pc.callback = none)
    (hst : Harness.step opt s.harness (.run u now) = some h) :
    Steps cb s (.run u now) { s with harness := h }
  | enter {u : WorkerId opt} {now : BitVec 64} {c : Callback}
    (hc : (s.harness.worker u).pc.callback = some c) (hplace : s.place u = none) :
    Steps cb s (.run u now) { s with place := Function.update s.place u (some (cb.entry c)) }
  | inside {u : WorkerId opt} {now : BitVec 64} {c : Callback} {k k' : κ} {x : σ}
    (hc : (s.harness.worker u).pc.callback = some c) (hplace : s.place u = some k)
    (hcb : cb.step u c (s.harness.worker u).rounds s.shared k = some (x, some k')) :
    Steps cb s (.run u now) { s with shared := x, place := Function.update s.place u (some k') }
  | back {u : WorkerId opt} {now : BitVec 64} {c : Callback} {k : κ} {x : σ}
    {h : Harness.State (WorkerId opt)}
    (hc : (s.harness.worker u).pc.callback = some c) (hplace : s.place u = some k)
    (hcb : cb.step u c (s.harness.worker u).rounds s.shared k = some (x, none))
    (hst : Harness.step opt s.harness (.run u now) = some h) :
    Steps cb s (.run u now) ⟨h, x, Function.update s.place u none⟩

theorem step_cases (h : step opt cb s a = some s') : Steps cb s a s' := by
  cases a with
  | spurious u =>
    simp only [step, Option.map_eq_some_iff] at h
    obtain ⟨h, hst, rfl⟩ := h
    exact .spurious hst
  | run u now =>
    cases hc : (s.harness.worker u).pc.callback with
    | none =>
      simp only [step, hc, Option.map_eq_some_iff] at h
      obtain ⟨h, hst, rfl⟩ := h
      exact .outside hc hst
    | some c =>
      cases hplace : s.place u with
      | none =>
        simp only [step, hc, hplace] at h
        cases h
        exact .enter hc hplace
      | some k =>
        cases hcb : cb.step u c (s.harness.worker u).rounds s.shared k with
        | none => simp only [step, hc, hplace, hcb, reduceCtorEq] at h
        | some p =>
          obtain ⟨x, k'⟩ := p
          cases k' with
          | some k' =>
            simp only [step, hc, hplace, hcb] at h
            cases h
            exact .inside hc hplace hcb
          | none =>
            simp only [step, hc, hplace, hcb, Option.map_eq_some_iff] at h
            obtain ⟨h, hst, rfl⟩ := h
            exact .back hc hplace hcb hst

theorem Steps.step_eq (h : Steps cb s a s') : step opt cb s a = some s' := by
  cases h with
  | spurious hst => simp only [step, hst, Option.map_some]
  | outside hc hst => simp only [step, hc, hst, Option.map_some]
  | enter hc hplace => simp only [step, hc, hplace]
  | inside hc hplace hcb => simp only [step, hc, hplace, hcb]
  | back hc hplace hcb hst => simp only [step, hc, hplace, hcb, hst, Option.map_some]

theorem Steps.harness (h : Steps cb s a s') :
    s'.harness = s.harness ∨ Harness.step opt s.harness a = some s'.harness := by
  cases h with
  | enter | inside => exact .inl rfl
  | spurious hst | outside _ hst | back _ _ _ hst => exact .inr hst

theorem harness_reachable (hs : (system opt cb init).Reachable s) :
    (Harness.system opt).Reachable s.harness := by
  refine hs.invariant (I := fun s ↦ (Harness.system opt).Reachable s.harness) ?_ ?_
  · rintro _ ⟨starttime, x, -, rfl⟩
    exact .start ⟨starttime, rfl⟩
  · intro s a s' _ hi hst
    rcases (step_cases hst).harness with he | hst
    · exact he ▸ hi
    · exact reachable_step hi hst

theorem run_worker {h : Harness.State (WorkerId opt)} {t : Harness.State (WorkerId opt)}
    (hst : Harness.step opt t (.run u now) = some h) :
    (∀ v ≠ u, h.worker v = t.worker v) ∧
      (h.worker u).calls = (t.worker u).calls +
        if (t.worker u).pc.callback = none then 0 else 1 := by
  rcases Harness.step_cases hst with ⟨u', now', b, w, he, hw, rfl⟩ | ⟨u', he, -⟩ <;> cases he
  refine ⟨fun v hv ↦ Function.update_of_ne hv _ _, ?_⟩
  simp only [Function.update_self]
  exact (workerStep_moves hw).calls

end Loaded

theorem WorkerPc.called_bounds (pc : WorkerPc) :
    pc.passed ≤ pc.called ∧ pc.called ≤ 2 ∧ (pc.call ≠ none → pc.called = pc.passed + 1) ∧
      (pc.callback ≠ none → pc.call = none ∧ pc.called = pc.passed) := by
  cases pc <;> simp [passed, called, call, callback]

/-- Whoever has come to a callback behind a gate has seen all others come so far. -/
theorem gate_open [Nonempty (WorkerId opt)] {s : State (WorkerId opt)}
    (hs : (system opt).Reachable s) {u : WorkerId opt} {c : Callback}
    (hc : (s.worker u).pc.callback = some c) (hpre : c ≠ .pre) (v : WorkerId opt) :
    (s.worker u).calls ≤ (s.worker v).calls := by
  obtain ⟨g, -, hpos⟩ := exists_phase hs
  obtain ⟨hcall, hcalled⟩ := (s.worker u).pc.called_bounds.2.2.2 (by simp [hc])
  have hg := (hpos u).2.2 hcall
  obtain ⟨hle, hlt, heq⟩ := hpos v
  obtain ⟨hpassed, htwo, hin, -⟩ := (s.worker v).pc.called_bounds
  have hpos : 1 ≤ (s.worker u).pc.called := by
    rw [WorkerPc.called_callback hc]
    cases c with
    | pre => exact absurd rfl hpre
    | benchmark | post => decide
  have htwo' := (s.worker u).pc.called_bounds.2.1
  unfold Worker.calls
  by_cases hv : (s.worker v).pc.call = none
  · have := heq hv
    omega
  · have := hin hv
    omega

namespace Loaded

variable {cb : Callbacks (WorkerId opt) σ κ} {s s' : State (WorkerId opt) σ κ}
  {a : Act (WorkerId opt)}

theorem phases_spurious {u : WorkerId opt} {h : Harness.State (WorkerId opt)}
    (hst : Harness.step opt s.harness (.spurious u) = some h) :
    ({ s with harness := h } : State (WorkerId opt) σ κ).phases = s.phases := by
  rcases Harness.step_cases hst with ⟨u', now, b, w, he, -⟩ | ⟨u', -, -, rfl⟩
  · cases he
  · rfl

theorem phases_outside {u : WorkerId opt} {now : BitVec 64} {h : Harness.State (WorkerId opt)}
    (hc : (s.harness.worker u).pc.callback = none)
    (hst : Harness.step opt s.harness (.run u now) = some h) :
    ({ s with harness := h } : State (WorkerId opt) σ κ).phases = s.phases := by
  obtain ⟨hother, hself⟩ := run_worker hst
  rw [if_pos hc] at hself
  refine congrArg (Rounds.State.mk _) (funext fun v ↦ ?_)
  by_cases hv : v = u
  · rw [hv, hself]
    rfl
  · rw [hother v hv]

theorem phases_enter (u : WorkerId opt) (k : κ) :
    ({ s with place := Function.update s.place u (some k) } : State (WorkerId opt) σ κ).phases =
      s.phases.enter u k := by
  refine congrArg (Rounds.State.mk _) (funext fun v ↦ ?_)
  by_cases hv : v = u
  · subst hv
    simp [Rounds.Worker.enter, State.phases]
  · simp [hv, State.phases]

theorem phases_inside (u : WorkerId opt) (x : σ) (k : κ) :
    ({ s with shared := x, place := Function.update s.place u (some k) } :
      State (WorkerId opt) σ κ).phases = s.phases.move u x (some k) := by
  refine congrArg (Rounds.State.mk _) (funext fun v ↦ ?_)
  by_cases hv : v = u
  · subst hv
    simp [Rounds.Worker.move, State.phases]
  · simp [hv, State.phases]

theorem phases_back {u : WorkerId opt} {now : BitVec 64} {h : Harness.State (WorkerId opt)}
    {c : Callback} (hc : (s.harness.worker u).pc.callback = some c)
    (hst : Harness.step opt s.harness (.run u now) = some h) (x : σ) :
    (⟨h, x, Function.update s.place u none⟩ : State (WorkerId opt) σ κ).phases =
      s.phases.move u x none := by
  obtain ⟨hother, hself⟩ := run_worker hst
  rw [if_neg (by simp [hc])] at hself
  refine congrArg (Rounds.State.mk _) (funext fun v ↦ ?_)
  by_cases hv : v = u
  · subst hv
    simp [Rounds.Worker.move, State.phases, hself]
  · simp [hv, State.phases, hother v hv]

/-- A step of the harness is one of the calls behind the gates, or nothing to them. -/
theorem Steps.phases [Nonempty (WorkerId opt)] (h : Steps cb s a s')
    (hreach : (Harness.system opt).Reachable s.harness) :
    s'.phases = s.phases ∨ ∃ u, Phases.step cb.body s.phases u = some s'.phases := by
  cases h with
  | spurious hst => exact .inl (phases_spurious hst)
  | outside hc hst => exact .inl (phases_outside hc hst)
  | @enter u now c hc hplace =>
    right
    have hcalls := (Worker.calls_callback hc).1
    have hgate : cb.body.gate (s.phases.worker u).calls →
        ∀ v, (s.phases.worker u).calls ≤ (s.phases.worker v).calls := by
      intro hgate
      refine gate_open hreach hc fun hpre ↦ ?_
      have hcalled := WorkerPc.called_callback (hpre ▸ hc)
      have hmod : (s.harness.worker u).calls % 3 ≠ 0 := of_decide_eq_true hgate
      rw [Worker.calls, hcalled] at hmod
      exact hmod (Nat.mul_mod_right 3 _)
    refine ⟨u, ?_⟩
    rw [Phases.step_enter hplace hgate, phases_enter]
    exact congrArg some (congrArg (s.phases.enter u) (congrArg cb.entry hcalls))
  | @inside u now c k k' x hc hplace hcb =>
    right
    obtain ⟨hcalls, hround⟩ := Worker.calls_callback hc
    have hbody : cb.body.step u (s.phases.worker u).calls s.phases.shared k = some (x, some k') := by
      rw [← hcb, ← hround, ← hcalls]
      rfl
    exact ⟨u, phases_inside u x k' ▸ Phases.step_move hplace hbody⟩
  | @back u now c k x h hc hplace hcb hst =>
    right
    obtain ⟨hcalls, hround⟩ := Worker.calls_callback hc
    have hbody : cb.body.step u (s.phases.worker u).calls s.phases.shared k = some (x, none) := by
      rw [← hcb, ← hround, ← hcalls]
      rfl
    exact ⟨u, phases_back hc hst x ▸ Phases.step_move hplace hbody⟩

/-- The harness lets the workers call a benchmark as the gates do. -/
theorem simulation [Nonempty (WorkerId opt)] (cb : Callbacks (WorkerId opt) σ κ) (init : σ → Prop) :
    Simulation (system opt cb init) (Phases.system cb.body init) (fun s t ↦ t = s.phases) where
  init s hs := by
    obtain ⟨starttime, x, hx, rfl⟩ := hs
    exact ⟨_, ⟨x, hx, rfl⟩, rfl⟩
  step s t a s' hs _ ht hstep := by
    subst ht
    rcases (step_cases hstep).phases (harness_reachable hs) with he | ⟨u, hu⟩
    · exact .inl he.symm
    · exact .inr ⟨u, _, hu, rfl⟩

def Placed (s : State (WorkerId opt) σ κ) : Prop :=
  ∀ u, s.place u ≠ none → (s.harness.worker u).pc.callback ≠ none

theorem Steps.placed (h : Steps cb s a s') (hi : Placed s) : Placed s' := by
  intro v hv
  cases h with
  | @spurious u h hst =>
    rcases Harness.step_cases hst with ⟨u', now, b, w, he, -⟩ | ⟨u', -, -, rfl⟩
    · cases he
    · exact hi v hv
  | @outside u now h hc hst =>
    by_cases hvu : v = u
    · exact absurd hc (hi u (hvu ▸ hv))
    · rw [(run_worker hst).1 v hvu]
      exact hi v hv
  | @enter u now c hc hplace =>
    by_cases hvu : v = u
    · rw [hvu]
      simp [hc]
    · simp only [Function.update_of_ne hvu] at hv
      exact hi v hv
  | @inside u now c k k' x hc hplace hcb =>
    by_cases hvu : v = u
    · rw [hvu]
      simp [hc]
    · simp only [Function.update_of_ne hvu] at hv
      exact hi v hv
  | @back u now c k x h hc hplace hcb hst =>
    by_cases hvu : v = u
    · simp [hvu] at hv
    · simp only [Function.update_of_ne hvu] at hv
      rw [(run_worker hst).1 v hvu]
      exact hi v hv

theorem placed_start (starttime : BitVec 64) (x : σ) :
    Placed (⟨start opt starttime, x, fun _ ↦ none⟩ : State (WorkerId opt) σ κ) :=
  fun _ h ↦ absurd rfl h

theorem placed (hs : (system opt cb init).Reachable s) : Placed s := by
  refine hs.invariant ?_ fun s a s' _ hi hstep ↦ (step_cases hstep).placed hi
  rintro _ ⟨starttime, x, -, rfl⟩
  exact placed_start starttime x

theorem blocked_cases {u : WorkerId opt} (h : ∀ now, step opt cb s (.run u now) = none) :
    ((s.harness.worker u).pc = .done ∨ ∃ q r, (s.harness.worker u).pc.call = some (q, r) ∧
        queueStep opt.nsecsOverhead s.harness.bar u r q = none) ∨
      ∃ c k, (s.harness.worker u).pc.callback = some c ∧ s.place u = some k ∧
        cb.step u c (s.harness.worker u).rounds s.shared k = none := by
  have hnone := h 0
  cases hc : (s.harness.worker u).pc.callback with
  | none =>
    simp only [step, hc, Option.map_eq_none_iff, Harness.step] at hnone
    exact .inl (workerStep_blocked hnone)
  | some c =>
    right
    obtain ⟨p, hp⟩ : ∃ p, workerStep opt s.harness.bar u 0 (s.harness.worker u) = some p :=
      callback_enabled hc
    cases hplace : s.place u with
    | none => simp only [step, hc, hplace, reduceCtorEq] at hnone
    | some k =>
      refine ⟨c, k, rfl, rfl, ?_⟩
      cases hcb : cb.step u c (s.harness.worker u).rounds s.shared k with
      | none => rfl
      | some q =>
        obtain ⟨x, k'⟩ := q
        cases k' with
        | some k' => simp only [step, hc, hplace, hcb, reduceCtorEq] at hnone
        | none =>
          simp only [step, hc, hplace, hcb, Harness.step, hp, Option.map_some, reduceCtorEq] at hnone

/-- A worker that cannot go on is done, or kept in a call of the barrier or in `benchmark`. -/
def Kept (cb : Callbacks (WorkerId opt) σ κ) (s : State (WorkerId opt) σ κ) (u : WorkerId opt) :
    Prop :=
  ((s.harness.worker u).pc = .done ∨ ∃ q r, (s.harness.worker u).pc.call = some (q, r) ∧
      queueStep opt.nsecsOverhead s.harness.bar u r q = none) ∨
    (s.harness.worker u).pc.callback = some .benchmark ∧ ∃ k, s.place u = some k ∧
      cb.step u .benchmark (s.harness.worker u).rounds s.shared k = none

theorem kept_cases (hstuck : ∀ u now, step opt cb s (.run u now) = none) :
    (∃ u c k, c ≠ .benchmark ∧ (s.harness.worker u).pc.callback = some c ∧ s.place u = some k ∧
      cb.step u c (s.harness.worker u).rounds s.shared k = none) ∨ ∀ u, Kept cb s u := by
  by_cases hother : ∃ u c k, c ≠ .benchmark ∧ (s.harness.worker u).pc.callback = some c ∧
      s.place u = some k ∧ cb.step u c (s.harness.worker u).rounds s.shared k = none
  · exact .inl hother
  · refine .inr fun u ↦ (blocked_cases (hstuck u)).imp_right ?_
    rintro ⟨c, k, hc, hplace, hcb⟩
    by_cases hb : c = .benchmark
    · subst hb
      exact ⟨hc, k, hplace, hcb⟩
    · exact absurd ⟨u, c, k, hb, hc, hplace, hcb⟩ hother

theorem Kept.call {q : QueuePc} {r : Option ResultT} (h : Kept cb s u)
    (hq : (s.harness.worker u).pc.call = some (q, r)) :
    (s.harness.worker u).pc.callback = none ∧
      queueStep opt.nsecsOverhead s.harness.bar u r q = none := by
  have hnone : (s.harness.worker u).pc.callback = none := by
    by_contra hc
    have := ((s.harness.worker u).pc.called_bounds.2.2.2 hc).1
    rw [hq] at this
    cases this
  refine ⟨hnone, ?_⟩
  rcases h with (hd | ⟨q', r', hq', hb⟩) | ⟨hc, -⟩
  · rw [hd] at hq
    cases hq
  · cases hq.symm.trans hq'
    exact hb
  · rw [hc] at hnone
    cases hnone

theorem Kept.outside (h : Kept cb s u) (hb : (s.harness.worker u).pc.callback ≠ some .benchmark) :
    (s.harness.worker u).pc.callback = none := by
  have hcall {q : QueuePc} {r : Option ResultT} := h.call (q := q) (r := r)
  rcases h with (hd | ⟨q, r, hq, -⟩) | ⟨hc, -⟩
  · rw [hd]
    rfl
  · exact (hcall hq).1
  · exact absurd hc hb

section Progress

variable [Nonempty (WorkerId opt)]

theorem phases_reachable (hs : (system opt cb init).Reachable s) :
    (Phases.system cb.body init).Reachable s.phases := by
  obtain ⟨t, ht, rfl⟩ := (simulation cb init).reachable hs
  exact ht

/-- While a worker is kept in `benchmark`, the others are in it too or wait behind it. -/
theorem kept_benchmark (hreach : (Harness.system opt).Reachable s.harness) (hplaced : Placed s)
    (h : ∀ u, Kept cb s u) (hu : (s.harness.worker u).pc.callback = some .benchmark)
    (v : WorkerId opt) :
    (s.harness.worker v).calls = 3 * (s.harness.worker u).rounds + 1 ∧ (∃ k, s.place v = some k ∧
        cb.step v .benchmark (s.harness.worker u).rounds s.shared k = none) ∨
      (s.harness.worker v).calls = 3 * (s.harness.worker u).rounds + 2 ∧ s.place v = none := by
  obtain ⟨hwait, -⟩ := blocked_waiting (queues_reachable hreach) fun v q r hq ↦ ((h v).call hq).2
  obtain ⟨g, hg, hpos⟩ := exists_phase hreach
  have hone {v : WorkerId opt} (hv : (s.harness.worker v).pc.callback = some .benchmark) :
      (s.harness.worker v).pc.passed = 1 ∧ (s.harness.worker v).pc.called = 1 ∧
        2 * (s.harness.worker v).rounds + (s.harness.worker v).pc.passed = g := by
    obtain ⟨hnone, heq⟩ := (s.harness.worker v).pc.called_bounds.2.2.2 (by simp [hv])
    have hbefore := WorkerPc.called_callback hv
    exact ⟨heq.symm.trans hbefore, hbefore, (hpos v).2.2 hnone⟩
  have hodd := hone hu
  unfold Worker.calls
  rcases h v with (hd | ⟨q, r, hq, -⟩) | ⟨hc, k, hplace, hcb⟩
  · -- who is done has come back from a second call of the barrier
    have heven := (hpos v).2.2
    rw [hd] at heven
    have : 2 * (s.harness.worker v).rounds + 0 = g := heven rfl
    omega
  · right
    have hne : s.harness.queues.call v ≠ none := by
      simp [State.queues, hq]
    have hopen := hwait v hne
    have hentered : s.harness.queues.entered v = (s.harness.worker v).returned + 1 :=
      congrArg _ (if_neg hne)
    rw [hg, hentered, Worker.returned] at hopen
    obtain ⟨hpassed, htwo, hnext, -⟩ := (s.harness.worker v).pc.called_bounds
    have hsucc := hnext hne
    have hle := (hpos v).1
    refine ⟨by omega, ?_⟩
    by_contra hplace
    exact hplaced v hplace ((h v).call hq).1
  · left
    obtain ⟨hpassed, hcalled, hg⟩ := hone hc
    have hr : (s.harness.worker v).rounds = (s.harness.worker u).rounds := by omega
    exact ⟨by omega, k, hplace, hr ▸ hcb⟩

/-- If nobody can go on, then all have left, or some are kept in a callback. If that is
`benchmark`, the others have come back from it. -/
theorem blocked_all (hreach : (Harness.system opt).Reachable s.harness) (hplaced : Placed s)
    (hstuck : ∀ u now, step opt cb s (.run u now) = none) :
    (∀ u, (s.harness.worker u).pc.left) ∨
      (∃ u c k, c ≠ .benchmark ∧ (s.harness.worker u).pc.callback = some c ∧ s.place u = some k ∧
        cb.step u c (s.harness.worker u).rounds s.shared k = none) ∨
      ∃ r, (∃ u, s.place u ≠ none) ∧ ∀ u,
        (s.harness.worker u).calls = 3 * r + 1 ∧ (∃ k, s.place u = some k ∧
          cb.step u .benchmark r s.shared k = none) ∨
        (s.harness.worker u).calls = 3 * r + 2 ∧ s.place u = none := by
  rcases kept_cases hstuck with hother | h
  · exact .inr (.inl hother)
  by_cases hbench : ∃ u, (s.harness.worker u).pc.callback = some .benchmark
  · obtain ⟨u, hu⟩ := hbench
    refine .inr (.inr ⟨(s.harness.worker u).rounds, ⟨u, ?_⟩, kept_benchmark hreach hplaced h hu⟩)
    rcases h u with (hd | ⟨q, r, hq, -⟩) | ⟨-, k, hplace, -⟩
    · rw [hd] at hu
      cases hu
    · rw [((h u).call hq).1] at hu
      cases hu
    · simp [hplace]
  · left
    rcases no_stuck hreach with hleft | ⟨a, h', ha, hst⟩
    · exact hleft
    · cases a with
      | spurious u => cases ha
      | run u now =>
        have hc := (h u).outside fun hc ↦ hbench ⟨u, hc⟩
        have hstep : Harness.step opt s.harness (.run u now) = some h' := hst
        have hnone := hstuck u now
        simp only [step, hc, hstep, Option.map_some, reduceCtorEq] at hnone

theorem stuck_cases (hs : (system opt cb init).Reachable s)
    (hstuck : ¬ (system opt cb init).Enabled (fun a ↦ a.isRun) s) :
    (∀ u, (s.harness.worker u).pc.left) ∨
      (∃ u c k, c ≠ .benchmark ∧ (s.harness.worker u).pc.callback = some c ∧ s.place u = some k ∧
        cb.step u c (s.harness.worker u).rounds s.shared k = none) ∨
      ∃ r, (∃ u, s.place u ≠ none) ∧ ∀ u,
        (s.harness.worker u).calls = 3 * r + 1 ∧ (∃ k, s.place u = some k ∧
          cb.step u .benchmark r s.shared k = none) ∨
        (s.harness.worker u).calls = 3 * r + 2 ∧ s.place u = none := by
  refine blocked_all (harness_reachable hs) (placed hs) fun u now ↦ ?_
  by_contra hne
  obtain ⟨t, ht⟩ := Option.ne_none_iff_exists'.mp hne
  exact hstuck ⟨.run u now, t, rfl, ht⟩

end Progress

end Loaded

section Silent

variable (body : Rounds.Body (WorkerId opt) σ κ)

def silent : Callbacks (WorkerId opt) σ κ where
  entry _ := body.entry
  step u c r x k :=
    match c with
    | .benchmark => body.step u r x k
    | .pre | .post => some (x, none)

def benchmarks (t : Rounds.State (WorkerId opt) σ κ) : Rounds.State (WorkerId opt) σ κ :=
  ⟨t.shared, fun u ↦ ⟨((t.worker u).calls + 1) / 3,
    if (t.worker u).calls % 3 = 1 then (t.worker u).place else none⟩⟩

variable {body} {t : Rounds.State (WorkerId opt) σ κ} {u : WorkerId opt}

theorem silent_back (h : (t.worker u).calls % 3 ≠ 1) (x : σ) (k : κ) :
    (silent body).body.step u (t.worker u).calls x k = some (x, none) := by
  have hlt := Nat.mod_lt (t.worker u).calls (by decide : 0 < 3)
  have hcases : (t.worker u).calls % 3 = 0 ∨ (t.worker u).calls % 3 = 2 := by omega
  rcases hcases with h | h
  · simp only [Callbacks.body, callbackAt_eq .pre h, silent]
  · simp only [Callbacks.body, callbackAt_eq .post h, silent]

theorem silent_benchmark (h : (t.worker u).calls % 3 = 1) (x : σ) (k : κ) :
    (silent body).body.step u (t.worker u).calls x k =
      body.step u (((t.worker u).calls + 1) / 3) x k := by
  have hround : (t.worker u).calls / 3 = ((t.worker u).calls + 1) / 3 := by omega
  simp only [Callbacks.body, callbackAt_eq .benchmark h, silent, hround]

theorem benchmarks_enter (k : κ) : benchmarks (t.enter u k) =
    if (t.worker u).calls % 3 = 1 then (benchmarks t).enter u k else benchmarks t := by
  split_ifs with h
  · refine congrArg (Rounds.State.mk _) (funext fun v ↦ ?_)
    by_cases hv : v = u
    · subst hv
      simp [benchmarks, h, Rounds.Worker.enter]
    · simp [benchmarks, hv, Rounds.enter_worker_of_ne]
  · refine congrArg (Rounds.State.mk _) (funext fun v ↦ ?_)
    by_cases hv : v = u
    · subst hv
      simp [h, Rounds.Worker.enter]
    · simp [hv, Rounds.enter_worker_of_ne]

theorem benchmarks_move (h : (t.worker u).calls % 3 = 1) (x : σ) (k : Option κ) :
    benchmarks (t.move u x k) = (benchmarks t).move u x k := by
  refine congrArg (Rounds.State.mk _) (funext fun v ↦ ?_)
  by_cases hv : v = u
  · subst hv
    cases k with
    | some k => simp [benchmarks, h, Rounds.Worker.move]
    | none =>
      simp only [benchmarks, Rounds.Worker.move, Rounds.State.move, Function.update_self, ite_self]
      exact congrArg₂ Rounds.Worker.mk (by omega) rfl
  · simp [benchmarks, hv, Rounds.move_worker_of_ne]

theorem benchmarks_back (h : (t.worker u).calls % 3 ≠ 1) :
    benchmarks (t.move u t.shared none) = benchmarks t := by
  refine congrArg (Rounds.State.mk _) (funext fun v ↦ ?_)
  by_cases hv : v = u
  · subst hv
    simp only [Rounds.move_worker_self, Rounds.Worker.move, ite_self, if_neg h]
    exact congrArg₂ Rounds.Worker.mk (by omega) rfl
  · simp [hv, Rounds.move_worker_of_ne]

/-- A benchmark alone is called as in rounds. -/
theorem silent_simulation (body : Rounds.Body (WorkerId opt) σ κ) (init : σ → Prop) :
    Simulation (Phases.system (silent body).body init) (Rounds.system body init)
      (fun t r ↦ r = benchmarks t) where
  init t ht := by
    obtain ⟨x, hx, rfl⟩ := ht
    exact ⟨Rounds.start x, ⟨x, hx, rfl⟩, by simp [benchmarks, Rounds.start]⟩
  step t r u t' _ _ hr hstep := by
    subst hr
    rcases Phases.step_cases hstep with ⟨hplace, hgate, rfl⟩ | ⟨k, x, k', hplace, hbody, rfl⟩
    · rw [benchmarks_enter]
      split_ifs with h
      · right
        have hgo := hgate (decide_eq_true (by omega))
        have hnone : ((benchmarks t).worker u).place = none := (if_pos h).trans hplace
        have hall (v : WorkerId opt) :
            ((benchmarks t).worker u).calls ≤ ((benchmarks t).worker v).calls :=
          Nat.div_le_div_right (Nat.succ_le_succ (hgo v))
        exact ⟨u, _, Rounds.step_enter hnone hall, rfl⟩
      · exact .inl rfl
    · by_cases h : (t.worker u).calls % 3 = 1
      · right
        have hsome : ((benchmarks t).worker u).place = some k := (if_pos h).trans hplace
        rw [silent_benchmark h] at hbody
        rw [benchmarks_move h]
        exact ⟨u, _, Rounds.step_move hsome hbody, rfl⟩
      · rw [silent_back h] at hbody
        cases hbody
        exact .inl (benchmarks_back h).symm

end Silent

/-- The harness calls the callbacks of any benchmark in phases: while a worker is in `benchmark`,
all have come back from `benchmark_pre` of the same round, and while one is in `benchmark_post`,
all have come back from `benchmark`. -/
theorem callbacks_phased (opt : Options) (hP : 1 ≤ opt.lmOptP) (hT : 1 ≤ opt.lmOptT)
    (init : σ → Prop) :
    (∀ (cb : Callbacks (WorkerId opt) σ κ) s, (Loaded.system opt cb init).Reachable s →
      (Phases.system cb.body init).Reachable s.phases ∧
      ∀ u v, ((s.harness.worker u).pc.callback = some .benchmark →
          3 * (s.harness.worker u).rounds + 1 ≤ (s.harness.worker v).calls) ∧
        ((s.harness.worker u).pc.callback = some .post →
          3 * (s.harness.worker u).rounds + 2 ≤ (s.harness.worker v).calls)) ∧
    ∀ (body : Rounds.Body (WorkerId opt) σ κ) s, (Loaded.system opt (silent body) init).Reachable s →
      (Rounds.system body init).Reachable (benchmarks s.phases) := by
  have : Nonempty (WorkerId opt) := ⟨⟨0, hP⟩, ⟨0, hT⟩⟩
  refine ⟨fun cb s hs ↦ ⟨Loaded.phases_reachable hs, fun u v ↦ ⟨fun hc ↦ ?_, fun hc ↦ ?_⟩⟩,
    fun body s hs ↦ ?_⟩
  · have h := gate_open (Loaded.harness_reachable hs) hc (by decide) v
    rwa [Worker.calls, WorkerPc.called_callback hc] at h
  · have h := gate_open (Loaded.harness_reachable hs) hc (by decide) v
    rwa [Worker.calls, WorkerPc.called_callback hc] at h
  · obtain ⟨r, hr, rfl⟩ := (silent_simulation body init).reachable (Loaded.phases_reachable hs)
    exact hr

abbrev sixOptions : Options := ⟨0, 1, 1, 2, 3, 0⟩

def counting : Rounds.Body (WorkerId sixOptions) ℕ Unit := ⟨(), fun _ _ n _ ↦ some (n + 1, none)⟩

def counted (n : ℕ) : Loaded.State (WorkerId sixOptions) ℕ Unit :=
  (Loaded.system sixOptions (silent counting) (· = 0)).turns
    ⟨start sixOptions 0, 0, fun _ ↦ none⟩ (inTurn sixOptions n)

set_option maxRecDepth 10000 in
/-- While one of them is in its second call, and at the end. -/
theorem callbacks_phased_six :
    ((counted 105).shared = 9 ∧
      ((counted 105).harness.worker (0, 0)).pc.callback = some .benchmark ∧
      ∀ v, 3 * ((counted 105).harness.worker (0, 0)).rounds + 1 ≤
        ((counted 105).harness.worker v).calls) ∧
    (counted 240).shared = 12 ∧ (∀ u, ((counted 240).harness.worker u).pc = .done) ∧
    (Phases.system (silent counting).body (· = 0)).Reachable (counted 240).phases ∧
    (Rounds.system counting (· = 0)).Reachable (benchmarks (counted 240).phases) := by
  have hreach (n : ℕ) : (Loaded.system sixOptions (silent counting) (· = 0)).Reachable (counted n) :=
    System.turns_reachable (A := Loaded.system sixOptions (silent counting) (· = 0))
      ⟨0, 0, rfl, rfl⟩ _
  obtain ⟨hphased, hrounds⟩ := callbacks_phased sixOptions (by decide) (by decide) (· = 0)
  have hin : (counted 105).shared = 9 ∧
      ((counted 105).harness.worker (0, 0)).pc.callback = some .benchmark := by decide +kernel
  have hend : (counted 240).shared = 12 ∧
      ∀ u, ((counted 240).harness.worker u).pc = .done := by decide +kernel
  exact ⟨⟨hin.1, hin.2, fun v ↦ ((hphased _ _ (hreach 105)).2 (0, 0) v).1 hin.2⟩, hend.1, hend.2,
    (hphased _ _ (hreach 240)).1, hrounds _ _ (hreach 240)⟩

end LibMicro.Harness
