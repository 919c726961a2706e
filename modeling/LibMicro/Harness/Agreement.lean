import LibMicro.Harness.Projection

namespace LibMicro.Harness

open TransitionSystem Barrier

variable {ι : Type}

/-- Every value read at the loop top is one, except that which ends the loop. -/
def ReadsOk (w : Worker) : Prop :=
  w.reads = List.replicate w.entered 1 ++ if w.pc.left then [0] else []

/-- Once the flag is down, no worker is before a first barrier that is still to
be completed. -/
structure Agreement (s : State ι) : Prop where
  flag : s.bar.baFlag = 0 ∨ s.bar.baFlag = 1
  reads : ∀ u, ReadsOk (s.worker u)
  left : ∀ u, (s.worker u).pc.left → s.bar.baFlag = 0
  stopped : s.bar.baFlag = 0 → ∀ u, (s.worker u).pc.first →
    PhaseComplete s.queues (2 * (s.worker u).rounds + 1)

variable [DecidableEq ι] {opt : Options}

theorem queueStep_frame {o : ℤ} {b b' : BarrierT ι} {u : ι} {r : Option ResultT} {pc : QueuePc}
    {next : Option QueuePc} (h : queueStep o b u r pc = some (b', next)) :
    b'.baFlag = b.baFlag ∧ b'.baDeadline = b.baDeadline ∧ b'.baTgtSamples = b.baTgtSamples ∧
      b'.slots = b.slots := by
  cases pc <;> simp only [queueStep] at h <;> (try split at h) <;> (try split at h) <;>
    cases h <;> simp [addSample]

theorem Moves.flag {b b' : BarrierT ι} {u : ι} {now : BitVec 64} {w w' : Worker}
    (h : Moves opt b u now w b' w') :
    b'.baFlag = b.baFlag ∨ (∃ r, w.pc = .stop r) ∧ b'.baFlag = 0 := by
  cases h with
  | stop hpc => exact .inr ⟨⟨_, hpc⟩, rfl⟩
  | first hpc hq | firstReturn hpc hq | second hpc _ hq | secondReturn hpc hq =>
    exact .inl (queueStep_frame hq).1
  | _ => exact .inl rfl

theorem Moves.reads {b b' : BarrierT ι} {u : ι} {now : BitVec 64} {w w' : Worker}
    (h : Moves opt b u now w b' w') (hf : b.baFlag = 0 ∨ b.baFlag = 1) (hw : ReadsOk w) :
    ReadsOk w' := by
  unfold ReadsOk Worker.entered at hw ⊢
  cases h with
  | enter hpc hz =>
    simp [hw, hf.resolve_left hz, hpc, WorkerPc.left, WorkerPc.inside, List.replicate_succ']
  | leave hpc hz => simp [hw, hz, hpc, WorkerPc.left, WorkerPc.inside]
  | _ => simp_all [WorkerPc.left, WorkerPc.inside]

theorem Moves.left {b b' : BarrierT ι} {u : ι} {now : BitVec 64} {w w' : Worker}
    (h : Moves opt b u now w b' w') (hl : w'.pc.left) : w.pc.left ∨ b.baFlag = 0 := by
  cases h with
  | leave hpc hz => exact .inr hz
  | finiworker hpc => exact .inl (hpc ▸ trivial)
  | _ => simp [WorkerPc.left] at hl

theorem Moves.first_half {b b' : BarrierT ι} {u : ι} {now : BitVec 64} {w w' : Worker}
    (h : Moves opt b u now w b' w') (hf : w'.pc.first) :
    (w.pc.first ∧ w'.rounds = w.rounds ∨ b.baFlag ≠ 0) ∧ b'.baFlag = b.baFlag := by
  cases h with
  | enter hpc hz => exact ⟨.inr hz, rfl⟩
  | pre hpc | align t hpc => exact ⟨.inl ⟨hpc ▸ trivial, rfl⟩, rfl⟩
  | first hpc hq => exact ⟨.inl ⟨hpc ▸ trivial, rfl⟩, (queueStep_frame hq).1⟩
  | _ => simp [WorkerPc.first] at hf

omit [DecidableEq ι] in
theorem WorkerPc.first_passed {pc : WorkerPc} (h : pc.first) : pc.passed = 0 := by
  cases pc <;> first | rfl | exact h.elim

omit [DecidableEq ι] in
theorem start_agreement (opt : Options) (starttime : BitVec 64) :
    Agreement (start opt starttime : State ι) where
  flag := .inr rfl
  reads _ := rfl
  left _ h := h.elim
  stopped h := by simp [start, lmBarrier] at h

theorem stop_complete [Nonempty (WorkerId opt)] {s : State (WorkerId opt)}
    (hs : (system opt).Reachable s) {u v : WorkerId opt} {r : ResultT}
    (hu : (s.worker u).pc = .stop r) (hv : (s.worker v).pc.first) :
    PhaseComplete s.queues (2 * (s.worker v).rounds + 1) := by
  obtain ⟨g, hg, hpos⟩ := exists_phase hs
  obtain ⟨hle, hlt, -⟩ := hpos v
  obtain ⟨-, -, heq⟩ := hpos u
  rw [hu] at heq
  replace heq : 2 * (s.worker u).rounds + 1 = g := heq rfl
  rw [WorkerPc.first_passed hv] at hle hlt
  exact (hg _).mpr (by omega)

theorem step_agreement [Nonempty (WorkerId opt)] {s s' : State (WorkerId opt)}
    {a : Act (WorkerId opt)} (hs : (system opt).Reachable s) (ha : Agreement s)
    (hst : step opt s a = some s') : Agreement s' := by
  have hcomplete := fun k ↦ step_complete (k := k) hst
  rcases step_cases hst with ⟨u, now, b, w, -, hw, rfl⟩ | ⟨u, -, -, rfl⟩
  · have hm := workerStep_moves hw
    have hzero (hf : s.bar.baFlag = 0) : b.baFlag = 0 := by
      rcases hm.flag with h | ⟨-, h⟩
      · exact h.trans hf
      · exact h
    refine ⟨?_, fun v ↦ ?_, fun v ↦ ?_, fun hf v ↦ ?_⟩
    · rcases hm.flag with h | ⟨-, h⟩
      · exact h ▸ ha.flag
      · exact .inl h
    · by_cases hv : v = u
      · subst hv; simpa using hm.reads ha.flag (ha.reads v)
      · simpa [Function.update_of_ne hv] using ha.reads v
    · by_cases hv : v = u
      · subst hv
        intro hl
        simp only [Function.update_self] at hl
        exact hzero ((hm.left hl).elim (ha.left v) id)
      · simpa [Function.update_of_ne hv] using fun h ↦ hzero (ha.left v h)
    · by_cases hv : v = u
      · subst hv
        intro hfirst
        simp only [Function.update_self] at hfirst ⊢
        obtain ⟨⟨h, hr⟩ | hne, he⟩ := hm.first_half hfirst
        · exact hcomplete _ (hr ▸ ha.stopped (he ▸ hf) v h)
        · exact absurd (he ▸ hf) hne
      · intro hfirst
        simp only [Function.update_of_ne hv] at hfirst ⊢
        rcases hm.flag with h | ⟨⟨r, hr⟩, -⟩
        · exact hcomplete _ (ha.stopped (h ▸ hf) v hfirst)
        · exact hcomplete _ (stop_complete hs hr hfirst)
  · exact ⟨ha.flag, ha.reads, ha.left, fun hf v hv ↦ hcomplete _ (ha.stopped hf v hv)⟩

theorem reachable_agreement [Nonempty (WorkerId opt)] {s : State (WorkerId opt)}
    (hs : (system opt).Reachable s) : Agreement s := by
  refine hs.invariant (fun s h ↦ ?_) fun s a s' hr ha hst ↦ step_agreement hr ha hst
  obtain ⟨starttime, rfl⟩ := h
  exact start_agreement opt starttime

theorem WorkerPc.inside_first {pc : WorkerPc} (hi : pc.inside) (hp : pc.passed = 0) :
    pc.first := by
  cases pc <;> simp_all [inside, passed, first]

theorem WorkerPc.left_outside {pc : WorkerPc} (h : pc.left) :
    pc.call = none ∧ pc.passed = 0 ∧ ¬ pc.inside := by
  cases pc <;> simp_all [left, call, passed, inside]

theorem WorkerPc.passed_le (pc : WorkerPc) : pc.passed ≤ 2 := by
  cases pc <;> simp [passed]

section

variable [Nonempty (WorkerId opt)] {s : State (WorkerId opt)}

theorem rounds_le (hs : (system opt).Reachable s) (u v : WorkerId opt) :
    (s.worker u).rounds ≤ (s.worker v).rounds + 1 := by
  obtain ⟨g, -, hpos⟩ := exists_phase hs
  obtain ⟨hu, -⟩ := hpos u
  obtain ⟨-, hv, -⟩ := hpos v
  have hp := (s.worker v).pc.passed_le
  omega

theorem left_entered (hs : (system opt).Reachable s) {u : WorkerId opt}
    (hl : (s.worker u).pc.left) (v : WorkerId opt) :
    (s.worker v).entered ≤ (s.worker u).rounds := by
  have ha := reachable_agreement hs
  obtain ⟨g, hg, hpos⟩ := exists_phase hs
  obtain ⟨hcall, hpassed, -⟩ := WorkerPc.left_outside hl
  have heq := (hpos u).2.2 hcall
  have hle := (hpos v).1
  rw [hpassed] at heq
  unfold Worker.entered
  split_ifs with hi
  · by_contra hlt
    have hp : (s.worker v).pc.passed = 0 := by omega
    have hk := (hg _).mp (ha.stopped (ha.left u hl) v (WorkerPc.inside_first hi hp))
    omega
  · omega

theorem reads_agree (hs : (system opt).Reachable s) {u v : WorkerId opt} {k : ℕ} {x y : ℤ}
    (hu : (s.worker u).reads[k]? = some x) (hv : (s.worker v).reads[k]? = some y) : x = y := by
  have ha := reachable_agreement hs
  have hread (w : WorkerId opt) (z : ℤ) (h : (s.worker w).reads[k]? = some z) :
      k < (s.worker w).entered ∧ z = 1 ∨
        (s.worker w).pc.left ∧ (s.worker w).entered ≤ k ∧ z = 0 := by
    rw [ha.reads w] at h
    by_cases hk : k < (s.worker w).entered
    · rw [List.getElem?_append_left (by simpa using hk)] at h
      exact .inl ⟨hk, by simpa [hk] using h.symm⟩
    · rw [List.getElem?_append_right (by simpa using hk)] at h
      split_ifs at h with hl
      · have hz := List.mem_of_getElem? h
        exact .inr ⟨hl, not_lt.mp hk, by simpa using hz⟩
      · simp at h
  have hout (w : WorkerId opt) (hl : (s.worker w).pc.left) :
      (s.worker w).entered = (s.worker w).rounds := by
    simp [Worker.entered, (WorkerPc.left_outside hl).2.2]
  rcases hread u x hu with ⟨hku, rfl⟩ | ⟨hlu, hku, rfl⟩ <;>
    rcases hread v y hv with ⟨hkv, rfl⟩ | ⟨hlv, hkv, rfl⟩
  · rfl
  · have h := left_entered hs hlv u
    have := hout v hlv
    omega
  · have h := left_entered hs hlu v
    have := hout u hlu
    omega
  · rfl

omit [Nonempty (WorkerId opt)] in
theorem workerStep_blocked {ι : Type} [DecidableEq ι] {b : BarrierT ι} {u : ι} {now : BitVec 64}
    {w : Worker} (h : workerStep opt b u now w = none) :
    w.pc = .done ∨ ∃ q r, w.pc.call = some (q, r) ∧
      queueStep opt.nsecsOverhead b u r q = none := by
  cases hpc : w.pc with
  | done => exact .inl rfl
  | queueFirst q =>
    simp only [workerStep, hpc, Option.map_eq_none_iff] at h
    exact .inr ⟨q, none, rfl, h⟩
  | queueSecond r q =>
    simp only [workerStep, hpc, Option.map_eq_none_iff] at h
    exact .inr ⟨q, some r, rfl, h⟩
  | _ => simp [workerStep, hpc] at h

theorem no_stuck (hs : (system opt).Reachable s) :
    (∀ u, (s.worker u).pc.left) ∨ (system opt).Enabled (fun a ↦ a.isRun) s := by
  by_contra hstuck
  obtain ⟨hleft, hen⟩ := not_or.mp hstuck
  have ha := reachable_agreement hs
  have hblocked (u : WorkerId opt) : (s.worker u).pc = .done ∨ ∃ q r,
      (s.worker u).pc.call = some (q, r) ∧ queueStep opt.nsecsOverhead s.bar u r q = none := by
    suffices hnone : workerStep opt s.bar u 0 (s.worker u) = none from workerStep_blocked hnone
    by_contra hne
    obtain ⟨⟨b, w⟩, hw⟩ := Option.ne_none_iff_exists'.mp hne
    exact hen ⟨.run u 0, _, rfl, by simp only [system, step, hw]; rfl⟩
  obtain ⟨hwait, u, hu⟩ := blocked_waiting (queues_reachable hs) fun u q r hc ↦ by
    rcases hblocked u with hd | ⟨q', r', hc', hq⟩
    · simp [State.queues, hd, WorkerPc.call] at hc
    · cases hc'.symm.trans hc
      exact hq
  obtain ⟨v, hv⟩ := not_forall.mp hleft
  have hdone : (s.worker u).pc = .done := by
    rcases hblocked u with hd | ⟨q, r, hc, -⟩
    · exact hd
    · cases hc.symm.trans hu
  have hin : (s.worker v).pc.call ≠ none := by
    rcases hblocked v with hd | ⟨q, r, hc, -⟩
    · exact absurd (hd ▸ trivial) hv
    · simp [hc]
  obtain ⟨g, hg, hpos⟩ := exists_phase hs
  have heven := (hpos u).2.2 hu
  obtain ⟨hle, hlt, -⟩ := hpos v
  have hk := hwait v hin
  have hentered : s.queues.entered v = (s.worker v).returned + 1 := congrArg _ (if_neg hin)
  rw [hg, hentered, Worker.returned] at hk
  rw [hdone] at heven
  replace heven : 2 * (s.worker u).rounds = g := heven
  -- an incomplete phase that all have left behind is that of a first barrier
  have hfirst : (s.worker v).pc.first := by
    cases hpc : (s.worker v).pc with
    | queueFirst q => trivial
    | queueSecond r q => simp only [hpc, WorkerPc.passed] at hk hle; omega
    | _ => simp [hpc, WorkerPc.call] at hin
  have hc := (hg _).mp (ha.stopped (ha.left u (hdone ▸ trivial)) v hfirst)
  rw [WorkerPc.first_passed hfirst] at hk
  omega

end

/-- The workers of a run go through the same rounds and never block each other. -/
theorem run_agreement (opt : Options) (hP : 1 ≤ opt.lmOptP) (hT : 1 ≤ opt.lmOptT)
    (s : State (WorkerId opt)) (hs : (system opt).Reachable s) :
    (∀ u v, (s.worker u).rounds ≤ (s.worker v).rounds + 1) ∧
    (∀ u v (k : ℕ) x y, (s.worker u).reads[k]? = some x → (s.worker v).reads[k]? = some y →
      x = y) ∧
    (∀ u v, (s.worker u).pc.left → (s.worker v).entered ≤ (s.worker u).rounds) ∧
    ((∀ u, (s.worker u).pc.left) ∨ (system opt).Enabled (fun a ↦ a.isRun) s) ∧
    ((∀ u, (s.worker u).pc.left) → ∀ u v, (s.worker u).rounds = (s.worker v).rounds) := by
  have : Nonempty (WorkerId opt) := ⟨⟨0, hP⟩, ⟨0, hT⟩⟩
  refine ⟨rounds_le hs, fun u v k x y ↦ reads_agree hs, fun u v hl ↦ left_entered hs hl v,
    no_stuck hs, fun hl u v ↦ ?_⟩
  have huv := left_entered hs (hl u) v
  have hvu := left_entered hs (hl v) u
  unfold Worker.entered at huv hvu
  omega

set_option maxRecDepth 10000 in
/-- Six workers that read the flag as 1, 1 and 0, in the second round and at the end. -/
theorem run_agreement_six :
    let opt : Options := ⟨0, 1, 1, 2, 3, 0⟩
    let s := (system opt).turns (start opt 0) (inTurn opt 110)
    let t := (system opt).turns (start opt 0) (inTurn opt 220)
    ((s.worker (0, 0)).reads = [1, 1] ∧ (s.worker (1, 2)).rounds = 1 ∧ s.bar.baSamples = 6 ∧
      (s.worker (0, 0)).rounds ≤ (s.worker (1, 2)).rounds + 1 ∧
      (system opt).Enabled (fun a ↦ a.isRun) s) ∧
    (∀ u, (t.worker u).pc = .done ∧ (t.worker u).rounds = 2 ∧ (t.worker u).reads = [1, 1, 0]) ∧
    (∀ u v (k : ℕ) x y, (t.worker u).reads[k]? = some x → (t.worker v).reads[k]? = some y →
      x = y) ∧
    (∀ u v, (t.worker v).entered ≤ (t.worker u).rounds) ∧
    ∀ u v, (t.worker u).rounds = (t.worker v).rounds := by
  intro opt s t
  have hs := run_agreement opt (by decide) (by decide) s
    (System.turns_reachable (A := system opt) ⟨0, rfl⟩ _)
  have ht := run_agreement opt (by decide) (by decide) t
    (System.turns_reachable (A := system opt) ⟨0, rfl⟩ _)
  have hin : ¬ (s.worker (0, 0)).pc.left ∧ (s.worker (0, 0)).reads = [1, 1] ∧
      (s.worker (1, 2)).rounds = 1 ∧ s.bar.baSamples = 6 := by decide +kernel
  have hdone : ∀ u, (t.worker u).pc = .done ∧ (t.worker u).rounds = 2 ∧
      (t.worker u).reads = [1, 1, 0] := by decide +kernel
  clear_value s t
  have hleft (u : WorkerId opt) : (t.worker u).pc.left := by
    rw [(hdone u).1]
    trivial
  exact ⟨⟨hin.2.1, hin.2.2.1, hin.2.2.2, hs.1 _ _, hs.2.2.2.1.resolve_left fun h ↦ hin.1 (h _)⟩,
    hdone, ht.2.1, fun u v ↦ ht.2.2.1 u v (hleft u), ht.2.2.2.2 hleft⟩

end LibMicro.Harness
