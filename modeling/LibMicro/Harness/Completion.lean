import LibMicro.Harness.Termination

namespace LibMicro.Harness

open TransitionSystem Barrier

/-- No worker finds itself past the deadline in the first `lm_optC` rounds. -/
def Punctual (opt : Options) {ι : Type} (s : State ι) (a : Act ι) : Prop :=
  ∀ u now r, a = .run u now → (s.worker u).pc = .testDeadline r →
    (s.worker u).rounds < opt.lmOptC.toNat → ¬ r.reT1 > s.bar.baDeadline

/-- The flag goes down only in the round after the last sample. -/
structure FullLength {opt : Options} (M : ℕ) (s : State (WorkerId opt)) : Prop where
  stop : ∀ u r, (s.worker u).pc = .stop r → (s.worker u).rounds = M
  ended : s.bar.baFlag = 0 → ∀ u, (s.worker u).recorded.length = M ∧ M < (s.worker u).entered

section

variable {opt : Options} {M : ℕ} {s s' : State (WorkerId opt)} {a : Act (WorkerId opt)}

theorem Moves.stop_cases {ι : Type} [DecidableEq ι] {b b' : BarrierT ι} {u : ι} {now : BitVec 64}
    {w w' : Worker} (h : Moves opt b u now w b' w') {r : ResultT} (hr : w'.pc = .stop r) :
    (w.pc = .testDeadline r ∧ r.reT1 > b.baDeadline ∨
      w.pc = .testTarget r ∧ b.baTgtSamples = b.baSamples) ∧ w'.rounds = w.rounds := by
  cases h with
  | late hpc hl => cases hr; exact ⟨.inl ⟨hpc, hl⟩, rfl⟩
  | reached hpc ht => cases hr; exact ⟨.inr ⟨hpc, ht⟩, rfl⟩
  | _ => cases hr

theorem WorkerPc.outside {pc : WorkerPc} (h : ¬ pc.inside) : pc.call = none ∧ pc.passed = 0 := by
  cases pc <;> simp_all [inside, call, passed]

variable [Nonempty (WorkerId opt)]

theorem stop_full (hs : (system opt).Reachable s) (ha : Accounting M s) {u : WorkerId opt}
    {r : ResultT} (hpc : (s.worker u).pc = .stop r) (hu : (s.worker u).rounds = M)
    (v : WorkerId opt) : (s.worker v).recorded.length = M ∧ M < (s.worker v).entered := by
  have hin : (s.worker u).pc.inside := by rw [hpc]; trivial
  refine ⟨le_antisymm (ha.worker v).bound (hu ▸ rounds_le_recorded hs ha hin v), ?_⟩
  obtain ⟨g, -, hpos⟩ := exists_phase hs
  have hodd := (hpos u).2.2
  rw [hpc] at hodd
  replace hodd : 2 * (s.worker u).rounds + 1 = g := hodd rfl
  obtain ⟨hle, hlt, heq⟩ := hpos v
  have hp := (s.worker v).pc.passed_le
  unfold Worker.entered
  split_ifs with hi
  · by_cases h2 : (s.worker v).pc.passed = 2
    · have hcall : (s.worker v).pc.call = none := by
        cases hv : (s.worker v).pc <;> simp_all [WorkerPc.passed, WorkerPc.call]
      have := heq hcall
      omega
    · omega
  · obtain ⟨hcall, hzero⟩ := WorkerPc.outside hi
    have := heq hcall
    omega

theorem step_fullLength (hs : (system opt).Reachable s) (ha : Accounting opt.lmOptC.toNat s)
    (hf : FullLength opt.lmOptC.toNat s) (hg : Punctual opt s a) (hst : step opt s a = some s') :
    FullLength opt.lmOptC.toNat s' := by
  rcases step_cases hst with ⟨u, now, b, w, rfl, hw, rfl⟩ | ⟨u, -, -, rfl⟩
  · have hm := workerStep_moves hw
    refine ⟨fun v r ↦ ?_, fun hflag v ↦ ?_⟩
    · by_cases hv : v = u
      · subst hv
        simp only [Function.update_self]
        intro hr
        obtain ⟨⟨hpc, hl⟩ | ⟨hpc, ht⟩, he⟩ := hm.stop_cases hr
        · have hn := (ha.worker v).point
          rw [hpc] at hn
          have hge : ¬ (s.worker v).rounds < opt.lmOptC.toNat := fun hlt ↦
            hg v now r rfl hpc hlt hl
          have hbound := (ha.worker v).bound
          rw [show (s.worker v).recorded.length = (s.worker v).rounds from hn] at hbound
          exact he.trans (le_antisymm hbound (not_lt.mp hge))
        · exact he.trans ((target_iff hs ha hpc).mp ht)
      · simp only [Function.update_of_ne hv]
        exact hf.stop v r
    · have hold : (s.worker v).recorded.length = opt.lmOptC.toNat ∧
          opt.lmOptC.toNat < (s.worker v).entered := by
        rcases hm.flag with he | ⟨⟨r, hpc⟩, -⟩
        · exact hf.ended (he ▸ hflag) v
        · exact stop_full hs ha hpc (hf.stop u r hpc) v
      by_cases hv : v = u
      · subst hv
        simp only [Function.update_self]
        have hbound := ((step_accounting hs ha hst).worker v).bound
        simp only [Function.update_self] at hbound
        have hent := hm.entered
        rcases hm.recorded (ha.worker v).point with ⟨he, -⟩ | ⟨r, r', -, he, -⟩
        · rw [he]
          omega
        · rw [he, List.length_append, List.length_singleton] at hbound
          omega
      · simp only [Function.update_of_ne hv]
        exact hold
  · exact ⟨hf.stop, hf.ended⟩

theorem reachable_fullLength
    (ht : (targetSamples opt).toNat = opt.lmOptC.toNat * Fintype.card (WorkerId opt))
    (hs : (system opt).ReachableBy (Punctual opt) s) : FullLength opt.lmOptC.toNat s := by
  refine hs.invariant (fun s h ↦ ?_) fun s a s' hr hf hg hst ↦
    step_fullLength hr.reachable (reachable_accounting ht hr.reachable) hf hg hst
  obtain ⟨starttime, rfl⟩ := h
  exact ⟨fun u r h ↦ (by cases h), fun h ↦ (by simp [start, lmBarrier] at h)⟩

end

theorem targetSamples_toNat (opt : Options) :
    (targetSamples opt).toNat = opt.lmOptC.toNat * opt.workers % 2 ^ 32 := by
  simp only [targetSamples, Options.workers, BitVec.toNat_mul, BitVec.toNat_ofNat]
  rw [Nat.mod_mul_mod, Nat.mul_mod_mod, mul_right_comm, Nat.mul_mod_mod, mul_right_comm, mul_assoc]

/-- The samples of a run are counted right and the run has the length that `-C`
and the deadline give it. -/
theorem sample_accounting (opt : Options) (hP : 1 ≤ opt.lmOptP) (hT : 1 ≤ opt.lmOptT)
    (hC : opt.lmOptC.toNat * opt.workers < 2 ^ 32) :
    (targetSamples opt).toNat = opt.lmOptC.toNat * opt.workers ∧
    (∀ s, (system opt).Reachable s →
      (∀ j u v, j + 1 < (s.worker v).entered →
        ((s.worker u).recorded.map Prod.fst).count j = 1) ∧
      (∀ k v, k < (s.worker v).entered → ¬ PhaseComplete s.queues (2 * k + 1) →
        s.bar.baSamples.toNat = k * opt.workers) ∧
      (∀ u r, (s.worker u).pc = .testTarget r →
        (s.bar.baTgtSamples = s.bar.baSamples ↔ (s.worker u).rounds = opt.lmOptC.toNat)) ∧
      s.bar.baSamples.toNat ≤ opt.lmOptC.toNat * opt.workers ∧
      ((∀ u, (s.worker u).pc.left) →
        ∀ u v, (s.worker u).recorded.length ≤ (s.worker v).recorded.length + 1) ∧
      (∀ u, ∀ x ∈ (s.worker u).recorded, x.2.reT1 ≤ s.bar.baDeadline)) ∧
    (∀ s, (system opt).ReachableBy (Punctual opt) s →
      (∀ u, (s.worker u).entered ≤ opt.lmOptC.toNat + 1) ∧
      ((∀ u, (s.worker u).pc.left) ∨ (system opt).Enabled (fun a ↦ a.isRun) s) ∧
      ((∀ u, (s.worker u).pc.left) → ∀ u, (s.worker u).rounds = opt.lmOptC.toNat + 1 ∧
        (s.worker u).recorded.map Prod.fst = List.range opt.lmOptC.toNat)) ∧
    (∀ s l t, (system opt).Reachable s → (system opt).Run s l t →
      l.countP Act.isRun ≤ opt.workers * (28 * (opt.lmOptC.toNat + 2)) +
        2 * l.countP (fun a ↦ !Act.isRun a)) := by
  have : Nonempty (WorkerId opt) := ⟨⟨0, hP⟩, ⟨0, hT⟩⟩
  have hcard : Fintype.card (WorkerId opt) = opt.workers := by
    simp [Fintype.card_prod, Options.workers]
  have htarget := (targetSamples_toNat opt).trans (Nat.mod_eq_of_lt hC)
  rw [← hcard] at htarget ⊢
  refine ⟨htarget, fun s hs ↦ ?_, fun s hs ↦ ?_, fun s l t hs h ↦ run_bounded htarget hs h⟩
  · have ha := reachable_accounting htarget hs
    refine ⟨fun j u v hj ↦ ?_, fun k v hk hn ↦ ?_, fun u r ↦ target_iff hs ha, ?_,
      fun _ ↦ recorded_le hs ha, fun u ↦ (ha.worker u).deadline⟩
    · have hn := entered_le_recorded hs ha u v
      rw [(ha.worker u).rounds, List.count_range, if_pos (by omega)]
    · -- nobody is past the first barrier of round `k`
      obtain ⟨g, hg, hpos⟩ := exists_sampled_phase hs ha
      rw [hg] at hn
      have hall (u) : (s.worker u).recorded.length = k := by
        have hge := entered_le_recorded hs ha u v
        have hle := (hpos u).2.2.1
        omega
      rw [ha.samples]
      simp only [hall, Finset.sum_const, Finset.card_univ, smul_eq_mul, mul_comm]
    · rw [ha.samples, mul_comm]
      have h := Finset.sum_le_card_nsmul Finset.univ (fun u ↦ (s.worker u).recorded.length)
        opt.lmOptC.toNat fun u _ ↦ (ha.worker u).bound
      rwa [Finset.card_univ, smul_eq_mul] at h
  · have ha := reachable_accounting htarget hs.reachable
    have hf := reachable_fullLength htarget hs
    have hle (u) : (s.worker u).entered ≤ opt.lmOptC.toNat + 1 :=
      (entered_le_recorded hs.reachable ha u u).trans
        (Nat.add_le_add_right (ha.worker u).bound 1)
    refine ⟨hle, no_stuck hs.reachable, fun hl u ↦ ?_⟩
    have hflag := (reachable_agreement hs.reachable).left u (hl u)
    obtain ⟨hn, hlt⟩ := hf.ended hflag u
    have hent : (s.worker u).entered = (s.worker u).rounds := by
      simp [Worker.entered, (WorkerPc.left_outside (hl u)).2.2]
    refine ⟨?_, hn ▸ (ha.worker u).rounds⟩
    have := hle u
    omega

set_option maxRecDepth 10000 in
/-- Six workers that record one sample each: in the first round, when only one of them has
recorded, and at the end. -/
theorem sample_accounting_six :
    let opt : Options := ⟨0, 1, 1, 2, 3, 0⟩
    let s := (system opt).turns (start opt 0) (inTurn opt 42)
    let t := (system opt).turns (start opt 0) (inTurn opt 220)
    (targetSamples opt).toNat = 1 * 6 ∧
    ((s.worker (0, 0)).recorded.length = 0 ∧ (s.worker (1, 2)).recorded.length = 1 ∧
      s.bar.baSamples.toNat ≤ 1 * 6) ∧
    (∀ u, (t.worker u).pc = .done ∧ (t.worker u).entered = 2) ∧
    (∀ u, ((t.worker u).recorded.map Prod.fst).count 0 = 1) ∧
    (∀ u v, (t.worker u).recorded.length ≤ (t.worker v).recorded.length + 1) ∧
    ((system opt).taken (start opt 0) (inTurn opt 220)).countP Act.isRun ≤
      6 * (28 * (1 + 2)) +
        2 * ((system opt).taken (start opt 0) (inTurn opt 220)).countP (fun a ↦ !Act.isRun a) := by
  intro opt s t
  have h := sample_accounting opt (by decide) (by decide) (by decide)
  have hs := h.2.1 s (System.turns_reachable (A := system opt) ⟨0, rfl⟩ _)
  have ht := h.2.1 t (System.turns_reachable (A := system opt) ⟨0, rfl⟩ _)
  have hrun := h.2.2.2 _ _ t (.start ⟨0, rfl⟩) (System.turns_run (A := system opt) _ _)
  have hfirst : (s.worker (0, 0)).recorded.length = 0 ∧
      (s.worker (1, 2)).recorded.length = 1 := by decide +kernel
  have hdone : ∀ u, (t.worker u).pc = .done ∧ (t.worker u).entered = 2 := by decide +kernel
  clear_value s t
  have hleft (u : WorkerId opt) : (t.worker u).pc.left := by
    rw [(hdone u).1]
    trivial
  exact ⟨h.1, ⟨hfirst.1, hfirst.2, hs.2.2.2.1⟩, hdone,
    fun u ↦ ht.1 0 u u (by rw [(hdone u).2]; decide), ht.2.2.2.2.1 hleft, hrun⟩

end LibMicro.Harness
