import LibMicro.Harness.Agreement
import LibMicro.Processes.Family

namespace LibMicro.Processes

open TransitionSystem Barrier Harness

/-- The worker calls `barrier_queue` no more, and if it is inside, it can return. -/
structure Past {ι : Type} (h : Harness.State ι) (v : ι) : Prop where
  flag : h.bar.baFlag = 0
  place : ((h.worker v).pc = .initworker ∨ (h.worker v).pc = .top ∨ (h.worker v).pc = .post ∨
      (h.worker v).pc = .finiworker ∨ (h.worker v).pc = .done) ∨
    (∃ r q, (h.worker v).pc = .queueSecond r q) ∧
      PhaseComplete h.queues (2 * (h.worker v).rounds + 2)

section

variable {ι : Type} {h h' : Harness.State ι} {u v : ι}

theorem Past.complete (hp : Past h v) (hc : (h.worker v).pc.call ≠ none) :
    PhaseComplete h.queues (h.queues.entered v) := by
  rcases hp.place with hpc | ⟨⟨r, q, hpc⟩, hk⟩
  · rcases hpc with hpc | hpc | hpc | hpc | hpc <;> rw [hpc] at hc <;> exact absurd rfl hc
  · have he : h.queues.entered v = 2 * (h.worker v).rounds + 2 := by
      rw [Barrier.State.entered, if_neg (show h.queues.call v ≠ none from hc)]
      simp [State.queues, Worker.returned, hpc, WorkerPc.passed]
    rwa [he]

variable [DecidableEq ι] {opt : Options}

theorem Past.moves {b : BarrierT ι} {now : BitVec 64} {w : Worker} (hp : Past h v)
    (hm : Harness.Moves opt h.bar v now (h.worker v) b w)
    (hk : ∀ k, PhaseComplete h.queues k →
      PhaseComplete (⟨b, Function.update h.worker v w⟩ : Harness.State ι).queues k) :
    Past ⟨b, Function.update h.worker v w⟩ v ∧
      ((h.worker v).pc.call = none → w.pc.call = none) := by
  have hflag : b.baFlag = 0 := hm.flag.elim (fun he ↦ he.trans hp.flag) And.right
  have hplace := hp.place
  have hdown (hw : w.pc = .initworker ∨ w.pc = .top ∨ w.pc = .post ∨ w.pc = .finiworker ∨
      w.pc = .done) : Past ⟨b, Function.update h.worker v w⟩ v :=
    ⟨hflag, .inl (by simpa only [Function.update_self] using hw)⟩
  cases hm with
  | initworker hpc | leave hpc _ | secondReturn hpc _ | post hpc | finiworker hpc =>
    exact ⟨hdown (by simp), fun _ ↦ rfl⟩
  | enter hpc hf => exact absurd hp.flag hf
  | record hpc | second hpc _ _ =>
    simp only [hpc, reduceCtorEq, or_self, false_or] at hplace
    refine ⟨⟨hflag, .inr ?_⟩, fun hc ↦ ?_⟩
    · simp only [Function.update_self]
      exact ⟨⟨_, _, rfl⟩, hk _ hplace.2⟩
    · rw [hpc] at hc
      cases hc
  | pre hpc | align _ hpc | first hpc _ | firstReturn hpc _ | takeT0 hpc | benchmark hpc
  | takeT1 hpc | late hpc _ | inTime hpc _ | reached hpc _ | goOn hpc _ | stop hpc | sync hpc =>
    simp [hpc] at hplace

theorem Past.step {a : Harness.Act ι} (hp : Past h v) (hst : Harness.step opt h a = some h') :
    Past h' v ∧ ((h.worker v).pc.call = none → (h'.worker v).pc.call = none) := by
  have hk := fun k ↦ step_complete (k := k) hst
  rcases step_cases hst with ⟨u, now, b, w, -, hw, rfl⟩ | ⟨u, -, -, rfl⟩
  · have hm := workerStep_moves hw
    by_cases hv : v = u
    · subst hv
      simpa only [Function.update_self] using hp.moves hm hk
    · have hflag : b.baFlag = 0 := hm.flag.elim (fun he ↦ he.trans hp.flag) And.right
      simp only [Function.update_of_ne hv]
      refine ⟨⟨hflag, ?_⟩, id⟩
      simp only [Function.update_of_ne hv]
      exact hp.place.imp_right fun ⟨hq, hc⟩ ↦ ⟨hq, hk _ hc⟩
  · exact ⟨⟨hp.flag, hp.place.imp_right fun ⟨hq, hc⟩ ↦ ⟨hq, hk _ hc⟩⟩, id⟩

theorem run_enabled (hd : (h.worker v).pc ≠ .done)
    (hq : ∀ q r, (h.worker v).pc.call = some (q, r) →
      queueStep opt.nsecsOverhead h.bar v r q ≠ none) :
    ∃ h', Harness.step opt h (.run v 0) = some h' := by
  have hw : workerStep opt h.bar v 0 (h.worker v) ≠ none := by
    intro hnone
    rcases workerStep_blocked hnone with hpc | ⟨q, r, hc, hn⟩
    · exact hd hpc
    · exact hq q r hc hn
  obtain ⟨⟨b, w⟩, hw⟩ := Option.ne_none_iff_exists'.mp hw
  exact ⟨_, by rw [Harness.step, hw]; rfl⟩

theorem run_of_queue {t : Barrier.State ι}
    (hst : Barrier.step opt.nsecsOverhead h.queues (.queue v) = some t) :
    (h.worker v).pc.call ≠ none ∧ ∃ h', Harness.step opt h (.run v 0) = some h' := by
  rcases Barrier.step_cases hst with ⟨_, _, hl, -⟩ | ⟨u, q, r, b, next, hl, hc, hq, -⟩ |
    ⟨_, hl, -⟩ | ⟨_, hl, -⟩ <;> cases hl
  have hcall : (h.worker v).pc.call = some (q, r) := hc
  refine ⟨by rw [hcall]; simp, run_enabled (fun hd ↦ ?_) fun q' r' hc' ↦ ?_⟩
  · rw [hd] at hcall
    cases hcall
  · cases hcall.symm.trans hc'
    exact fun hn ↦ by cases hn.symm.trans hq

theorem step_lock {a : Harness.Act ι} (hst : Harness.step opt h a = some h')
    (hv : h'.bar.baLock = some v) :
    h.bar.baLock = some v ∨ ∃ now, a = .run v now := by
  rcases step_cases hst with ⟨u, now, b, w, rfl, hw, rfl⟩ | ⟨u, -, -, rfl⟩
  · have hq {q : QueuePc} {r : Option ResultT} {next : Option QueuePc}
        (hq : queueStep opt.nsecsOverhead h.bar u r q = some (b, next)) :
        h.bar.baLock = some v ∨ ∃ now', Harness.Act.run u now = .run v now' := by
      cases q <;> simp only [queueStep] at hq <;> (try split at hq) <;> (try split at hq) <;>
        cases hq <;> simp_all [addSample]
    cases workerStep_moves hw with
    | first _ h | firstReturn _ h | second _ _ h | secondReturn _ h => exact hq h
    | _ => exact .inl hv
  · exact .inl hv

end

section

variable {opt : Options} [Nonempty (WorkerId opt)] {h : Harness.State (WorkerId opt)}
  {u v : WorkerId opt}

/-- After the last barrier of one worker, no other calls `barrier_queue` again. -/
theorem past_of_last (hr : (Harness.system opt).Reachable h) (hf : h.bar.baFlag = 0)
    (hu : (h.worker u).pc = .post ∨ (h.worker u).pc = .finiworker) (v : WorkerId opt) :
    Past h v := by
  obtain ⟨g, hg, hpos⟩ := exists_phase hr
  have heven : ∃ m, g = 2 * m := by
    have heq := (hpos u).2.2
    rcases hu with hpc | hpc <;> rw [hpc] at heq
    · exact ⟨(h.worker u).rounds + 1, (heq rfl).symm⟩
    · exact ⟨(h.worker u).rounds, (heq rfl).symm⟩
  obtain ⟨m, rfl⟩ := heven
  obtain ⟨hle, hlt, heq⟩ := hpos v
  have hfirst (hv : (h.worker v).pc.first) : False := by
    have hk := (hg _).mp ((reachable_agreement hr).stopped hf v hv)
    rw [WorkerPc.first_passed hv] at hlt
    omega
  refine ⟨hf, ?_⟩
  cases hpc : (h.worker v).pc with
  | initworker | top | post | finiworker | done => simp
  | queueSecond r q =>
    rw [hpc] at hle hlt
    simp only [WorkerPc.passed] at hle hlt
    exact .inr ⟨⟨r, q, rfl⟩, (hg _).mpr (by omega)⟩
  | pre | align | queueFirst q => exact (hfirst (by rw [hpc]; trivial)).elim
  | takeT0 | benchmark t0 | takeT1 t0 | testDeadline r | testTarget r | stop r | sync r =>
    rw [hpc] at heq
    replace heq := heq rfl
    simp only [WorkerPc.passed] at heq
    omega

/-- A worker that is past the barriers can go on itself, or waits for the holder
of the lock, who can. -/
theorem Past.next (hp : Past h v) (hr : (Harness.system opt).Reachable h)
    (hd : (h.worker v).pc ≠ .done) : ∃ w, (w = v ∨ (h.worker v).pc.call ≠ none ∧
      (h.worker w).pc.call ≠ none ∧ h.bar.baLock = some w) ∧
      ∃ h', Harness.step opt h (.run w 0) = some h' := by
  by_cases hc : (h.worker v).pc.call = none
  · exact ⟨v, .inl rfl, run_enabled hd fun q r hq ↦ by cases hc.symm.trans hq⟩
  · obtain ⟨l, t, hl, hrun, hret⟩ :=
      returns_after_completion (queues_reachable hr) (u := v) hc (hp.complete hc)
    cases hrun with
    | nil => simp at hret
    | @cons _ _ _ c l hst _ =>
      rcases hl c List.mem_cons_self with rfl | ⟨w, hlock, rfl⟩
      · exact ⟨v, .inl rfl, (run_of_queue hst).2⟩
      · obtain ⟨hw, hnext⟩ := run_of_queue hst
        exact ⟨w, .inr ⟨hc, hw, hlock⟩, hnext⟩

end

variable {opt : Options} {s s' : State opt} {a : Act opt} {u v : WorkerId opt}

/-- The parent comes to `k` before it comes to a process that has failed. -/
def State.Ahead (s : State opt) (k : Fin opt.lmOptP) : Prop :=
  s.parent.index ≤ k.val ∧ ∀ m : Fin opt.lmOptP, s.parent.index ≤ m.val → m ≤ k →
    ¬ (s.process m).failed

/-- If the parent has to wait for another process first, the failure comes after
the last barrier and leaves `ba_lock` free for those who are still inside. -/
def FailOk (s : State opt) : Act opt → Prop
  | .fail u => ∀ k, s.Ahead k → k < u.1 →
    (s.harness.bar.baFlag = 0 ∧ (s.pc u = .post ∨ s.pc u = .finiworker)) ∧
    ∀ t v, (s.pc (k, t)).call ≠ none → s.harness.bar.baLock = some v → v.1 ≠ u.1
  | .parent | .main _ | .run _ _ | .spurious _ => True

theorem failOk_single (hP : opt.lmOptP = 1) (s : State opt) (a : Act opt) : FailOk s a := by
  cases a with
  | fail u => exact fun k _ hk ↦ absurd hk (by have := u.1.isLt; omega)
  | parent | main p | run u now | spurious u => trivial

/-- Once a process has failed, those for which the parent waits first need
nobody else to finish. -/
def Safe (s : State opt) : Prop :=
  s.parent ≠ .exited → ∀ j, (s.process j).failed → ∀ k, s.Ahead k → k < j → ∀ t,
    Past s.harness (k, t) ∧ ((s.pc (k, t)).call ≠ none → ∀ v, s.harness.bar.baLock = some v →
      ¬ (s.process v.1).failed)

theorem Family.index_le (hf : Family s) (hp : s.parent ≠ .exited) {j : Fin opt.lmOptP}
    (hj : s.process j ≠ .exited 0) : s.parent.index ≤ j.val := by
  cases hpar : s.parent with
  | waiting i =>
    by_contra hlt
    exact hj ((hf.waiting i hpar j).2 (not_le.mp hlt))
  | forking i | finished => exact Nat.zero_le _
  | exited => exact absurd hpar hp

theorem Process.failed_ne {q : Process} (h : q.failed) : q ≠ .exited 0 := by
  rintro rfl
  exact h rfl

theorem failed_update {p : Fin opt.lmOptP} {q : Process} (hp : ¬ (s.process p).failed)
    (hq : ¬ q.failed) (j : Fin opt.lmOptP) :
    (Function.update s.process p q j).failed ↔ (s.process j).failed := by
  by_cases hj : j = p
  · subst hj
    rw [Function.update_self]
    exact iff_of_false hq hp
  · rw [Function.update_of_ne hj]

theorem ahead_congr (hparent : s'.parent.index = s.parent.index)
    (hfailed : ∀ j, (s'.process j).failed ↔ (s.process j).failed) (k : Fin opt.lmOptP)
    (hk : s'.Ahead k) : s.Ahead k := by
  simpa only [State.Ahead, hparent, hfailed] using hk

theorem Safe.keep (hs : Safe s) (hp : s.parent ≠ .exited)
    (hfailed : ∀ j, (s'.process j).failed ↔ (s.process j).failed)
    (hahead : ∀ k, s'.Ahead k → s.Ahead k) (hharness : s'.harness = s.harness) : Safe s' := by
  intro _ j hj k hk hlt t
  have h := hs hp j ((hfailed j).mp hj) k (hahead k hk) hlt t
  simp only [State.pc, hharness]
  exact ⟨h.1, fun hc v hv hvf ↦ h.2 hc v hv ((hfailed v.1).mp hvf)⟩

theorem Safe.harness {b : Harness.Act (WorkerId opt)} {h : Harness.State (WorkerId opt)}
    (hs : Safe s) (hst : Harness.step opt s.harness b = some h)
    (hu : ∀ u now, b = .run u now → s.Started u) : Safe { s with harness := h } := by
  intro hp j hj k hk hlt t
  obtain ⟨hpast, hlock⟩ := hs hp j hj k hk hlt t
  obtain ⟨hpast', hcall⟩ := hpast.step hst
  refine ⟨hpast', fun hc v hv ↦ ?_⟩
  rcases step_lock hst hv with hv | ⟨now, hb⟩
  · exact hlock (fun hn ↦ hc (hcall hn)) v hv
  · have hlive := (hu v now hb).living.2
    cases hq : s.process v.1 with
    | exited status => exact absurd hq (hlive status)
    | unborn | creating i | running | joining i => exact id

theorem Advances.failed {p : Fin opt.lmOptP} {next : Process} (h : Advances s p next) :
    ¬ (s.process p).failed ∧ ¬ next.failed := by
  cases h with
  | create hp _ | work hp _ | worked hp _ | join hp _ _ | exit hp _ => simp [hp, Process.failed]

theorem Safe.fail [Nonempty (WorkerId opt)] (hr : (Harness.system opt).Reachable s.harness)
    (hf : Family s) (hs : Safe s) (hu : s.Started u) (hok : FailOk s (.fail u)) :
    Safe { s with process := Function.update s.process u.1 (.exited 1) } := by
  intro hp j hj k hk hlt t
  have hlive := hu.living.2
  have hold {m : Fin opt.lmOptP} (hm : (s.process m).failed) :
      (Function.update s.process u.1 (.exited 1) m).failed := by
    have hne : m ≠ u.1 := by
      rintro rfl
      cases hq : s.process u.1 with
      | exited status => exact hlive status hq
      | unborn | creating i | running | joining i => rw [hq] at hm; exact hm
    rwa [Function.update_of_ne hne]
  have hahead : s.Ahead k := ⟨hk.1, fun m hm hmk hmf ↦ hk.2 m hm hmk (hold hmf)⟩
  have hku : k < u.1 := by
    by_contra hle
    refine hk.2 u.1 (hf.index_le hp (hlive 0)) (not_lt.mp hle) ?_
    simp only [Function.update_self]
    exact one_ne_zero
  obtain ⟨⟨hflag, hpc⟩, hlock⟩ := hok k hahead hku
  refine ⟨past_of_last hr hflag hpc (k, t), fun hc v hv hvf ↦ ?_⟩
  have hvu := hlock t v hc hv
  simp only [Function.update_of_ne hvu] at hvf
  by_cases hkv : k < v.1
  · exact (hs hp v.1 hvf k hahead hkv t).2 hc v hv hvf
  · exact hahead.2 v.1 (hf.index_le hp (Process.failed_ne hvf)) (not_lt.mp hkv) hvf

theorem Safe.step [Nonempty (WorkerId opt)] (hr : (Harness.system opt).Reachable s.harness)
    (hf : Family s) (hs : Safe s) (hok : FailOk s a) (h : step s a = some s') : Safe s' := by
  have hf' := hf.step h
  cases step_moves h with
  | @fork i hp hi =>
    have hq : s.process ⟨i, hi⟩ = .unborn := (hf.forking i hp _).mpr le_rfl
    have hfailed := failed_update (s := s) (p := ⟨i, hi⟩) (q := .creating 1)
      (by simp [hq, Process.failed]) (by simp [Process.failed])
    exact hs.keep (by simp [hp]) hfailed (ahead_congr (by simp [hp, Parent.index]) hfailed) rfl
  | forked hp hi =>
    exact hs.keep (by simp [hp]) (fun _ ↦ Iff.rfl)
      (ahead_congr (by simp [hp, Parent.index]) fun _ ↦ Iff.rfl) rfl
  | @reap i hp hi he =>
    refine hs.keep (by simp [hp]) (fun _ ↦ Iff.rfl) (fun k hk ↦ ?_) rfl
    simp only [State.Ahead, Parent.index] at hk
    simp only [State.Ahead, Parent.index, hp]
    refine ⟨by omega, fun m hm hmk ↦ ?_⟩
    rcases Nat.eq_or_lt_of_le hm with rfl | hm
    · simp [he, Process.failed]
    · exact hk.2 m hm hmk
  | stop hp hi he hne => exact fun hp ↦ absurd rfl hp
  | reaped hp hi => exact fun _ j hj ↦ absurd (hf'.finished rfl j) (Process.failed_ne hj)
  | main p hadv =>
    intro hp
    have hfailed := failed_update hadv.failed.1 hadv.failed.2
    exact hs.keep hp hfailed (ahead_congr rfl hfailed) rfl hp
  | run u now hu hst => exact hs.harness hst fun v now' hb ↦ by cases hb; exact hu
  | spurious u hu hst => exact hs.harness hst fun v now hb ↦ by cases hb
  | fail u hu hc => exact hs.fail hr hf hu hok

theorem reachable_safe [Nonempty (WorkerId opt)] (hs : (system opt).ReachableBy FailOk s) :
    Safe s := by
  refine hs.invariant (I := Safe) ?_ fun s a s' hr hi hok hst ↦ ?_
  · rintro s ⟨starttime, rfl⟩ _ j hj
    exact hj.elim
  · exact hi.step (harness_reachable hr.reachable) (reachable_family hr.reachable) hok hst

theorem Family.started (hf : Family s) (hc : (s.pc u).call ≠ none)
    (hu : ¬ (s.process u.1).failed) : s.Started u := by
  have ht := hf.threads u
  unfold State.Started
  cases hq : s.process u.1 with
  | unborn =>
    rw [hq] at ht
    rw [show s.pc u = .initworker from ht] at hc
    exact hc rfl
  | creating i =>
    rw [hq] at ht
    by_contra hn
    rw [ht (by omega)] at hc
    exact hc rfl
  | running | joining i => trivial
  | exited status =>
    rw [hq] at ht hu
    rw [ht (not_not.mp hu)] at hc
    exact hc rfl

theorem run_past [Nonempty (WorkerId opt)] (hr : (Harness.system opt).Reachable s.harness)
    (hf : Family s) (hu : s.Started u) (hd : s.pc u ≠ .done) (hpast : Past s.harness u)
    (hlock : (s.pc u).call ≠ none → ∀ v, s.harness.bar.baLock = some v →
      ¬ (s.process v.1).failed) : (system opt).Enabled Act.Own s := by
  obtain ⟨w, hw, h, hst⟩ := hpast.next hr hd
  have hws : s.Started w := by
    rcases hw with rfl | ⟨hcu, hcw, hl⟩
    · exact hu
    · exact hf.started hcw (hlock hcu w hl)
  refine ⟨.run w 0, { s with harness := h }, trivial, ?_⟩
  simp only [system, Processes.step, if_pos hws, hst]
  rfl

theorem own_enabled (ha : a.Own) (h : step s a ≠ none) : (system opt).Enabled Act.Own s := by
  obtain ⟨s', hs'⟩ := Option.ne_none_iff_exists'.mp h
  exact ⟨a, s', ha, hs'⟩

theorem main_enabled {p : Fin opt.lmOptP} (hborn : s.process p ≠ .unborn)
    (hlive : ∀ status, s.process p ≠ .exited status) :
    (system opt).Enabled Act.Own s ∨ ∃ t, s.Started (p, t) ∧ s.pc (p, t) ≠ .done := by
  cases hq : s.process p with
  | unborn => exact absurd hq hborn
  | exited status => exact absurd hq (hlive status)
  | creating i => exact .inl (own_enabled (a := .main p) trivial (by simp [step, hq]))
  | running =>
    by_cases hd : ∀ t : Fin opt.lmOptT, t.val = 0 → s.pc (p, t) = .done
    · exact .inl (own_enabled (a := .main p) trivial (by simp only [step, hq, if_pos hd]; simp))
    · obtain ⟨t, ht⟩ := not_forall.mp hd
      exact .inr ⟨t, by simp [State.Started, hq], fun h ↦ ht fun _ ↦ h⟩
  | joining i =>
    by_cases hi : i < opt.lmOptT
    · by_cases hd : s.pc (p, ⟨i, hi⟩) = .done
      · exact .inl (own_enabled (a := .main p) trivial (by simp [step, hq, hi, hd]))
      · exact .inr ⟨⟨i, hi⟩, by simp [State.Started, hq], hd⟩
    · exact .inl (own_enabled (a := .main p) trivial (by simp [step, hq, hi]))

/-- A failing worker ends the run, if every failure is such that the processes
for which the parent waits first can finish. -/
theorem failure_ends_run (opt : Options) (hP : 1 ≤ opt.lmOptP) (hT : 1 ≤ opt.lmOptT)
    (s : State opt) (hs : (system opt).ReachableBy FailOk s) (hf : ∃ j, (s.process j).failed)
    (hp : s.parent ≠ .exited) : (system opt).Enabled Act.Own s := by
  have : Nonempty (WorkerId opt) := ⟨⟨0, hP⟩, ⟨0, hT⟩⟩
  have hr := harness_reachable hs.reachable
  have hfam := reachable_family hs.reachable
  obtain ⟨j, hj⟩ := hf
  cases hpar : s.parent with
  | exited => exact absurd hpar hp
  | finished => exact absurd (hfam.finished hpar j) (Process.failed_ne hj)
  | forking i =>
    refine own_enabled (a := .parent) trivial ?_
    by_cases hi : i < opt.lmOptP <;> simp [step, hpar, hi]
  | waiting i =>
    by_cases hi : i < opt.lmOptP
    · by_cases hlive : ∀ status, s.process ⟨i, hi⟩ ≠ .exited status
      · rcases main_enabled (hfam.waiting i hpar ⟨i, hi⟩).1 hlive with h | ⟨t, hu, hd⟩
        · exact h
        have hindex : s.parent.index = i := by rw [hpar]; rfl
        have hnot : ¬ (s.process ⟨i, hi⟩).failed := by
          cases hq : s.process ⟨i, hi⟩ with
          | exited status => exact absurd hq (hlive status)
          | unborn | creating i | running | joining i => exact id
        have hahead : s.Ahead ⟨i, hi⟩ := by
          refine ⟨hindex.le, fun m hm hmi ↦ ?_⟩
          rwa [show m = ⟨i, hi⟩ from le_antisymm hmi (hindex ▸ hm)]
        have hij : ⟨i, hi⟩ < j := by
          have hle := hfam.index_le hp (Process.failed_ne hj)
          rw [hindex] at hle
          refine lt_of_le_of_ne hle ?_
          rintro rfl
          exact hnot hj
        obtain ⟨hpast, hlock⟩ := reachable_safe hs hp j hj ⟨i, hi⟩ hahead hij t
        exact run_past hr hfam hu hd hpast hlock
      · obtain ⟨status, he⟩ := not_forall.mp hlive
        exact own_enabled (a := .parent) trivial (by simp [step, hpar, hi, not_not.mp he])
    · exact own_enabled (a := .parent) trivial (by simp [step, hpar, hi])

abbrev twoProcesses : Options := ⟨0, 5, 1, 2, 1, 0⟩

theorem failure_ends_run_two : ∃ s : State twoProcesses,
    (∃ j, (s.process j).failed) ∧ s.parent = .waiting 0 ∧
      (system twoProcesses).Enabled Act.Own s := by
  have h : ((system twoProcesses).exec (start twoProcesses 0)
      [.parent, .parent, .parent, .main 0]).map (fun s ↦ (s.process 0, s.parent, s.pc (0, 0))) =
      some (.running, .waiting 0, .initworker) := by
    decide +kernel
  obtain ⟨s, hs, he⟩ := Option.map_eq_some_iff.mp h
  simp only [Prod.mk.injEq] at he
  obtain ⟨hq, hpar, hpc⟩ := he
  have hr : (system twoProcesses).ReachableBy FailOk s :=
    (System.exec_run hs).reachableBy (.start ⟨0, rfl⟩) (by simp [FailOk])
  have hst : step s (.fail (0, 0)) =
      some { s with process := Function.update s.process 0 (.exited 1) } :=
    if_pos ⟨by simp [State.Started, hq], by rw [hpc]; rfl⟩
  have hfail : ∃ j, (Function.update s.process 0 (.exited 1) j).failed :=
    ⟨0, by simp [Process.failed]⟩
  refine ⟨{ s with process := Function.update s.process 0 (.exited 1) }, hfail, hpar, ?_⟩
  have hok : FailOk s (.fail (0, 0)) := fun k _ hk ↦ absurd hk (Nat.not_lt_zero _)
  exact failure_ends_run twoProcesses (by decide) (by decide) _ (hr.next hok hst) hfail
    (by simp [hpar])

/-- The second process fails at once, and the first one waits for it in the first barrier. -/
theorem failure_hangs : ∃ s : State twoProcesses,
    (system twoProcesses).Reachable s ∧ (∃ j, (s.process j).failed) ∧ s.parent ≠ .exited ∧
      ¬ (system twoProcesses).Enabled Act.Own s := by
  have h : ((system twoProcesses).exec (start twoProcesses 0)
      ([.parent, .parent, .parent, .main 0, .main 1, .fail (1, 0)] ++
        List.replicate 8 (.run (0, 0) 0))).map
      (fun s ↦ (s.process 0, s.process 1, s.parent, s.pc (0, 0),
        decide ((0, 0) ∈ s.harness.bar.baCv))) =
      some (.running, .exited 1, .waiting 0, .queueFirst (.wait 0), true) := by
    decide +kernel
  obtain ⟨s, hs, he⟩ := Option.map_eq_some_iff.mp h
  simp only [Prod.mk.injEq, decide_eq_true_eq] at he
  obtain ⟨hq0, hq1, hpar, hpc, hcv⟩ := he
  refine ⟨s, System.exec_reachable hs ⟨0, rfl⟩, ⟨1, by simp [hq1, Process.failed]⟩,
    by simp [hpar], ?_⟩
  rintro ⟨a, s', ha, hst⟩
  cases step_moves hst with
  | fork hp hi | forked hp hi => cases hpar.symm.trans hp
  | reap hp hi he | stop hp hi he hne =>
    cases hpar.symm.trans hp
    cases hq0.symm.trans he
  | reaped hp hi =>
    cases hpar.symm.trans hp
    exact absurd hi (by decide)
  | main p hadv =>
    rcases Fin.exists_fin_two.mp ⟨p, rfl⟩ with rfl | rfl
    · cases hadv with
      | create hp _ | work hp _ | join hp _ _ | exit hp _ => cases hq0.symm.trans hp
      | worked hp hd => cases hpc.symm.trans (hd 0 rfl)
    · cases hadv with
      | create hp _ | work hp _ | worked hp _ | join hp _ _ | exit hp _ => cases hq1.symm.trans hp
  | run u now hu hh =>
    obtain ⟨p, t⟩ := u
    obtain rfl : t = 0 := Subsingleton.elim t 0
    rcases Fin.exists_fin_two.mp ⟨p, rfl⟩ with rfl | rfl
    · simp only [State.pc] at hpc
      simp [Harness.step, workerStep, hpc, queueStep, hcv] at hh
    · exact hu.living.2 1 hq1
  | spurious | fail => exact ha

end LibMicro.Processes
