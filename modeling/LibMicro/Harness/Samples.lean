import Mathlib.Algebra.BigOperators.Fin
import Mathlib.Algebra.Order.BigOperators.Group.Finset
import LibMicro.Harness.Agreement

namespace LibMicro.Harness

open TransitionSystem Barrier

theorem sum_update_add {ι α : Type} [Fintype ι] [DecidableEq ι] (m : α → ℕ) (f : ι → α) (u : ι)
    (x : α) : ∑ v, m (Function.update f u x v) + m (f u) = ∑ v, m (f v) + m x := by
  have hcomp : (fun v ↦ m (Function.update f u x v)) = Function.update (fun v ↦ m (f v)) u (m x) :=
    Function.comp_update m f u x
  rw [hcomp, Finset.sum_update_of_mem (Finset.mem_univ u),
    ← Finset.sum_sdiff (Finset.subset_univ {u})]
  simp only [Finset.sum_singleton]
  omega

/-- What a worker with `n` samples knows in its second call of `barrier_queue`
in round `k`, if the target is `M` samples of each worker. -/
def SecondOk {ι : Type} (M : ℕ) (b : BarrierT ι) (n k : ℕ) (r : ResultT) : QueuePc → Prop
  | .lock | .record => n = k ∧ (b.baFlag = 0 ∨ k < M ∧ r.reT1 ≤ b.baDeadline)
  | .addSample r' => n = k ∧ k < M ∧ r'.reT1 ≤ b.baDeadline
  | .arrive | .broadcast _ | .test _ | .wait _ | .unlock _ =>
    n = k + 1 ∨ b.baFlag = 0 ∧ n = k

/-- A worker has a sample of each of its rounds, except perhaps of the last one,
in which the flag went down. -/
def PointOk {ι : Type} (M : ℕ) (b : BarrierT ι) (n k : ℕ) : WorkerPc → Prop
  | .initworker | .top | .finiworker | .done => n = k ∨ b.baFlag = 0 ∧ n + 1 = k
  | .pre | .align | .takeT0 | .benchmark _ | .takeT1 _ | .testDeadline _ | .stop _ => n = k
  | .queueFirst q => n = k ∧ ∀ r, q ≠ .addSample r
  | .testTarget r => n = k ∧ r.reT1 ≤ b.baDeadline
  | .sync r => n = k ∧ (b.baFlag = 0 ∨ k < M ∧ r.reT1 ≤ b.baDeadline)
  | .queueSecond r q => SecondOk M b n k r q
  | .post => n = k + 1 ∨ b.baFlag = 0 ∧ n = k

structure SampleOk {ι : Type} (M : ℕ) (b : BarrierT ι) (w : Worker) : Prop where
  point : PointOk M b w.recorded.length w.rounds w.pc
  rounds : w.recorded.map Prod.fst = List.range w.recorded.length
  bound : w.recorded.length ≤ M
  deadline : ∀ x ∈ w.recorded, x.2.reT1 ≤ b.baDeadline

section

variable {ι : Type} {M n k : ℕ} {b b' : BarrierT ι} {w w' : Worker}

theorem PointOk.mono {pc : WorkerPc} (h : PointOk M b n k pc) (hf : b.baFlag = 0 → b'.baFlag = 0)
    (hd : b'.baDeadline = b.baDeadline) : PointOk M b' n k pc := by
  cases pc with
  | queueSecond r q =>
    cases q with
    | lock | record => exact h.imp_right fun h ↦ hd ▸ h.imp_left hf
    | addSample r' => exact ⟨h.1, h.2.1, hd ▸ h.2.2⟩
    | arrive | broadcast p | test p | wait p | unlock p => exact h.imp_right (.imp_left hf)
  | initworker | top | finiworker | done | post => exact h.imp_right (.imp_left hf)
  | testTarget r => exact ⟨h.1, hd ▸ h.2⟩
  | sync r => exact h.imp_right fun h ↦ hd ▸ h.imp_left hf
  | _ => exact h

theorem SampleOk.mono (h : SampleOk M b w) (hf : b.baFlag = 0 → b'.baFlag = 0)
    (hd : b'.baDeadline = b.baDeadline) : SampleOk M b' w :=
  ⟨h.point.mono hf hd, h.rounds, h.bound, hd ▸ h.deadline⟩

theorem PointOk.arrivals {pc : WorkerPc} (h : PointOk M b n k pc) :
    (2 * k + pc.passed + if Arrived pc.call then 1 else 0) ≤ 2 * n + 1 ∨
      b.baFlag = 0 ∧ (2 * k + pc.passed + if Arrived pc.call then 1 else 0) = 2 * n + 2 := by
  cases pc with
  | queueSecond r q =>
    cases q with
    | lock | record | addSample r' =>
      have hn := h.1
      rw [if_neg (fun h ↦ h rfl)]
      simp only [WorkerPc.passed]
      omega
    | arrive =>
      simp only [PointOk, SecondOk] at h
      rw [if_neg (fun h ↦ h rfl)]
      simp only [WorkerPc.passed]
      omega
    | broadcast p | test p | wait p | unlock p =>
      split_ifs with ha
      · simp only [PointOk, SecondOk] at h
        simp only [WorkerPc.passed]
        omega
      · exact absurd (Option.some_ne_none p) ha
  | queueFirst q =>
    have hn := h.1
    simp only [WorkerPc.passed]
    split_ifs <;> omega
  | testTarget r | sync r =>
    have hn := h.1
    split_ifs with ha
    · exact ha.elim
    · simp only [WorkerPc.passed]
      omega
  | _ =>
    simp only [PointOk] at h
    split_ifs with ha
    · exact ha.elim
    · simp only [WorkerPc.passed]
      omega

theorem PointOk.returned {pc : WorkerPc} (h : PointOk M b n k pc) :
    2 * n ≤ 2 * k + pc.passed + 1 := by
  cases pc with
  | queueSecond r q =>
    cases q <;> simp only [PointOk, SecondOk] at h <;> simp only [WorkerPc.passed] <;> omega
  | _ => simp only [PointOk] at h; simp only [WorkerPc.passed]; omega

variable [DecidableEq ι] {opt : Options} {u : ι} {now : BitVec 64}

theorem Moves.frame (h : Moves opt b u now w b' w') :
    b'.baDeadline = b.baDeadline ∧ b'.baTgtSamples = b.baTgtSamples ∧ b'.slots = b.slots := by
  cases h with
  | first hpc hq | firstReturn hpc hq | second hpc _ hq | secondReturn hpc hq =>
    exact (queueStep_frame hq).2
  | _ => exact ⟨rfl, rfl, rfl⟩

theorem Moves.flag_down (h : Moves opt b u now w b' w') (hf : b.baFlag = 0) : b'.baFlag = 0 := by
  rcases h.flag with he | ⟨-, he⟩
  · exact he.trans hf
  · exact he

theorem queueStep_samples {o : ℤ} {r : Option ResultT} {q : QueuePc} {next : Option QueuePc}
    (h : queueStep o b u r q = some (b', next)) (hadd : ∀ r', q ≠ .addSample r') :
    b'.baSamples = b.baSamples := by
  cases q with
  | addSample r' => exact absurd rfl (hadd r')
  | _ => simp only [queueStep] at h; (try split at h) <;> (try split at h) <;> cases h <;> rfl

theorem queueStep_second {o : ℤ} {r : ResultT} {q q' : QueuePc}
    (h : queueStep o b u (some r) q = some (b', some q')) (hadd : ∀ r', q ≠ .addSample r')
    (hs : SecondOk M b n k r q) : SecondOk M b n k r q' := by
  cases q with
  | addSample r' => exact absurd rfl (hadd r')
  | record =>
    simp only [queueStep] at h
    split_ifs at h with hf <;> cases h
    · exact ⟨hs.1, hs.2.resolve_left hf⟩
    · exact .inr ⟨not_not.mp hf, hs.1⟩
  | lock =>
    simp only [queueStep] at h
    split_ifs at h
    cases h
    exact hs
  | arrive | broadcast p | test p | wait p | unlock p =>
    simp only [queueStep] at h
    (try split at h) <;> cases h <;> exact hs

theorem queueStep_none {o : ℤ} {q q' : QueuePc} (h : queueStep o b u none q = some (b', some q'))
    (r' : ResultT) : q' ≠ .addSample r' := by
  cases q <;> simp only [queueStep] at h <;> (try split at h) <;> cases h <;> simp

theorem queueStep_return {o : ℤ} {r : Option ResultT} {q : QueuePc}
    (h : queueStep o b u r q = some (b', none)) : ∃ p, q = .unlock p := by
  cases q with
  | unlock p => exact ⟨p, rfl⟩
  | _ => simp only [queueStep] at h; (try split at h) <;> (try split at h) <;> cases h

theorem Moves.pointOk (h : Moves opt b u now w b' w')
    (hw : PointOk M b w.recorded.length w.rounds w.pc) (hn : w.recorded.length ≤ M)
    (htarget : ∀ r, w.pc = .testTarget r → w.rounds = M → b.baTgtSamples = b.baSamples) :
    PointOk M b' w'.recorded.length w'.rounds w'.pc := by
  have hflag := h.flag_down
  have hdeadline := h.frame.1
  have hmono := hw.mono hflag hdeadline
  cases h with
  | initworker hpc | pre hpc | takeT0 hpc | benchmark hpc | takeT1 hpc | late hpc hr | sync hpc
  | finiworker hpc =>
    rw [hpc] at hmono
    exact hmono
  | enter hpc hf =>
    rw [hpc] at hw
    exact hw.resolve_right fun h ↦ hf h.1
  | leave hpc hf =>
    rw [hpc] at hmono
    exact hmono
  | align t hpc =>
    rw [hpc] at hmono
    exact ⟨hmono, by simp⟩
  | first hpc hq =>
    rw [hpc] at hmono
    exact ⟨hmono.1, queueStep_none hq⟩
  | firstReturn hpc hq | reached hpc ht =>
    rw [hpc] at hmono
    exact hmono.1
  | inTime hpc hr =>
    rw [hpc] at hmono
    exact ⟨hmono, BitVec.not_lt.mp hr⟩
  | goOn hpc ht =>
    rw [hpc] at hw
    have hk : w.rounds ≠ M := fun hk ↦ ht (htarget _ hpc hk)
    exact ⟨hw.1, .inr ⟨lt_of_le_of_ne (hw.1 ▸ hn) hk, hw.2⟩⟩
  | stop hpc =>
    rw [hpc] at hmono
    exact ⟨hmono, .inl rfl⟩
  | record hpc =>
    rw [hpc] at hw
    exact .inl (by simpa using hw.1)
  | @second r q q' b' hpc hadd hq =>
    rw [hpc] at hw
    have hsecond : PointOk M b _ _ (.queueSecond r q') := queueStep_second hq hadd hw
    exact hsecond.mono hflag hdeadline
  | secondReturn hpc hq =>
    obtain ⟨p, rfl⟩ := queueStep_return hq
    rw [hpc] at hmono
    exact hmono
  | post hpc =>
    rw [hpc] at hmono
    exact hmono.imp_right fun h ↦ ⟨h.1, congrArg (· + 1) h.2⟩

theorem Moves.recorded (h : Moves opt b u now w b' w')
    (hw : PointOk M b w.recorded.length w.rounds w.pc) :
    w'.recorded = w.recorded ∧ b'.baSamples = b.baSamples ∨
      ∃ r r', w.pc = .queueSecond r (.addSample r') ∧
        w'.recorded = w.recorded ++ [(w.rounds, r')] ∧ b'.baSamples = b.baSamples + 1 := by
  cases h with
  | record hpc => exact .inr ⟨_, _, hpc, rfl, rfl⟩
  | first hpc hq | firstReturn hpc hq =>
    rw [hpc] at hw
    exact .inl ⟨rfl, queueStep_samples hq hw.2⟩
  | second hpc hadd hq => exact .inl ⟨rfl, queueStep_samples hq hadd⟩
  | secondReturn hpc hq =>
    obtain ⟨p, rfl⟩ := queueStep_return hq
    exact .inl ⟨rfl, queueStep_samples hq (by simp)⟩
  | _ => exact .inl ⟨rfl, rfl⟩

theorem Moves.sampleOk (h : Moves opt b u now w b' w') (hw : SampleOk M b w)
    (htarget : ∀ r, w.pc = .testTarget r → w.rounds = M → b.baTgtSamples = b.baSamples) :
    SampleOk M b' w' := by
  have hd := h.frame.1
  suffices hs : w'.recorded.map Prod.fst = List.range w'.recorded.length ∧
      w'.recorded.length ≤ M ∧ ∀ x ∈ w'.recorded, x.2.reT1 ≤ b'.baDeadline from
    ⟨h.pointOk hw.point hw.bound htarget, hs.1, hs.2.1, hs.2.2⟩
  rcases h.recorded hw.point with ⟨he, -⟩ | ⟨r, r', hpc, he, -⟩
  · rw [he, hd]
    exact ⟨hw.rounds, hw.bound, hw.deadline⟩
  · have hp := hw.point
    rw [hpc] at hp
    obtain ⟨hn, hlt, hle⟩ := hp
    rw [he, hd]
    refine ⟨?_, ?_, fun x hx ↦ ?_⟩
    · simp [hw.rounds, hn, List.range_succ]
    · simp only [List.length_append, List.length_cons, List.length_nil]
      omega
    · rcases List.mem_append.mp hx with hx | hx
      · exact hw.deadline x hx
      · rw [List.mem_singleton.mp hx]
        exact hle

end

structure Accounting {opt : Options} (M : ℕ) (s : State (WorkerId opt)) : Prop where
  target : s.bar.baTgtSamples.toNat = M * Fintype.card (WorkerId opt)
  slots : s.bar.slots = M * Fintype.card (WorkerId opt)
  samples : s.bar.baSamples.toNat = ∑ u, (s.worker u).recorded.length
  worker : ∀ u, SampleOk M s.bar (s.worker u)

section

variable {opt : Options} {M : ℕ} {s s' : State (WorkerId opt)} {a : Act (WorkerId opt)}

theorem start_accounting (ht : (targetSamples opt).toNat = M * Fintype.card (WorkerId opt))
    (starttime : BitVec 64) : Accounting M (start opt starttime : State (WorkerId opt)) where
  target := by rw [← ht]; simp [start, lmBarrier, barrierCreate]
  slots := ht
  samples := by simp [start, lmBarrier, barrierCreate]
  worker u := ⟨.inl rfl, rfl, Nat.zero_le _, by simp [start]⟩

variable [Nonempty (WorkerId opt)]

theorem exists_sampled_phase (hs : (system opt).Reachable s) (ha : Accounting M s) :
    ∃ g, (∀ k, PhaseComplete s.queues k ↔ k ≤ g) ∧
      ∀ u, 2 * (s.worker u).rounds + (s.worker u).pc.passed ≤ g ∧
        ((s.worker u).pc.call = none →
          2 * (s.worker u).rounds + (s.worker u).pc.passed = g) ∧
        2 * (s.worker u).recorded.length ≤ g + 1 ∧
        (g ≤ 2 * (s.worker u).recorded.length + 1 ∨
          s.bar.baFlag = 0 ∧ g ≤ 2 * (s.worker u).recorded.length + 2) := by
  obtain ⟨g, hg, hpos⟩ := exists_phase hs
  refine ⟨g, hg, fun u ↦ ?_⟩
  obtain ⟨hle, -, heq⟩ := hpos u
  have hp := (ha.worker u).point
  have hall : g ≤ 2 * (s.worker u).rounds + (s.worker u).pc.passed +
      if Arrived (s.worker u).pc.call then 1 else 0 := (hg g).mpr le_rfl u
  refine ⟨hle, heq, hp.returned.trans (Nat.add_le_add_right hle 1), ?_⟩
  rcases hp.arrivals with h | ⟨hf, h⟩
  · exact .inl (hall.trans h)
  · exact .inr ⟨hf, hall.trans h.le⟩

theorem rounds_le_recorded (hs : (system opt).Reachable s) (ha : Accounting M s)
    {v : WorkerId opt} (hv : (s.worker v).pc.inside) (u : WorkerId opt) :
    (s.worker v).rounds ≤ (s.worker u).recorded.length := by
  obtain ⟨g, hg, hpos⟩ := exists_sampled_phase hs ha
  have hle := (hpos v).1
  rcases (hpos u).2.2.2 with h | ⟨hf, h⟩
  · omega
  · have hodd : 2 * (s.worker v).rounds + 1 ≤ g := by
      by_cases hp : (s.worker v).pc.passed = 0
      · exact (hg _).mp ((reachable_agreement hs).stopped hf v (WorkerPc.inside_first hv hp))
      · omega
    omega

theorem entered_le_recorded (hs : (system opt).Reachable s) (ha : Accounting M s)
    (u v : WorkerId opt) : (s.worker v).entered ≤ (s.worker u).recorded.length + 1 := by
  unfold Worker.entered
  split_ifs with hv
  · exact Nat.add_le_add_right (rounds_le_recorded hs ha hv u) 1
  · obtain ⟨g, -, hpos⟩ := exists_sampled_phase hs ha
    have hle := (hpos v).1
    have hn := (hpos u).2.2.2
    omega

theorem recorded_le (hs : (system opt).Reachable s) (ha : Accounting M s) (u v : WorkerId opt) :
    (s.worker u).recorded.length ≤ (s.worker v).recorded.length + 1 := by
  obtain ⟨g, -, hpos⟩ := exists_sampled_phase hs ha
  have hu := (hpos u).2.2.1
  have hv := (hpos v).2.2.2
  omega

theorem target_iff (hs : (system opt).Reachable s) (ha : Accounting M s) {u : WorkerId opt}
    {r : ResultT} (hpc : (s.worker u).pc = .testTarget r) :
    s.bar.baTgtSamples = s.bar.baSamples ↔ (s.worker u).rounds = M := by
  have hu := (ha.worker u).point
  obtain ⟨g, -, hpos⟩ := exists_sampled_phase hs ha
  have hg := (hpos u).2.1
  rw [hpc] at hu hg
  replace hg : 2 * (s.worker u).rounds + 1 = g := hg rfl
  have hge (v) := rounds_le_recorded hs ha (v := u) (by rw [hpc]; trivial) v
  have hle (v) : (s.worker v).recorded.length ≤ (s.worker u).rounds + 1 := by
    have h := (hpos v).2.2.1
    omega
  rw [← BitVec.toNat_inj, ha.target, ha.samples]
  constructor
  · intro hsum
    by_contra hne
    have hlt : (s.worker u).rounds < M := lt_of_le_of_ne (hu.1 ▸ (ha.worker u).bound) hne
    have hstrict : ∑ v, (s.worker v).recorded.length < ∑ _v : WorkerId opt, M :=
      Finset.sum_lt_sum (fun v _ ↦ (hle v).trans hlt) ⟨u, Finset.mem_univ u, hu.1 ▸ hlt⟩
    rw [← hsum, Finset.sum_const, Finset.card_univ, smul_eq_mul, mul_comm] at hstrict
    exact lt_irrefl _ hstrict
  · intro hM
    have hall (v) : (s.worker v).recorded.length = M :=
      le_antisymm (ha.worker v).bound (hM ▸ hge v)
    simp only [hall, Finset.sum_const, Finset.card_univ, smul_eq_mul, mul_comm]

theorem step_accounting (hs : (system opt).Reachable s) (ha : Accounting M s)
    (hst : step opt s a = some s') : Accounting M s' := by
  rcases step_cases hst with ⟨u, now, b, w, -, hw, rfl⟩ | ⟨u, -, -, rfl⟩
  · have hm := workerStep_moves hw
    obtain ⟨hd, ht, hslots⟩ := hm.frame
    have hworker : ∀ v, SampleOk M b (Function.update s.worker u w v) := by
      intro v
      by_cases hv : v = u
      · subst hv
        rw [Function.update_self]
        exact hm.sampleOk (ha.worker v) fun r hpc hk ↦ (target_iff hs ha hpc).mpr hk
      · rw [Function.update_of_ne hv]
        exact (ha.worker v).mono hm.flag_down hd
    suffices hn : b.baSamples.toNat = ∑ v, (Function.update s.worker u w v).recorded.length from
      ⟨ht ▸ ha.target, hslots.trans ha.slots, hn, hworker⟩
    have hsum := sum_update_add (fun w ↦ w.recorded.length) s.worker u w
    rcases hm.recorded (ha.worker u).point with ⟨he, hb⟩ | ⟨r, r', -, he, hb⟩
    · rw [hb, ha.samples]
      rw [he] at hsum
      omega
    · -- the counter does not wrap: it stays within the target
      have hbound := Finset.sum_le_card_nsmul Finset.univ
        (fun v ↦ (Function.update s.worker u w v).recorded.length) M fun v _ ↦ (hworker v).bound
      have ht := ha.target
      have hlt := s.bar.baTgtSamples.isLt
      rw [Finset.card_univ, smul_eq_mul, mul_comm, ← ht] at hbound
      rw [he, List.length_append, List.length_singleton] at hsum
      rw [hb, BitVec.toNat_add, ha.samples, show BitVec.toNat (1 : BitVec 32) = 1 from rfl]
      omega
  · exact ⟨ha.target, ha.slots, ha.samples, fun v ↦ (ha.worker v).mono id rfl⟩

theorem reachable_accounting (ht : (targetSamples opt).toNat = M * Fintype.card (WorkerId opt))
    (hs : (system opt).Reachable s) : Accounting M s := by
  refine hs.invariant (fun s h ↦ ?_) fun s a s' hr ha hst ↦ step_accounting hr ha hst
  obtain ⟨starttime, rfl⟩ := h
  exact start_accounting ht starttime

end

end LibMicro.Harness
