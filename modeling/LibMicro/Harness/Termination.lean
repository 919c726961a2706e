import LibMicro.Harness.Samples

namespace LibMicro.Harness

open TransitionSystem Barrier

/-- How many steps a call of `barrier_queue` still makes, if no participant
wakes spuriously. A sleeper whose phase is not complete makes them only when
others have gone on. -/
def callRank (complete asleep : Bool) : QueuePc → ℕ
  | .lock => 8
  | .record => 7
  | .addSample _ => 6
  | .arrive => 5
  | .broadcast _ => 3
  | .test _ => if complete then 2 else 4
  | .wait _ => if complete || asleep then 3 else 5
  | .unlock _ => 1

def WorkerPc.rank (complete asleep : Bool) : WorkerPc → ℕ
  | .pre => 28
  | .align => 27
  | .queueFirst q => 18 + callRank complete asleep q
  | .takeT0 => 18
  | .benchmark _ => 17
  | .takeT1 _ => 16
  | .testDeadline _ => 15
  | .testTarget _ => 14
  | .stop _ => 13
  | .sync _ => 12
  | .queueSecond _ q => 3 + callRank complete asleep q
  | .post => 3
  | .initworker => 3
  | .top => 2
  | .finiworker => 1
  | .done => 0

section

variable {ι : Type}

theorem callRank_mono {c c' a a' : Bool} (hc : c = true → c' = true)
    (ha : c = true ∨ (a = true → a' = true)) (q : QueuePc) : callRank c' a' q ≤ callRank c a q := by
  cases q with
  | test p | wait p => cases c <;> cases c' <;> cases a <;> cases a' <;> simp_all [callRank]
  | _ => exact le_rfl

theorem WorkerPc.rank_mono {c c' a a' : Bool} (hc : c = true → c' = true)
    (ha : c = true ∨ (a = true → a' = true)) (pc : WorkerPc) : pc.rank c' a' ≤ pc.rank c a := by
  cases pc with
  | queueFirst q | queueSecond r q => exact Nat.add_le_add_left (callRank_mono hc ha q) _
  | _ => exact le_rfl

theorem WorkerPc.rank_asleep (c a : Bool) (pc : WorkerPc) : pc.rank c false ≤ pc.rank c a + 2 := by
  cases pc with
  | queueFirst q | queueSecond r q => cases q <;> cases c <;> cases a <;> simp [rank, callRank]
  | _ => simp [rank]

variable [Fintype ι] [DecidableEq ι]

def Complete (s : Barrier.State ι) (u : ι) : Bool := decide (PhaseComplete s (s.returned u + 1))

def Asleep (b : BarrierT ι) (u : ι) : Bool := decide (u ∈ b.baCv)

variable [Nonempty ι] {o : ℤ} {targetSamples : ℕ} {s s' : Barrier.State ι}

theorem queue_rank (hs : (Barrier.system o ι (Fintype.card ι) targetSamples).Reachable s) {u : ι}
    {q q' : QueuePc} {r : Option ResultT} {b : BarrierT ι} (hc : s.call u = some (q, r))
    (hq : queueStep o s.bar u r q = some (b, some q')) {c : Bool}
    (hmono : Complete s u = true → c = true) :
    callRank c (Asleep b u) q' < callRank (Complete s u) (Asleep s.bar u) q := by
  obtain ⟨a, hi, hr⟩ := reachable_refines hs
  have hsaved {p : BitVec 32} (hp : q.saved = some p) : p ≠ s.bar.baPhase ↔ Complete s u = true := by
    have h := hr.released_iff hi (by rw [hc]; simp : s.call u ≠ none)
    rw [hr.phase_ne_iff hi hc hp, ← h, Complete, decide_eq_true_eq, Barrier.State.entered, if_neg]
    simp [hc]
  cases q with
  | lock =>
    simp only [queueStep] at hq
    split_ifs at hq
    cases hq
    simp [callRank]
  | record =>
    cases r with
    | none => cases hq; simp [callRank]
    | some r =>
      simp only [queueStep] at hq
      split_ifs at hq <;> cases hq <;> simp [callRank]
  | addSample r' => cases hq; simp [callRank]
  | arrive =>
    simp only [queueStep] at hq
    split_ifs at hq <;> cases hq
    · simp [callRank]
    · cases c <;> simp [callRank]
  | broadcast p =>
    cases hq
    have hcomplete : c = true := hmono (decide_eq_true (broadcast_complete hs u p r hc u))
    simp [callRank, hcomplete]
  | test p =>
    simp only [queueStep] at hq
    split_ifs at hq with hp <;> cases hq
    · have hn : Complete s u = false := by
        rw [← Bool.not_eq_true, ← hsaved rfl]
        exact not_not.mpr hp.symm
      cases c <;> simp [callRank, hn, Asleep]
    · cases Complete s u <;> simp [callRank]
  | wait p =>
    simp only [queueStep] at hq
    split_ifs at hq with hp
    cases hq
    have ha : Asleep s.bar u = false := decide_eq_false hp.1
    cases hcase : Complete s u with
    | true => simp [callRank, hmono hcase]
    | false => cases c <;> simp [callRank, ha]
  | unlock p => cases hq

end

def State.rank {opt : Options} (M : ℕ) (s : State (WorkerId opt)) (u : WorkerId opt) : ℕ :=
  (M + 1 - (s.worker u).entered) * 27 +
    (s.worker u).pc.rank (Complete s.queues u) (Asleep s.bar u)

theorem WorkerPc.rank_le (c a : Bool) (pc : WorkerPc) : pc.rank c a ≤ 28 := by
  cases pc with
  | queueFirst q | queueSecond r q => cases q <;> cases c <;> cases a <;> simp [rank, callRank]
  | _ => simp [rank]

section

variable {opt : Options} {M : ℕ} {s s' : State (WorkerId opt)}

theorem State.rank_le (M : ℕ) (s : State (WorkerId opt)) (u : WorkerId opt) :
    s.rank M u ≤ 28 * (M + 2) := by
  have hr := (s.worker u).pc.rank_le (Complete s.queues u) (Asleep s.bar u)
  unfold State.rank
  omega

theorem Moves.entered {ι : Type} [DecidableEq ι] {b b' : BarrierT ι} {u : ι} {now : BitVec 64}
    {w w' : Worker} (h : Moves opt b u now w b' w') :
    w'.entered = w.entered ∨ w.pc = .top ∧ w'.pc = .pre ∧ w'.entered = w.entered + 1 := by
  unfold Worker.entered
  cases h with
  | enter hpc hf => exact .inr ⟨hpc, rfl, by simp [hpc, WorkerPc.inside]⟩
  | _ => left; simp_all [WorkerPc.inside]

theorem queueStep_asleep {ι : Type} [DecidableEq ι] {o : ℤ} {b b' : BarrierT ι} {u v : ι}
    {r : Option ResultT} {q : QueuePc} {next : Option QueuePc}
    (h : queueStep o b u r q = some (b', next)) (hv : v ∈ b.baCv) :
    v ∈ b'.baCv ∨ ∃ p, q = .broadcast p := by
  cases q with
  | broadcast p => exact .inr ⟨p, rfl⟩
  | test p =>
    left
    simp only [queueStep] at h
    split at h <;> cases h
    · exact Finset.mem_insert_of_mem hv
    · exact hv
  | _ => simp only [queueStep] at h; (try split at h) <;> (try split at h) <;> cases h <;> exact .inl hv

theorem Moves.asleep {ι : Type} [DecidableEq ι] {b b' : BarrierT ι} {u v : ι} {now : BitVec 64}
    {w w' : Worker} (h : Moves opt b u now w b' w') (hv : v ∈ b.baCv) :
    v ∈ b'.baCv ∨ ∃ p r, w.pc.call = some (.broadcast p, r) := by
  cases h with
  | first hpc hq | firstReturn hpc hq | second hpc _ hq | secondReturn hpc hq =>
    refine (queueStep_asleep hq hv).imp_right ?_
    rintro ⟨p, rfl⟩
    exact ⟨p, _, congrArg WorkerPc.call hpc⟩
  | _ => exact .inl hv

theorem step_released {v : WorkerId opt} {a : Act (WorkerId opt)}
    (hst : step opt s a = some s')
    (hr : (s'.worker v).returned = (s.worker v).returned) (hc : Complete s.queues v = true) :
    Complete s'.queues v = true := by
  have h := step_complete hst (of_decide_eq_true hc)
  exact decide_eq_true (by simpa only [State.queues, hr] using h)

theorem rank_spurious {u : WorkerId opt} (hst : step opt s (.spurious u) = some s')
    (v : WorkerId opt) : s'.rank M v ≤ s.rank M v + if v = u then 2 else 0 := by
  rcases step_cases hst with ⟨u', now', b, w, he, -⟩ | ⟨u', he, hu, rfl⟩ <;> cases he
  unfold State.rank
  rw [Nat.add_assoc]
  refine Nat.add_le_add_left ?_ _
  by_cases hv : v = u
  · subst hv
    rw [if_pos rfl]
    have hawake : Asleep { s.bar with baCv := s.bar.baCv.erase v } v = false := by simp [Asleep]
    rw [hawake]
    exact WorkerPc.rank_asleep _ _ _
  · rw [if_neg hv]
    refine WorkerPc.rank_mono id (.inr fun ha ↦ decide_eq_true ?_) _
    exact Finset.mem_erase.mpr ⟨hv, of_decide_eq_true ha⟩

variable [Nonempty (WorkerId opt)]

theorem rank_mover (hs : (system opt).Reachable s) (ha : Accounting M s') {u : WorkerId opt}
    {now : BitVec 64} (hst : step opt s (.run u now) = some s') :
    s'.rank M u < s.rank M u := by
  have hbound : (s'.worker u).entered ≤ M + 1 :=
    (entered_le_recorded (reachable_step hs hst) ha u u).trans
      (Nat.add_le_add_right (ha.worker u).bound 1)
  have hdone := step_released (v := u) hst
  rcases step_cases hst with ⟨v, now', b, w, he, hw, rfl⟩ | ⟨v, he, -⟩ <;> cases he
  have hm := workerStep_moves hw
  simp only [Function.update_self] at hbound hdone
  unfold State.rank
  simp only [Function.update_self]
  rcases hm.entered with hent | ⟨htop, hpre, hent⟩
  · rw [hent]
    refine Nat.add_lt_add_left ?_ _
    cases hm with
    | enter hpc hf => simp [Worker.entered, hpc, WorkerPc.inside] at hent
    | first hpc hq | second hpc _ hq =>
      rw [hpc]
      exact Nat.add_lt_add_left (queue_rank (queues_reachable hs) (congrArg WorkerPc.call hpc) hq
        (hdone (by rw [Worker.returned, Worker.returned, hpc]; rfl))) _
    | record hpc => rw [hpc]; simp [WorkerPc.rank, callRank]
    | firstReturn hpc hq | secondReturn hpc hq =>
      obtain ⟨p, rfl⟩ := queueStep_return hq
      rw [hpc]
      simp [WorkerPc.rank, callRank]
    | initworker hpc | leave hpc hf | pre hpc | align t hpc | takeT0 hpc | benchmark hpc
    | takeT1 hpc | late hpc hr | inTime hpc hr | reached hpc ht | goOn hpc ht | stop hpc
    | sync hpc | post hpc | finiworker hpc =>
      rw [hpc]
      simp [WorkerPc.rank, callRank]
  · rw [htop, hpre]
    simp only [WorkerPc.rank]
    omega

theorem rank_other (hs : (system opt).Reachable s) {u v : WorkerId opt} (hv : v ≠ u)
    {now : BitVec 64} (hst : step opt s (.run u now) = some s') :
    s'.rank M v ≤ s.rank M v := by
  have hdone := step_released (v := v) hst
  rcases step_cases hst with ⟨u', now', b, w, he, hw, rfl⟩ | ⟨u', he, -⟩ <;> cases he
  have hm := workerStep_moves hw
  simp only [Function.update_of_ne hv] at hdone
  unfold State.rank
  simp only [Function.update_of_ne hv]
  refine Nat.add_le_add_left (WorkerPc.rank_mono (hdone trivial) ?_ _) _
  by_cases hb : ∃ p r, (s.worker u).pc.call = some (.broadcast p, r)
  · obtain ⟨p, r, hb⟩ := hb
    exact .inl (decide_eq_true (broadcast_complete (queues_reachable hs) u p r hb v))
  · exact .inr fun ha ↦
      decide_eq_true ((hm.asleep (of_decide_eq_true ha)).resolve_right hb)

/-- A run is finite, up to spurious wakeups: each of them costs at most two more
steps, whichever way the workers interleave. -/
theorem run_bounded (ht : (targetSamples opt).toNat = M * Fintype.card (WorkerId opt))
    (hs : (system opt).Reachable s) {l : List (Act (WorkerId opt))}
    (h : (system opt).Run s l s') :
    l.countP Act.isRun ≤
      Fintype.card (WorkerId opt) * (28 * (M + 2)) + 2 * l.countP (fun a ↦ !Act.isRun a) := by
  have hμ : ∑ u, s.rank M u ≤ Fintype.card (WorkerId opt) * (28 * (M + 2)) := by
    have h := Finset.sum_le_card_nsmul Finset.univ (s.rank M) (28 * (M + 2))
      fun u _ ↦ s.rank_le M u
    rwa [Finset.card_univ, smul_eq_mul] at h
  have hcount := System.Run.countP_le (I := (system opt).Reachable) (p := Act.isRun)
    (fun s ↦ ∑ u, s.rank M u) 2 (fun s a s' hs hst ↦ ⟨hs.next hst, ?_⟩) h hs
  · omega
  cases a with
  | run u now =>
    have ha := reachable_accounting ht (hs.next hst)
    refine Finset.sum_lt_sum (fun v _ ↦ ?_) ⟨u, Finset.mem_univ u, rank_mover hs ha hst⟩
    by_cases hv : v = u
    · exact hv ▸ (rank_mover hs ha hst).le
    · exact rank_other hs hv hst
  | spurious u =>
    refine (Finset.sum_le_sum fun v _ ↦ rank_spurious hst v).trans ?_
    simp [Finset.sum_add_distrib]

end

end LibMicro.Harness
