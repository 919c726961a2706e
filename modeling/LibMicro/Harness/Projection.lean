import Mathlib.Data.Fintype.Prod
import LibMicro.Barrier.Correctness
import LibMicro.Harness.Model

namespace LibMicro.Harness

open TransitionSystem Barrier

variable {ι : Type}

def WorkerPc.call : WorkerPc → Option (QueuePc × Option ResultT)
  | .queueFirst q => some (q, none)
  | .queueSecond r q => some (q, some r)
  | _ => none

def WorkerPc.passed : WorkerPc → ℕ
  | .takeT0 | .benchmark _ | .takeT1 _ | .testDeadline _ | .testTarget _ | .stop _ | .sync _
  | .queueSecond _ _ => 1
  | .post => 2
  | .initworker | .top | .pre | .align | .queueFirst _ | .finiworker | .done => 0

def Worker.returned (w : Worker) : ℕ := 2 * w.rounds + w.pc.passed

def State.queues (s : State ι) : Barrier.State ι :=
  ⟨s.bar, fun u ↦ (s.worker u).pc.call, fun u ↦ (s.worker u).returned⟩

variable [DecidableEq ι] {opt : Options}

theorem queues_update (b : BarrierT ι) (f : ι → Worker) (u : ι) (w : Worker) :
    (⟨b, Function.update f u w⟩ : State ι).queues =
      ⟨b, Function.update (fun v ↦ (f v).pc.call) u w.pc.call,
        Function.update (fun v ↦ (f v).returned) u w.returned⟩ := by
  simp only [State.queues, Barrier.State.mk.injEq, true_and]
  constructor <;> funext v <;> by_cases hv : v = u
  · simp [hv]
  · simp [hv]
  · simp [hv]
  · simp [hv]

theorem step_cases {s s' : State ι} {a : Act ι} (h : step opt s a = some s') :
    (∃ u now b w, a = .run u now ∧ workerStep opt s.bar u now (s.worker u) = some (b, w) ∧
      s' = ⟨b, Function.update s.worker u w⟩) ∨
    (∃ u, a = .spurious u ∧ u ∈ s.bar.baCv ∧
      s' = { s with bar := { s.bar with baCv := s.bar.baCv.erase u } }) := by
  cases a with
  | run u now =>
    simp only [step, Option.map_eq_some_iff] at h
    obtain ⟨⟨b, w⟩, hw, rfl⟩ := h
    exact .inl ⟨u, now, b, w, rfl, hw, rfl⟩
  | spurious u =>
    simp only [step] at h
    split at h
    · next hu => exact .inr ⟨u, rfl, hu, (Option.some.inj h).symm⟩
    · cases h

inductive Moves (opt : Options) (b : BarrierT ι) (u : ι) (now : BitVec 64) (w : Worker) :
    BarrierT ι → Worker → Prop
  | initworker (h : w.pc = .initworker) : Moves opt b u now w b { w with pc := .top }
  | enter (h : w.pc = .top) (hf : b.baFlag ≠ 0) :
    Moves opt b u now w b { w with pc := .pre, reads := w.reads ++ [b.baFlag] }
  | leave (h : w.pc = .top) (hf : b.baFlag = 0) :
    Moves opt b u now w b { w with pc := .finiworker, reads := w.reads ++ [b.baFlag] }
  | pre (h : w.pc = .pre) : Moves opt b u now w b { w with pc := .align }
  | align (t : ℤ) (h : w.pc = .align) :
    Moves opt b u now w b { w with pc := .queueFirst .lock, lastSleep := t }
  | first {q q' : QueuePc} {b' : BarrierT ι} (h : w.pc = .queueFirst q)
    (hq : queueStep opt.nsecsOverhead b u none q = some (b', some q')) :
    Moves opt b u now w b' { w with pc := .queueFirst q' }
  | firstReturn {q : QueuePc} {b' : BarrierT ι} (h : w.pc = .queueFirst q)
    (hq : queueStep opt.nsecsOverhead b u none q = some (b', none)) :
    Moves opt b u now w b' { w with pc := .takeT0 }
  | takeT0 (h : w.pc = .takeT0) : Moves opt b u now w b { w with pc := .benchmark now }
  | benchmark {t0 : BitVec 64} (h : w.pc = .benchmark t0) :
    Moves opt b u now w b { w with pc := .takeT1 t0 }
  | takeT1 {t0 : BitVec 64} (h : w.pc = .takeT1 t0) :
    Moves opt b u now w b { w with pc := .testDeadline ⟨t0, now⟩ }
  | late {r : ResultT} (h : w.pc = .testDeadline r) (hr : r.reT1 > b.baDeadline) :
    Moves opt b u now w b { w with pc := .stop r }
  | inTime {r : ResultT} (h : w.pc = .testDeadline r) (hr : ¬ r.reT1 > b.baDeadline) :
    Moves opt b u now w b { w with pc := .testTarget r }
  | reached {r : ResultT} (h : w.pc = .testTarget r) (ht : b.baTgtSamples = b.baSamples) :
    Moves opt b u now w b { w with pc := .stop r }
  | goOn {r : ResultT} (h : w.pc = .testTarget r) (ht : b.baTgtSamples ≠ b.baSamples) :
    Moves opt b u now w b { w with pc := .sync r }
  | stop {r : ResultT} (h : w.pc = .stop r) :
    Moves opt b u now w { b with baFlag := 0 } { w with pc := .sync r }
  | sync {r : ResultT} (h : w.pc = .sync r) :
    Moves opt b u now w b { w with pc := .queueSecond r .lock }
  | record {r r' : ResultT} (h : w.pc = .queueSecond r (.addSample r')) :
    Moves opt b u now w (addSample opt.nsecsOverhead b r')
      { w with pc := .queueSecond r .arrive, recorded := w.recorded ++ [(w.rounds, r')] }
  | second {r : ResultT} {q q' : QueuePc} {b' : BarrierT ι} (h : w.pc = .queueSecond r q)
    (hadd : ∀ r', q ≠ .addSample r')
    (hq : queueStep opt.nsecsOverhead b u (some r) q = some (b', some q')) :
    Moves opt b u now w b' { w with pc := .queueSecond r q' }
  | secondReturn {r : ResultT} {q : QueuePc} {b' : BarrierT ι} (h : w.pc = .queueSecond r q)
    (hq : queueStep opt.nsecsOverhead b u (some r) q = some (b', none)) :
    Moves opt b u now w b' { w with pc := .post }
  | post (h : w.pc = .post) : Moves opt b u now w b { w with pc := .top, rounds := w.rounds + 1 }
  | finiworker (h : w.pc = .finiworker) : Moves opt b u now w b { w with pc := .done }

theorem workerStep_moves {b b' : BarrierT ι} {u : ι} {now : BitVec 64} {w w' : Worker}
    (h : workerStep opt b u now w = some (b', w')) : Moves opt b u now w b' w' := by
  cases hpc : w.pc with
  | initworker => simp only [workerStep, hpc] at h; cases h; exact .initworker hpc
  | top =>
    simp only [workerStep, hpc] at h
    cases h
    by_cases hf : b.baFlag = 0
    · simpa only [hf, ne_eq, not_true_eq_false, if_false] using Moves.leave hpc hf
    · simpa only [hf, ne_eq, not_false_eq_true, if_true] using Moves.enter hpc hf
  | pre => simp only [workerStep, hpc] at h; cases h; exact .pre hpc
  | align => simp only [workerStep, hpc] at h; cases h; exact .align _ hpc
  | queueFirst q =>
    simp only [workerStep, hpc, Option.map_eq_some_iff, Prod.mk.injEq] at h
    obtain ⟨⟨b', next⟩, hq, rfl, rfl⟩ := h
    cases next with
    | none => exact .firstReturn hpc hq
    | some q' => exact .first hpc hq
  | takeT0 => simp only [workerStep, hpc] at h; cases h; exact .takeT0 hpc
  | benchmark t0 => simp only [workerStep, hpc] at h; cases h; exact .benchmark hpc
  | takeT1 t0 => simp only [workerStep, hpc] at h; cases h; exact .takeT1 hpc
  | testDeadline r =>
    simp only [workerStep, hpc] at h
    cases h
    split_ifs with hr
    · exact .late hpc hr
    · exact .inTime hpc hr
  | testTarget r =>
    simp only [workerStep, hpc] at h
    cases h
    split_ifs with ht
    · exact .reached hpc ht
    · exact .goOn hpc ht
  | stop r => simp only [workerStep, hpc] at h; cases h; exact .stop hpc
  | sync r => simp only [workerStep, hpc] at h; cases h; exact .sync hpc
  | queueSecond r q =>
    simp only [workerStep, hpc, Option.map_eq_some_iff, Prod.mk.injEq] at h
    obtain ⟨⟨b', next⟩, hq, rfl, rfl⟩ := h
    by_cases hadd : ∃ r', q = .addSample r'
    · obtain ⟨r', rfl⟩ := hadd
      cases hq
      exact .record hpc
    · simp only [not_exists] at hadd
      cases next with
      | none => cases q <;> first | exact .secondReturn hpc hq | exact absurd rfl (hadd _)
      | some q' => cases q <;> first | exact .second hpc hadd hq | exact absurd rfl (hadd _)
  | post => simp only [workerStep, hpc] at h; cases h; exact .post hpc
  | finiworker => simp only [workerStep, hpc] at h; cases h; exact .finiworker hpc
  | done => simp [workerStep, hpc] at h

theorem workerStep_queues {s : State ι} {u : ι} {now : BitVec 64} {b : BarrierT ι} {w : Worker}
    (h : workerStep opt s.bar u now (s.worker u) = some (b, w)) :
    (⟨b, Function.update s.worker u w⟩ : State ι).queues = s.queues ∨
      ∃ c, Barrier.step opt.nsecsOverhead s.queues c =
        some (⟨b, Function.update s.worker u w⟩ : State ι).queues := by
  have hcall : Function.update (fun v ↦ (s.worker v).pc.call) u (s.worker u).pc.call =
      fun v ↦ (s.worker v).pc.call := Function.update_eq_self u _
  have hret : Function.update (fun v ↦ (s.worker v).returned) u (s.worker u).returned =
      fun v ↦ (s.worker v).returned := Function.update_eq_self u _
  rw [queues_update]
  cases workerStep_moves h with
  | initworker hpc | enter hpc hf | leave hpc hf | pre hpc | takeT0 hpc | benchmark hpc | takeT1 hpc
  | late hpc hr | inTime hpc hr | reached hpc ht | goOn hpc ht | post hpc | finiworker hpc =>
    left
    rw [Worker.returned, hpc] at hret
    rw [hpc] at hcall
    exact congrArg₂ (Barrier.State.mk _) hcall hret
  | align t hpc =>
    refine .inr ⟨.enter u none, ?_⟩
    rw [Worker.returned, hpc] at hret
    simp only [Barrier.step, State.queues, hpc, WorkerPc.call]
    exact congrArg some (congrArg (Barrier.State.mk _ _) hret.symm)
  | @sync r hpc =>
    refine .inr ⟨.enter u (some r), ?_⟩
    rw [Worker.returned, hpc] at hret
    simp only [Barrier.step, State.queues, hpc, WorkerPc.call]
    exact congrArg some (congrArg (Barrier.State.mk _ _) hret.symm)
  | stop hpc =>
    refine .inr ⟨.store 0, ?_⟩
    rw [Worker.returned, hpc] at hret
    rw [hpc] at hcall
    exact congrArg some (congrArg₂ (Barrier.State.mk _) hcall.symm hret.symm)
  | first hpc hq | second hpc _ hq =>
    refine .inr ⟨.queue u, ?_⟩
    rw [Worker.returned, hpc] at hret
    simp only [Barrier.step, State.queues, hpc, WorkerPc.call, hq, Option.map_some]
    exact congrArg some (congrArg (Barrier.State.mk _ _) hret.symm)
  | record hpc =>
    refine .inr ⟨.queue u, ?_⟩
    rw [Worker.returned, hpc] at hret
    simp only [Barrier.step, State.queues, hpc, WorkerPc.call, queueStep, Option.map_some]
    exact congrArg some (congrArg (Barrier.State.mk _ _) hret.symm)
  | firstReturn hpc hq | secondReturn hpc hq =>
    refine .inr ⟨.queue u, ?_⟩
    simp only [Barrier.step, State.queues, hpc, WorkerPc.call, hq, Option.map_some]
    refine congrArg some (congrArg (Barrier.State.mk _ _) ?_)
    rw [if_pos trivial, Worker.returned, hpc]
    rfl

theorem step_queues {s s' : State ι} {a : Act ι} (h : step opt s a = some s') :
    s'.queues = s.queues ∨ ∃ c, Barrier.step opt.nsecsOverhead s.queues c = some s'.queues := by
  rcases step_cases h with ⟨u, now, b, w, -, hw, rfl⟩ | ⟨u, -, hu, rfl⟩
  · exact workerStep_queues hw
  · exact .inr ⟨.spurious u, if_pos hu⟩

theorem step_complete {s s' : State ι} {a : Act ι} {k : ℕ} (h : step opt s a = some s')
    (hk : PhaseComplete s.queues k) : PhaseComplete s'.queues k := by
  rcases step_queues h with he | ⟨c, hc⟩
  · rwa [he]
  · exact complete_mono hc hk

theorem lmOpt_card (opt : Options) :
    (opt.lmOptT : ℤ) * opt.lmOptP = (Fintype.card (WorkerId opt) : ℕ) := by
  simp [Fintype.card_prod, mul_comm]

/-- The workers use their barrier as the participants of `Barrier.system` do. -/
theorem projection (opt : Options) :
    Simulation (system opt)
      (Barrier.system opt.nsecsOverhead (WorkerId opt) (Fintype.card (WorkerId opt))
        (targetSamples opt).toNat) (fun s t ↦ t = s.queues) where
  init s hs := by
    obtain ⟨starttime, rfl⟩ := hs
    refine ⟨_, ⟨1, starttime, starttime + secsToNanos opt.lmOptD, rfl⟩, ?_⟩
    simp only [State.queues, start, lmBarrier, Barrier.start, lmOpt_card]
    rfl
  step s t a s' _ _ ht hst := by
    subst ht
    rcases step_queues hst with he | ⟨c, hc⟩
    · exact .inl he.symm
    · exact .inr ⟨c, _, hc, rfl⟩

theorem queues_reachable {s : State (WorkerId opt)} (hs : (system opt).Reachable s) :
    (Barrier.system opt.nsecsOverhead (WorkerId opt) (Fintype.card (WorkerId opt))
      (targetSamples opt).toNat).Reachable s.queues := by
  obtain ⟨t, ht, rfl⟩ := (projection opt).reachable hs
  exact ht

theorem reachable_step {s s' : State (WorkerId opt)} {a : Act (WorkerId opt)}
    (hs : (system opt).Reachable s) (hst : step opt s a = some s') : (system opt).Reachable s' :=
  hs.next hst

/-- The number `g` of finished barrier phases places every worker: each has
returned from all of them but perhaps the last. -/
theorem exists_phase [Nonempty (WorkerId opt)] {s : State (WorkerId opt)}
    (hs : (system opt).Reachable s) :
    ∃ g, (∀ k, PhaseComplete s.queues k ↔ k ≤ g) ∧
      ∀ u, 2 * (s.worker u).rounds + (s.worker u).pc.passed ≤ g ∧
        g ≤ 2 * (s.worker u).rounds + (s.worker u).pc.passed + 1 ∧
        ((s.worker u).pc.call = none →
          2 * (s.worker u).rounds + (s.worker u).pc.passed = g) :=
  exists_generation (queues_reachable hs)

end LibMicro.Harness
