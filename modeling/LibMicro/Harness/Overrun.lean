import LibMicro.Harness.Completion

namespace LibMicro.Harness

open TransitionSystem Barrier

variable {opt : Options}

theorem index_lt_slots {M : ℕ} {s : State (WorkerId opt)} (ha : Accounting M s)
    {u : WorkerId opt} {r r' : ResultT} (hpc : (s.worker u).pc = .queueSecond r (.addSample r')) :
    s.bar.baSamples.toNat < s.bar.slots := by
  have hu := (ha.worker u).point
  rw [hpc] at hu
  have hlt : ∑ v, (s.worker v).recorded.length < ∑ _v : WorkerId opt, M :=
    Finset.sum_lt_sum (fun v _ ↦ (ha.worker v).bound)
      ⟨u, Finset.mem_univ u, hu.1.trans_lt hu.2.1⟩
  rwa [Finset.sum_const, Finset.card_univ, smul_eq_mul, mul_comm, ← ha.samples, ← ha.slots] at hlt

/-- The store is large enough if the target, which `unsigned int` wraps, is a
number of samples for each worker. -/
theorem add_sample_within (opt : Options) (hP : 1 ≤ opt.lmOptP) (hT : 1 ≤ opt.lmOptT)
    (hdvd : opt.workers ∣ opt.lmOptC.toNat * opt.workers % 2 ^ 32) (s : State (WorkerId opt))
    (hs : (system opt).Reachable s) (u : WorkerId opt) (r r' : ResultT)
    (hpc : (s.worker u).pc = .queueSecond r (.addSample r')) :
    s.bar.baSamples.toNat < s.bar.slots := by
  have : Nonempty (WorkerId opt) := ⟨⟨0, hP⟩, ⟨0, hT⟩⟩
  obtain ⟨M, hM⟩ := hdvd
  refine index_lt_slots (M := M) (reachable_accounting ?_ hs) hpc
  rw [targetSamples_toNat, hM, mul_comm, Fintype.card_prod, Fintype.card_fin, Fintype.card_fin]
  rfl

/-- The second of two workers has recorded its sample, and the first one is about to. -/
theorem add_sample_within_two :
    let opt : Options := ⟨0, 1, 1, 1, 2, 0⟩
    let s := (system opt).turns (start opt 0) (inTurn opt 26)
    (s.worker (0, 0)).pc = .queueSecond ⟨0, 0⟩ (.addSample ⟨0, 0⟩) ∧ s.bar.baSamples = 1 ∧
      s.bar.baSamples.toNat < s.bar.slots := by
  intro opt s
  have hs : (s.worker (0, 0)).pc = .queueSecond ⟨0, 0⟩ (.addSample ⟨0, 0⟩) ∧
      s.bar.baSamples = 1 := by decide +kernel
  exact ⟨hs.1, hs.2, add_sample_within opt (by decide) (by decide) (by decide) s
    (System.turns_reachable (A := system opt) ⟨0, rfl⟩ _) (0, 0) _ _ hs.1⟩

/-- With `-P 3` the target wraps to two samples. -/
abbrev wrappedOptions : Options := ⟨0, 1431655766, 1, 3, 1, 0⟩

/-- Three workers, of which all take the tests before the first one records, up
to the third write. -/
def overrunLabels : List (Act (WorkerId wrappedOptions)) :=
  let go (n : ℕ) (u : WorkerId wrappedOptions) := List.replicate n (Act.run u 0)
  go 8 (0, 0) ++ go 8 (1, 0) ++ go 10 (2, 0) ++ go 3 (0, 0) ++ go 3 (1, 0) ++
    go 6 (0, 0) ++ go 6 (1, 0) ++ go 6 (2, 0) ++ go 5 (0, 0) ++ go 5 (1, 0) ++ go 2 (2, 0)

theorem add_sample_overruns :
    ∃ (s : State (WorkerId wrappedOptions)) (u : WorkerId wrappedOptions) (r r' : ResultT),
      (system wrappedOptions).Reachable s ∧ (s.worker u).pc = .queueSecond r (.addSample r') ∧
      ¬ s.bar.baSamples.toNat < s.bar.slots := by
  have h : ((system wrappedOptions).exec (start wrappedOptions 0) overrunLabels).map
      (fun s ↦ ((s.worker (2, 0)).pc, s.bar.baSamples.toNat, s.bar.slots)) =
      some (.queueSecond ⟨0, 0⟩ (.addSample ⟨0, 0⟩), 2, 2) := by
    decide +kernel
  obtain ⟨s, hs, he⟩ := Option.map_eq_some_iff.mp h
  simp only [Prod.mk.injEq] at he
  obtain ⟨hpc, hn, hslots⟩ := he
  refine ⟨s, (2, 0), _, _, System.exec_reachable hs ⟨0, rfl⟩, hpc, ?_⟩
  omega

end LibMicro.Harness
