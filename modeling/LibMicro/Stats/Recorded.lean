import LibMicro.Barrier.Refinement
import LibMicro.Stats.Crunch

namespace LibMicro.Stats

open Barrier TransitionSystem

variable {ι : Type} {d d' : List ℚ}

def timeOf (nsecsOverhead : ℤ) (r : ResultT) : ℚ := r.reT1.toNat - r.reT0.toNat - nsecsOverhead

theorem samples_addSample (o : ℤ) (b : BarrierT ι) (r : ResultT)
    (h : b.baSamples.toNat + 1 < 2 ^ 32) : samples (addSample o b r) = samples b ++ [timeOf o r] := by
  have hn : (b.baSamples + 1).toNat = b.baSamples.toNat + 1 := by
    rw [BitVec.toNat_add]
    exact Nat.mod_eq_of_lt h
  simp only [samples, addSample, hn, List.range_succ, List.map_append, List.map_cons, List.map_nil,
    Function.update_self]
  congr 1
  apply List.map_congr_left
  intro i hi
  exact Function.update_of_ne (List.mem_range.mp hi).ne _ _

theorem samples_foldl (o : ℤ) (rs : List ResultT) (b : BarrierT ι)
    (h : b.baSamples.toNat + rs.length < 2 ^ 32) :
    samples (rs.foldl (addSample o) b) = samples b ++ rs.map (timeOf o) := by
  induction rs generalizing b with
  | nil => simp
  | cons r rs ih =>
    rw [List.length_cons] at h
    have hn : (addSample o b r).baSamples.toNat = b.baSamples.toNat + 1 := by
      refine (BitVec.toNat_add _ _).trans ?_
      exact Nat.mod_eq_of_lt (show b.baSamples.toNat + 1 < 2 ^ 32 by omega)
    rw [List.foldl_cons, ih _ (by omega), samples_addSample o b r (by omega)]
    simp

def Whole (b : BarrierT ι) : Prop := ∀ i, ∃ a : ℤ, b.baData i = a

theorem Whole.addSample {b : BarrierT ι} (h : Whole b) (o : ℤ) (r : ResultT) :
    Whole (addSample o b r) := by
  intro i
  by_cases hi : i = b.baSamples.toNat
  · refine ⟨r.reT1.toNat - r.reT0.toNat - o, ?_⟩
    subst hi
    refine (Function.update_self _ _ _).trans ?_
    push_cast
    rfl
  · obtain ⟨a, ha⟩ := h i
    exact ⟨a, (Function.update_of_ne hi _ _).trans ha⟩

theorem Whole.queueStep [DecidableEq ι] {o : ℤ} {b b' : BarrierT ι} {u : ι} {r : Option ResultT}
    {pc : QueuePc} {next : Option QueuePc} (h : Whole b)
    (hq : queueStep o b u r pc = some (b', next)) : Whole b' := by
  cases pc with
  | addSample r' =>
    cases hq
    exact h.addSample o r'
  | record =>
    cases r with
    | none =>
      cases hq
      exact h
    | some r =>
      simp only [Barrier.queueStep] at hq
      split_ifs at hq <;> cases hq <;> exact h
  | lock | arrive | broadcast p | test p | wait p | unlock p =>
    simp only [Barrier.queueStep] at hq
    try split_ifs at hq
    all_goals
      cases hq
      exact h

/-- In every run of the barrier the samples are whole numbers. -/
theorem reachable_whole [DecidableEq ι] {o hwm : ℤ} {targetSamples : ℕ} {s : State ι}
    (h : (system o ι hwm targetSamples).Reachable s) : Whole s.bar := by
  refine h.invariant (I := fun s ↦ Whole s.bar) ?_ ?_
  · rintro s ⟨flag, starttime, deadline, rfl⟩ i
    exact ⟨0, rfl⟩
  · intro s a s' _ hw hs
    obtain ⟨u, r, -, -, rfl⟩ | ⟨u, pc, r, b, next, -, -, hq, rfl⟩ | ⟨u, -, -, rfl⟩ |
      ⟨flag, -, rfl⟩ := step_cases hs
    · exact hw
    · exact hw.queueStep hq
    · exact hw
    · exact hw

theorem qsort_congr (h : d.Perm d') : qsort d = qsort d' :=
  List.Perm.eq_of_pairwise' (qsort_pairwise d) (qsort_pairwise d')
    (((qsort_perm d).trans h).trans (qsort_perm d').symm)

theorem total_congr (h : d.Perm d') : total d = total d' := by
  rw [total_eq_sum, total_eq_sum, h.sum_eq]

theorem findMax_congr (h : d.Perm d') : findMax d = findMax d' := by
  rw [findMax_eq_foldl, findMax_eq_foldl]
  exact h.foldl_op_eq

theorem findMin_congr (h : d.Perm d') : findMin d = findMin d' := by
  rw [findMin_eq_foldl, findMin_eq_foldl]
  exact h.foldl_op_eq

theorem deviations_congr (h : d.Perm d') (mean : ℚ) : deviations mean d = deviations mean d' :=
  h.foldl_eq' (fun x _ y _ z ↦ by ring) _

theorem sortedCopy_congr (h : d.Perm d') (n : ℕ) : sortedCopy d n = sortedCopy d' n := by
  unfold sortedCopy
  rw [qsort_congr h]

theorem bind_map_congr {α β γ : Type} {g : β → γ} {a : Except Fault α}
    {f f' : α → Except Fault β} (h : ∀ x, (f x).map g = (f' x).map g) :
    (a >>= f).map g = (a >>= f').map g := by
  cases a with
  | error e => rfl
  | ok x => exact h x

theorem crunchStats_congr (h : d.Perm d') :
    (crunchStats d).map Prod.snd = (crunchStats d').map Prod.snd := by
  unfold crunchStats
  rw [h.length_eq, total_congr h, findMax_congr h, findMin_congr h]
  refine bind_map_congr fun count ↦ ?_
  simp only [sortedCopy_congr h, deviations_congr h]
  -- both runs bind the same values from here to the end
  iterate 9 refine bind_map_congr fun x ↦ ?_
  rfl

theorem computeStats_congr (h : d.Perm d') (raw : StatsT) :
    (computeStats d raw).map Prod.snd = (computeStats d' raw).map Prod.snd := by
  have hmap : (d.map (· / 1000)).Perm (d'.map (· / 1000)) := h.map _
  unfold computeStats
  simp only [hmap.length_eq]
  split_ifs
  · exact crunchStats_congr hmap
  · rfl

theorem printHisto_congr (h : d.Perm d') : printHisto d = printHisto d' := by
  have hf : fillHisto d = fillHisto d' := by
    unfold fillHisto
    rw [h.length_eq, qsort_congr h]
  unfold printHisto
  rw [hf]

theorem computeStats_ok {raw st : StatsT} (h : computeStats d raw = .ok (d', st)) :
    d' = d.map (· / 1000) := by
  unfold computeStats at h
  simp only at h
  split_ifs at h
  · exact (crunchStats_ok h).1
  · cases h
    rfl

theorem printStats_congr (h : d.Perm d') (raw : StatsT) : printStats d raw = printStats d' raw := by
  unfold printStats
  rw [h.length_eq, printHisto_congr h]
  split_ifs with h₀
  · rw [List.eq_nil_of_length_eq_zero h₀, List.eq_nil_of_length_eq_zero (h.length_eq.trans h₀)]
  · rfl

theorem report_congr (h : d.Perm d') (raw : StatsT) : report d raw = report d' raw := by
  have hmap : (d.map (· / 1000)).Perm (d'.map (· / 1000)) := h.map _
  have hc := computeStats_congr h raw
  unfold report
  cases hd : computeStats d raw with
  | error e =>
    cases hd' : computeStats d' raw with
    | error e' =>
      rw [hd, hd'] at hc
      cases hc
      rfl
    | ok p => simp [hd, hd', Except.map] at hc
  | ok p =>
    cases hd' : computeStats d' raw with
    | error e' => simp [hd, hd', Except.map] at hc
    | ok p' =>
      rw [hd, hd'] at hc
      obtain ⟨e, st⟩ := p
      obtain ⟨e', st'⟩ := p'
      obtain rfl : st = st' := by simpa [Except.map] using hc
      rw [computeStats_ok hd, computeStats_ok hd']
      simp only [bind, Except.bind]
      rw [printStats_congr hmap]

/-- Nothing that is reported depends on the order of the samples. -/
theorem report_order (d d' : List ℚ) (h : d.Perm d') (raw : StatsT) :
    (crunchStats d).map Prod.snd = (crunchStats d').map Prod.snd ∧
      (computeStats d raw).map Prod.snd = (computeStats d' raw).map Prod.snd ∧
      printHisto d = printHisto d' ∧ report d raw = report d' raw :=
  ⟨crunchStats_congr h, computeStats_congr h raw, printHisto_congr h, report_congr h raw⟩

theorem report_order_swap :
    (crunchStats [1, 2]).map Prod.snd = (crunchStats [2, 1]).map Prod.snd ∧
      (computeStats [1, 2] (crunched [])).map Prod.snd =
        (computeStats [2, 1] (crunched [])).map Prod.snd ∧
      printHisto [1, 2] = printHisto [2, 1] ∧
      report [1, 2] (crunched []) = report [2, 1] (crunched []) :=
  report_order [1, 2] [2, 1] (.swap 2 1 []) (crunched [])

theorem report_recorded (o : ℤ) (b : BarrierT ι) {rs rs' : List ResultT} (h : rs.Perm rs')
    (hn : b.baSamples.toNat + rs.length < 2 ^ 32) (raw : StatsT) :
    report (samples (rs.foldl (addSample o) b)) raw =
      report (samples (rs'.foldl (addSample o) b)) raw := by
  rw [samples_foldl o rs b hn, samples_foldl o rs' b (h.length_eq ▸ hn)]
  exact report_congr ((h.map _).append_left _) raw

end LibMicro.Stats
