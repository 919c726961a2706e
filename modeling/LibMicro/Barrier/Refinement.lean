import LibMicro.Ownership
import LibMicro.Rendezvous
import LibMicro.Barrier.Model

namespace LibMicro.Barrier

open TransitionSystem Ownership
open Rendezvous (Stage)

variable {ι : Type}

def Critical : Option (QueuePc × Option ResultT) → Prop
  | none | some (.lock, _) | some (.wait _, _) => False
  | some _ => True

def PartOk (n : ℕ) (st : Stage) : Option (QueuePc × Option ResultT) → Prop
  | none | some (.lock, _) | some (.record, _) | some (.addSample _, _) | some (.arrive, _) =>
    st = .out
  | some (.test p, _) | some (.wait p, _) => st ≠ .out ∧ p = BitVec.ofNat 32 n
  | some (.broadcast p, _) | some (.unlock p, _) => st = .released ∧ p = BitVec.ofNat 32 n

/-- The code's state and the abstract barrier's. A sleeper of a finished
generation is about to be woken by a participant at its broadcast. -/
structure Refines [Fintype ι] (s : State ι) (a : Rendezvous.State ι) : Prop where
  hwm : s.bar.baHwm = Fintype.card ι
  phase : s.bar.baPhase = BitVec.ofNat 32 a.gen
  waiters : s.bar.baWaiters = a.waiters.card
  passed : s.returned = a.passed
  parts : ∀ u, PartOk (s.returned u) (a.stage u) (s.call u)
  owns : Owns s.bar.baLock fun u ↦ Critical (s.call u)
  sleeping : ∀ u ∈ s.bar.baCv, ∃ p r, s.call u = some (.wait p, r)
  signalled : ∀ u ∈ s.bar.baCv, a.stage u = .released → ∃ v p r, s.call v = some (.broadcast p, r)

variable [Fintype ι] {s : State ι} {a : Rendezvous.State ι}

theorem Refines.not_asleep (hr : Refines s a) {u : ι} {pc : QueuePc} {r : Option ResultT}
    (hc : s.call u = some (pc, r)) (hpc : ∀ p, pc ≠ .wait p) {v : ι} (hv : v ∈ s.bar.baCv) :
    v ≠ u := by
  rintro rfl
  obtain ⟨p, r', hw⟩ := hr.sleeping _ hv
  rw [hc] at hw
  exact hpc p (by simpa using congrArg (Option.map Prod.fst) hw)

theorem stage_unreleased (hr : Refines s a) (hi : Rendezvous.Invariant a) {u : ι}
    (hn : s.bar.baPhase = BitVec.ofNat 32 (s.returned u)) : a.stage u ≠ .released := by
  intro hrel
  have hg := hi.passed_succ hrel
  rw [hr.phase, hr.passed, ← hg] at hn
  have h := congrArg BitVec.toNat hn
  simp only [BitVec.toNat_ofNat] at h
  omega

theorem stage_released (hr : Refines s a) (hi : Rendezvous.Invariant a) {u : ι}
    (hn : s.bar.baPhase ≠ BitVec.ofNat 32 (s.returned u)) : a.stage u = .released := by
  by_contra hrel
  exact hn (by rw [hr.phase, hr.passed, hi.passed_eq hrel])

variable [DecidableEq ι] {o : ℤ}

/-- A step of the code that the abstract barrier does not see: it keeps the
counters, and it can put only an unreleased `u` to sleep. -/
theorem Refines.move (hr : Refines s a) {u : ι} {b : BarrierT ι} {pc pc' : QueuePc}
    {r : Option ResultT} (hc : s.call u = some (pc, r))
    (hhwm : b.baHwm = s.bar.baHwm) (hphase : b.baPhase = s.bar.baPhase)
    (hwaiters : b.baWaiters = s.bar.baWaiters)
    (hpart : PartOk (s.returned u) (a.stage u) (some (pc', r)))
    (howns : Owns b.baLock fun v ↦ Critical (Function.update s.call u (some (pc', r)) v))
    (hsleep : ∀ v ∈ b.baCv, v ∈ s.bar.baCv ∧ v ≠ u ∨
      v = u ∧ (∃ p, pc' = .wait p) ∧ a.stage u ≠ .released)
    (hsignal : (∀ p, pc ≠ .broadcast p) ∨ b.baCv = ∅) :
    Refines ⟨b, Function.update s.call u (some (pc', r)), s.returned⟩ a where
  hwm := hhwm.trans hr.hwm
  phase := hphase.trans hr.phase
  waiters := hwaiters.trans hr.waiters
  passed := hr.passed
  parts := by
    intro v
    by_cases hv : v = u
    · subst hv; simpa using hpart
    · simpa [Function.update_of_ne hv] using hr.parts v
  owns := howns
  sleeping := by
    intro v hv
    rcases hsleep v hv with ⟨hv, hne⟩ | ⟨rfl, ⟨p, rfl⟩, -⟩
    · simpa [Function.update_of_ne hne] using hr.sleeping v hv
    · exact ⟨p, r, by simp⟩
  signalled := by
    intro v hv hrel
    rcases hsignal with hpc | he
    · rcases hsleep v hv with ⟨hv, hne⟩ | ⟨rfl, -, hn⟩
      · obtain ⟨w, p, r', hw⟩ := hr.signalled v hv hrel
        have hwu : w ≠ u := by
          rintro rfl
          rw [hc] at hw
          exact hpc p (by simpa using congrArg (Option.map Prod.fst) hw)
        exact ⟨w, p, r', by simpa [Function.update_of_ne hwu] using hw⟩
      · exact absurd hrel hn
    · simp [he] at hv

omit [Fintype ι] in
theorem step_cases {s s' : State ι} {a : Act ι} (h : step o s a = some s') :
    (∃ u r, a = .enter u r ∧ s.call u = none ∧
      s' = { s with call := Function.update s.call u (some (.lock, r)) }) ∨
    (∃ u pc r b next, a = .queue u ∧ s.call u = some (pc, r) ∧
      queueStep o s.bar u r pc = some (b, next) ∧
      s' = { bar := b
             call := Function.update s.call u (next.map fun pc ↦ (pc, r))
             returned := if next = none then Function.update s.returned u (s.returned u + 1)
              else s.returned }) ∨
    (∃ u, a = .spurious u ∧ u ∈ s.bar.baCv ∧
      s' = { s with bar := { s.bar with baCv := s.bar.baCv.erase u } }) ∨
    (∃ flag, a = .store flag ∧ s' = { s with bar := { s.bar with baFlag := flag } }) := by
  cases a with
  | enter u r =>
    cases hc : s.call u with
    | none => exact .inl ⟨u, r, rfl, hc, by simpa [step, hc] using h.symm⟩
    | some c => simp [step, hc] at h
  | queue u =>
    cases hc : s.call u with
    | none => simp [step, hc] at h
    | some c =>
      simp only [step, hc, Option.map_eq_some_iff] at h
      obtain ⟨⟨b, next⟩, hq, rfl⟩ := h
      exact .inr (.inl ⟨u, c.1, c.2, b, next, rfl, hc, hq, rfl⟩)
  | spurious u =>
    simp only [step] at h
    split at h
    · next hu => exact .inr (.inr (.inl ⟨u, rfl, hu, (Option.some.inj h).symm⟩))
    · cases h
  | store flag => exact .inr (.inr (.inr ⟨flag, rfl, (Option.some.inj h).symm⟩))

theorem Refines.sleeping_update (hr : Refines s a) {u : ι} {pc : QueuePc} {r : Option ResultT}
    (hc : s.call u = some (pc, r)) (hwait : ∀ p, pc ≠ .wait p)
    (x : Option (QueuePc × Option ResultT)) :
    ∀ v ∈ s.bar.baCv, ∃ p r, Function.update s.call u x v = some (.wait p, r) := by
  intro v hv
  rw [Function.update_of_ne (hr.not_asleep hc hwait hv)]
  exact hr.sleeping v hv

theorem Refines.signalled_update (hr : Refines s a) {u : ι} {pc : QueuePc} {r : Option ResultT}
    (hc : s.call u = some (pc, r)) (hwait : ∀ p, pc ≠ .wait p) (hbroadcast : ∀ p, pc ≠ .broadcast p)
    {stage : ι → Stage} (hstage : ∀ v ≠ u, stage v = a.stage v)
    (x : Option (QueuePc × Option ResultT)) : ∀ v ∈ s.bar.baCv, stage v = .released →
      ∃ w p r, Function.update s.call u x w = some (.broadcast p, r) := by
  intro v hv hrel
  rw [hstage v (hr.not_asleep hc hwait hv)] at hrel
  obtain ⟨w, p, r', hw⟩ := hr.signalled v hv hrel
  have hwu : w ≠ u := by
    rintro rfl
    rw [hc] at hw
    cases hw
    exact hbroadcast p rfl
  refine ⟨w, p, r', ?_⟩
  rw [Function.update_of_ne hwu]
  exact hw

theorem arrive_refines (hr : Refines s a) (hi : Rendezvous.Invariant a) {u : ι}
    {r : Option ResultT} {b : BarrierT ι} {next : Option QueuePc}
    (hc : s.call u = some (.arrive, r)) (hq : queueStep o s.bar u r .arrive = some (b, next)) :
    ∃ pc' a', next = some pc' ∧ Rendezvous.step a (.arrive u) = some a' ∧
      Refines ⟨b, Function.update s.call u (some (pc', r)), s.returned⟩ a' := by
  have hout : a.stage u = .out := by simpa [hc, PartOk] using hr.parts u
  have hgen : a.gen = s.returned u := by
    rw [hr.passed, hi.passed_eq (by simp [hout])]
  have hw := hr.waiters
  have hcard := Rendezvous.card_waiters_succ (s := a) (u := u) (by simp [hout])
  have hsleeping := hr.sleeping_update hc (by simp)
  simp only [queueStep] at hq
  split at hq
  · next hlast =>
    have hall : ∀ v, v ≠ u → a.stage v = .waiting := by
      rw [hr.hwm, hw] at hlast
      exact hcard.mp (by exact_mod_cast hlast.symm)
    cases hq
    refine ⟨_, { a with gen := a.gen + 1, stage := fun _ ↦ .released }, rfl, ?_, ?_⟩
    · simp only [Rendezvous.step, if_pos hout, if_pos hall]
    · refine ⟨hr.hwm, ?_, ?_, hr.passed, ?_, ?_, ?_, ?_⟩
      · simp only [hr.phase]
        exact BitVec.ofNat_add_ofNat a.gen 1
      · simp [Rendezvous.State.waiters]
      · intro v
        by_cases hv : v = u
        · subst hv; simp [PartOk, hr.phase, hgen]
        · have hp := hr.parts v
          rw [hall v hv] at hp
          simp only [Function.update_of_ne hv]
          cases hcv : s.call v with
          | none => simp [hcv, PartOk] at hp
          | some c => obtain ⟨pc, r'⟩ := c; cases pc <;> simp_all [PartOk]
      · exact hr.owns.keep (by simp [hc, Critical])
      · exact hsleeping _
      · exact fun v _ _ ↦ ⟨u, s.bar.baPhase, r, by simp⟩
  · next hlast =>
    have hall : ¬ ∀ v, v ≠ u → a.stage v = .waiting := by
      rw [hr.hwm, hw] at hlast
      exact fun h ↦ hlast (by exact_mod_cast (hcard.mpr h).symm)
    cases hq
    refine ⟨_, { a with stage := Function.update a.stage u .waiting }, rfl, ?_, ?_⟩
    · simp only [Rendezvous.step, if_pos hout, if_neg hall]
    · refine ⟨hr.hwm, hr.phase, ?_, hr.passed, ?_, ?_, ?_, ?_⟩
      · have hn : u ∉ a.waiters := by simp [Rendezvous.State.waiters, hout]
        rw [Rendezvous.waiters_arrive, Finset.card_insert_of_notMem hn]
        simp [hw]
      · intro v
        by_cases hv : v = u
        · subst hv; simp [PartOk, hr.phase, hgen]
        · simpa [Function.update_of_ne hv] using hr.parts v
      · exact hr.owns.keep (by simp [hc, Critical])
      · exact hsleeping _
      · exact hr.signalled_update hc (by simp) (by simp) (fun v hv ↦ Function.update_of_ne hv _ _) _

theorem unlock_refines (hr : Refines s a) {u : ι} {r : Option ResultT} {p : BitVec 32}
    (hc : s.call u = some (.unlock p, r)) :
    ∃ a', Rendezvous.step a (.leave u) = some a' ∧
      Refines ⟨{ s.bar with baLock := none }, Function.update s.call u none,
        Function.update s.returned u (s.returned u + 1)⟩ a' := by
  have hrel : a.stage u = .released := by
    have h := hr.parts u
    simp only [hc, PartOk] at h
    exact h.1
  refine ⟨{ a with
      stage := Function.update a.stage u .out
      passed := Function.update a.passed u (a.passed u + 1) }, ?_, ?_⟩
  · simp only [Rendezvous.step, if_pos hrel]
  · refine ⟨hr.hwm, hr.phase, ?_, by rw [hr.passed], ?_, ?_, ?_, ?_⟩
    · have he : ({ a with
          stage := Function.update a.stage u .out
          passed := Function.update a.passed u (a.passed u + 1) } : Rendezvous.State ι).waiters =
          a.waiters := by
        ext v
        by_cases hv : v = u
        · simp [Rendezvous.State.waiters, hv, hrel]
        · simp [Rendezvous.State.waiters, hv]
      rw [he]
      exact hr.waiters
    · intro v
      by_cases hv : v = u
      · subst hv; simp [PartOk]
      · simpa [Function.update_of_ne hv] using hr.parts v
    · exact hr.owns.release (C := Critical) (by simp [hc, Critical]) (by simp [Critical])
    · exact hr.sleeping_update hc (by simp) none
    · exact hr.signalled_update hc (by simp) (by simp) (fun v hv ↦ Function.update_of_ne hv _ _) none

theorem queue_refines (hr : Refines s a) (hi : Rendezvous.Invariant a) {u : ι} {pc : QueuePc}
    {r : Option ResultT} {b : BarrierT ι} {next : Option QueuePc}
    (hc : s.call u = some (pc, r)) (hq : queueStep o s.bar u r pc = some (b, next)) :
    let s' : State ι := ⟨b, Function.update s.call u (next.map fun pc ↦ (pc, r)),
      if next = none then Function.update s.returned u (s.returned u + 1) else s.returned⟩
    Refines s' a ∨ ∃ c a', Rendezvous.step a c = some a' ∧ Refines s' a' := by
  have hp := hr.parts u
  have ho := hr.owns
  rw [hc] at hp
  -- the sleepers stay, and `u` is not one of them unless it is at its wait
  have hkeep (hpc : ∀ p, pc ≠ .wait p) {P : ι → Prop} :
      ∀ v ∈ s.bar.baCv, v ∈ s.bar.baCv ∧ v ≠ u ∨ P v :=
    fun v hv ↦ .inl ⟨hv, hr.not_asleep hc hpc hv⟩
  cases pc with
  | lock =>
    simp only [queueStep] at hq
    split at hq
    · next hl =>
      cases hq
      rw [hl] at ho
      exact .inl (hr.move hc rfl rfl rfl hp (ho.acquire (by simp [Critical])) (hkeep (by simp))
        (.inl (by simp)))
    · cases hq
  | record =>
    have hm : ∀ {pc'}, PartOk (s.returned u) (a.stage u) (some (pc', r)) →
        Critical (some (pc', r)) →
        Refines ⟨s.bar, Function.update s.call u (some (pc', r)), s.returned⟩ a := fun hp' hcr ↦
      hr.move hc rfl rfl rfl hp' (ho.keep ⟨fun _ ↦ by simp [hc, Critical], fun _ ↦ hcr⟩) (hkeep (by simp))
        (.inl (by simp))
    cases r with
    | none => cases hq; exact .inl (hm hp trivial)
    | some r =>
      simp only [queueStep] at hq
      split at hq <;> cases hq <;> exact .inl (hm hp trivial)
  | addSample r' =>
    cases hq
    exact .inl (hr.move hc rfl rfl rfl hp (ho.keep (by simp [hc, Critical])) (hkeep (by simp))
      (.inl (by simp)))
  | arrive =>
    obtain ⟨pc', a', rfl, hs, hr'⟩ := arrive_refines hr hi hc hq
    exact .inr ⟨_, a', hs, hr'⟩
  | broadcast p =>
    cases hq
    refine .inl (hr.move hc rfl rfl rfl ⟨by simp [hp.1], hp.2⟩
      (ho.keep (by simp [hc, Critical])) (by simp) (.inr rfl))
  | test p =>
    simp only [queueStep] at hq
    split at hq
    · next he =>
      cases hq
      have hn := stage_unreleased hr hi (he.trans hp.2)
      refine .inl (hr.move hc rfl rfl rfl hp
        (ho.release (C := Critical) (by simp [hc, Critical]) (by simp [Critical])) ?_
        (.inl (by simp)))
      intro v hv
      rcases Finset.mem_insert.mp hv with rfl | hv
      · exact .inr ⟨rfl, ⟨p, rfl⟩, hn⟩
      · exact .inl ⟨hv, hr.not_asleep hc (by simp) hv⟩
    · next he =>
      cases hq
      have hrel := stage_released hr hi (hp.2 ▸ he)
      exact .inl (hr.move hc rfl rfl rfl ⟨hrel, hp.2⟩ (ho.keep (by simp [hc, Critical]))
        (hkeep (by simp)) (.inl (by simp)))
  | wait p =>
    simp only [queueStep] at hq
    split at hq
    · next hl =>
      cases hq
      rw [hl.2] at ho
      refine .inl (hr.move hc rfl rfl rfl hp (ho.acquire (by simp [Critical])) ?_ (.inl (by simp)))
      exact fun v hv ↦ .inl ⟨hv, fun he ↦ hl.1 (he ▸ hv)⟩
    · cases hq
  | unlock p =>
    cases hq
    obtain ⟨a', hs, hr'⟩ := unlock_refines hr hc
    exact .inr ⟨_, a', hs, hr'⟩

omit [DecidableEq ι] in
theorem start_refines [Nonempty ι] (targetSamples : ℕ) (flag : ℤ) (starttime deadline : BitVec 64) :
    Refines (start (Fintype.card ι) targetSamples flag starttime deadline : State ι)
      Rendezvous.start where
  hwm := rfl
  phase := rfl
  waiters := by simp [start, barrierCreate, Rendezvous.State.waiters, Rendezvous.start]
  passed := rfl
  parts _ := rfl
  owns := owns_none (by simp [start, Critical])
  sleeping := by simp [start, barrierCreate]
  signalled := by simp [start, barrierCreate]

/-- `barrier_queue` implements the cyclic barrier. -/
theorem refinement [Nonempty ι] (o : ℤ) (targetSamples : ℕ) :
    Simulation (system o ι (Fintype.card ι) targetSamples) (Rendezvous.system ι) Refines where
  init s hs := by
    obtain ⟨flag, starttime, deadline, rfl⟩ := hs
    exact ⟨Rendezvous.start, rfl, start_refines targetSamples flag starttime deadline⟩
  step s a c s' hs ha hr hst := by
    have hi := Rendezvous.reachable_invariant ha
    rcases step_cases hst with ⟨u, r, -, hc, rfl⟩ | ⟨u, pc, r, b, next, -, hc, hq, rfl⟩ |
      ⟨u, -, hu, rfl⟩ | ⟨flag, -, rfl⟩
    · refine .inl ⟨hr.hwm, hr.phase, hr.waiters, hr.passed, ?_, ?_, ?_, ?_⟩
      · intro v
        have hp := hr.parts v
        by_cases hv : v = u
        · subst hv; simpa [hc, PartOk] using hp
        · simpa [Function.update_of_ne hv] using hp
      · exact hr.owns.keep (by simp [hc, Critical])
      · intro v hv
        obtain ⟨p, r', hw⟩ := hr.sleeping v hv
        have hvu : v ≠ u := by rintro rfl; simp [hc] at hw
        exact ⟨p, r', by simpa [Function.update_of_ne hvu] using hw⟩
      · intro v hv hrel
        obtain ⟨w, p, r', hw⟩ := hr.signalled v hv hrel
        have hwu : w ≠ u := by rintro rfl; simp [hc] at hw
        exact ⟨w, p, r', by simpa [Function.update_of_ne hwu] using hw⟩
    · exact queue_refines hr hi hc hq
    · refine .inl ⟨hr.hwm, hr.phase, hr.waiters, hr.passed, hr.parts, hr.owns, ?_, ?_⟩
      · exact fun v hv ↦ hr.sleeping v (Finset.mem_of_mem_erase hv)
      · exact fun v hv ↦ hr.signalled v (Finset.mem_of_mem_erase hv)
    · exact .inl ⟨hr.hwm, hr.phase, hr.waiters, hr.passed, hr.parts, hr.owns, hr.sleeping,
        hr.signalled⟩

theorem reachable_refines [Nonempty ι] {targetSamples : ℕ}
    (hs : (system o ι (Fintype.card ι) targetSamples).Reachable s) :
    ∃ a, Rendezvous.Invariant a ∧ Refines s a := by
  obtain ⟨a, ha, hr⟩ := (refinement o targetSamples).reachable hs
  exact ⟨a, Rendezvous.reachable_invariant ha, hr⟩

end LibMicro.Barrier
