import LibMicro.Barrier.Refinement

namespace LibMicro.Barrier

open TransitionSystem Ownership

variable {ι : Type} {s s' : State ι}

theorem arrivals_le_entered (s : State ι) (u : ι) : s.arrivals u ≤ s.entered u := by
  have h : Arrived (s.call u) → s.call u ≠ none := by rintro h he; simp [he, Arrived] at h
  unfold State.arrivals State.entered
  split_ifs <;> simp_all

instance [Fintype ι] (s : State ι) (k : ℕ) : Decidable (PhaseComplete s k) :=
  inferInstanceAs (Decidable (∀ v, k ≤ s.arrivals v))

section

variable [Fintype ι] {a : Rendezvous.State ι}

theorem Refines.arrived_iff (hr : Refines s a) (u : ι) :
    Arrived (s.call u) ↔ a.stage u ≠ .out := by
  have hp := hr.parts u
  cases hc : s.call u with
  | none => simp_all [PartOk, Arrived]
  | some c =>
    obtain ⟨pc, r⟩ := c
    cases pc <;> simp_all [PartOk, Arrived, QueuePc.saved]

theorem Refines.arrivals (hr : Refines s a) (u : ι) : s.arrivals u = a.arrivals u := by
  have h := hr.arrived_iff u
  unfold State.arrivals Rendezvous.State.arrivals
  rw [hr.passed]
  by_cases ho : a.stage u = .out <;> simp [h, ho]

theorem Refines.complete_iff (hr : Refines s a) (hi : Rendezvous.Invariant a) (k : ℕ) :
    PhaseComplete s k ↔ k ≤ a.gen := by
  simp only [PhaseComplete, hr.arrivals]
  exact hi.complete_iff k

theorem Refines.saved (hr : Refines s a) {u : ι} {pc : QueuePc} {r : Option ResultT}
    {p : BitVec 32} (hc : s.call u = some (pc, r)) (hp : pc.saved = some p) :
    p = BitVec.ofNat 32 (s.returned u) ∧ a.stage u ≠ .out := by
  have h := hr.parts u
  rw [hc] at h
  cases pc <;> simp_all [PartOk, QueuePc.saved]

theorem Refines.phase_ne_iff (hr : Refines s a) (hi : Rendezvous.Invariant a) {u : ι}
    {pc : QueuePc} {r : Option ResultT} {p : BitVec 32} (hc : s.call u = some (pc, r))
    (hp : pc.saved = some p) : p ≠ s.bar.baPhase ↔ a.stage u = .released := by
  obtain ⟨rfl, -⟩ := hr.saved hc hp
  constructor
  · exact fun h ↦ stage_released hr hi (Ne.symm h)
  · exact fun h he ↦ stage_unreleased hr hi he.symm h

theorem Refines.released_iff (hr : Refines s a) (hi : Rendezvous.Invariant a) {u : ι}
    (hc : s.call u ≠ none) : PhaseComplete s (s.entered u) ↔ a.stage u = .released := by
  rw [hr.complete_iff hi]
  simp only [State.entered, if_neg hc, hr.passed]
  by_cases hrel : a.stage u = .released
  · simp [hrel, hi.passed_succ hrel]
  · simp [hrel, hi.passed_eq hrel]

theorem Refines.waiters_eq (hr : Refines s a) (hi : Rendezvous.Invariant a) :
    a.waiters =
      Finset.univ.filter fun u ↦ Arrived (s.call u) ∧ ¬ PhaseComplete s (s.entered u) := by
  ext u
  simp only [Rendezvous.State.waiters, Finset.mem_filter, Finset.mem_univ, true_and,
    hr.arrived_iff]
  by_cases hc : s.call u = none
  · have hp := hr.parts u
    simp only [hc, PartOk] at hp
    simp [hp]
  · rw [hr.released_iff hi hc]
    cases a.stage u <;> simp

end

variable [DecidableEq ι] {o : ℤ}

theorem arrivals_mono {c : Act ι} (h : step o s c = some s') (v : ι) :
    s.arrivals v ≤ s'.arrivals v := by
  rcases step_cases h with ⟨u, r, -, hc, rfl⟩ | ⟨u, pc, r, b, next, -, hc, hq, rfl⟩ |
    ⟨u, -, -, rfl⟩ | ⟨flag, -, rfl⟩
  · by_cases hv : v = u
    · subst hv; simp [State.arrivals, hc, Arrived, QueuePc.saved]
    · simp [State.arrivals, Function.update_of_ne hv]
  · by_cases hv : v = u
    · subst hv
      cases pc <;> simp only [queueStep] at hq <;> (try split at hq) <;> (try split at hq) <;>
        cases hq <;> simp [State.arrivals, hc, Arrived, QueuePc.saved]
    · unfold State.arrivals
      simp only [Function.update_of_ne hv]
      split_ifs <;> simp [Function.update_of_ne hv]
  · exact le_rfl
  · exact le_rfl

theorem complete_mono {c : Act ι} {k : ℕ} (h : step o s c = some s') (hk : PhaseComplete s k) :
    PhaseComplete s' k := fun v ↦ (hk v).trans (arrivals_mono h v)

theorem critical_step (o : ℤ) (b : BarrierT ι) (u : ι) {pc : QueuePc} {r : Option ResultT}
    (h : Critical (some (pc, r))) : ∃ b' next, queueStep o b u r pc = some (b', next) := by
  cases pc with
  | lock | wait p => simp [Critical] at h
  | record =>
    cases r with
    | none => exact ⟨_, _, rfl⟩
    | some r => simp only [queueStep]; split <;> exact ⟨_, _, rfl⟩
  | arrive | test p => simp only [queueStep]; split <;> exact ⟨_, _, rfl⟩
  | addSample r' | broadcast p | unlock p => exact ⟨_, _, rfl⟩

def holderRank : Option (QueuePc × Option ResultT) → ℕ
  | none | some (.lock, _) | some (.wait _, _) => 0
  | some (.unlock _, _) => 1
  | some (.test _, _) => 2
  | some (.broadcast _, _) => 3
  | some (.arrive, _) => 4
  | some (.addSample _, _) => 5
  | some (.record, _) => 6

/-- The states that `v`, which holds the lock in `s`, passes until it gives it
up. All others stand still. -/
structure Draining (s : State ι) (v : ι) (t : State ι) : Prop where
  others : ∀ w, w ≠ v → t.call w = s.call w ∧ t.returned w = s.returned w
  holds : t.bar.baLock = some v ∧ Critical (t.call v) ∨
    t.bar.baLock = none ∧ (t.call v = none ∨ v ∈ t.bar.baCv ∧ ∃ p r, t.call v = some (.wait p, r))

theorem Draining.step {v : ι} {t t' : State ι} (hd : Draining s v t)
    (h : step o t (.queue v) = some t') :
    Draining s v t' ∧ holderRank (t'.call v) < holderRank (t.call v) := by
  rcases step_cases h with ⟨u, r, hl, -⟩ | ⟨u, pc, r, b, next, hl, hc, hq, rfl⟩ |
    ⟨u, hl, -⟩ | ⟨flag, hl, -⟩ <;> cases hl
  have ho (w : ι) (hw : w ≠ v) :
      Function.update t.call v (next.map fun pc ↦ (pc, r)) w = s.call w ∧
      (if next = none then Function.update t.returned v (t.returned v + 1) else t.returned) w =
        s.returned w := by
    have h := hd.others w hw
    split_ifs <;> simp [Function.update_of_ne hw, h]
  rcases hd.holds with ⟨hlock, hcr⟩ | ⟨hlock, hn | ⟨hv, p, r', hw⟩⟩
  · have hl : b.baLock = some v ∧ Critical (next.map fun pc ↦ (pc, r)) ∨
        b.baLock = none ∧ (next = none ∨ v ∈ b.baCv ∧ ∃ p, next = some (.wait p)) := by
      cases pc <;> simp [hc, Critical] at hcr <;> simp only [queueStep] at hq <;>
        (try split at hq) <;> (try split at hq) <;> cases hq <;>
        simp [hlock, Critical, addSample]
    refine ⟨⟨ho, ?_⟩, ?_⟩
    · rcases hl with ⟨hl, hcr'⟩ | ⟨hl, rfl | ⟨hv, p, rfl⟩⟩
      · exact .inl ⟨hl, by simpa using hcr'⟩
      · exact .inr ⟨hl, .inl (by simp)⟩
      · exact .inr ⟨hl, .inr ⟨hv, p, r, by simp⟩⟩
    · cases pc <;> simp [hc, Critical] at hcr <;> simp only [queueStep] at hq <;>
        (try split at hq) <;> (try split at hq) <;> cases hq <;> simp [holderRank, hc]
  · rw [hn] at hc
    cases hc
  · rw [hw] at hc
    cases hc
    simp [queueStep, hv] at hq

variable {hwm : ℤ} {targetSamples : ℕ}

/-- The holder of the lock can give it up alone. -/
theorem drain (o hwm : ℤ) (targetSamples : ℕ) {v : ι} (hl : s.bar.baLock = some v) (hc : Critical (s.call v)) :
    ∃ l t, (∀ c ∈ l, c = .queue v) ∧ (system o ι hwm targetSamples).Run s l t ∧
      t.bar.baLock = none ∧ ∀ w, w ≠ v → t.call w = s.call w ∧ t.returned w = s.returned w := by
  obtain ⟨l, t, hq, hrun, hd, hstuck⟩ := System.exists_stuck (A := system o ι hwm targetSamples)
    (P := fun c ↦ c = .queue v) (I := Draining s v) (fun t ↦ holderRank (t.call v))
    (fun t c t' hd hc hst ↦ hd.step (hc ▸ hst)) ⟨fun _ _ ↦ ⟨rfl, rfl⟩, .inl ⟨hl, hc⟩⟩
  refine ⟨l, t, hq, hrun, ?_, hd.others⟩
  rcases hd.holds with ⟨-, hcr⟩ | ⟨hl, -⟩
  · exfalso
    cases hct : t.call v with
    | none => simp [hct, Critical] at hcr
    | some c =>
      obtain ⟨b, next, hst⟩ := critical_step o t.bar v (hct ▸ hcr)
      exact hstuck ⟨.queue v, _, rfl, by simp only [system, step, hct, hst]; rfl⟩
  · exact hl

theorem run_queue {u : ι} {pc : QueuePc} {r : Option ResultT} {b : BarrierT ι}
    {next : Option QueuePc} (hc : s.call u = some (pc, r))
    (hq : queueStep o s.bar u r pc = some (b, next)) :
    (system o ι hwm targetSamples).Run s [.queue u]
      ⟨b, Function.update s.call u (next.map fun pc ↦ (pc, r)),
        if next = none then Function.update s.returned u (s.returned u + 1) else s.returned⟩ :=
  .one (by simp only [system, step, hc, hq]; rfl)

def CanReturn (A : System (State ι) (Act ι)) (s : State ι) (u : ι) : Prop :=
  ∃ l t, (∀ c ∈ l, c = .queue u) ∧ A.Run s l t ∧ t.returned u = s.returned u + 1

omit [DecidableEq ι] in
theorem CanReturn.prepend {A : System (State ι) (Act ι)} {u : ι} (hrun : A.Run s [.queue u] s')
    (hret : s'.returned u = s.returned u) (h : CanReturn A s' u) : CanReturn A s u := by
  obtain ⟨l, t, hl, hr, ht⟩ := h
  refine ⟨.queue u :: l, t, ?_, hrun.trans hr, ht.trans (by rw [hret])⟩
  rintro c (_ | ⟨_, hc⟩)
  · rfl
  · exact hl c hc

theorem return_unlock {u : ι} {r : Option ResultT} {p : BitVec 32}
    (hc : s.call u = some (.unlock p, r)) : CanReturn (system o ι hwm targetSamples) s u :=
  ⟨[.queue u], _, by simp, run_queue hc rfl, by simp⟩

theorem return_test {u : ι} {r : Option ResultT} {p : BitVec 32}
    (hc : s.call u = some (.test p, r)) (hp : s.bar.baPhase ≠ p) :
    CanReturn (system o ι hwm targetSamples) s u := by
  have hq : queueStep o s.bar u r (.test p) = some (s.bar, some (.unlock p)) := by
    simp only [queueStep, if_neg hp]
  exact .prepend (run_queue hc hq) rfl (return_unlock (p := p) (r := r) (by simp))

theorem return_broadcast {u : ι} {r : Option ResultT} {p : BitVec 32}
    (hc : s.call u = some (.broadcast p, r)) (hp : s.bar.baPhase ≠ p) :
    CanReturn (system o ι hwm targetSamples) s u :=
  .prepend (run_queue hc rfl) rfl (return_test (p := p) (r := r) (by simp) hp)

theorem return_wait (o hwm : ℤ) (targetSamples : ℕ) {u : ι} {r : Option ResultT} {p : BitVec 32}
    (hc : s.call u = some (.wait p, r)) (hp : s.bar.baPhase ≠ p) (hl : s.bar.baLock = none)
    (hv : u ∉ s.bar.baCv) : CanReturn (system o ι hwm targetSamples) s u := by
  have hq : queueStep o s.bar u r (.wait p) =
      some ({ s.bar with baLock := some u }, some (.test p)) := by
    simp only [queueStep, if_pos (And.intro hv hl)]
  exact .prepend (run_queue hc hq) rfl (return_test (p := p) (r := r) (by simp) hp)

variable [Fintype ι]

omit [DecidableEq ι] in
/-- A sleeper of a finished generation has been woken, unless a participant
holds the lock. -/
theorem Refines.awake {a : Rendezvous.State ι} (hr : Refines s a) {u : ι}
    (hrel : a.stage u = .released) (hl : s.bar.baLock = none) : u ∉ s.bar.baCv := by
  intro hv
  obtain ⟨v, p, r, hw⟩ := hr.signalled u hv hrel
  have h := (hr.owns v).mpr (by simp [hw, Critical])
  rw [hl] at h
  cases h

theorem returns_after_completion [Nonempty ι]
    (hs : (system o ι (Fintype.card ι) targetSamples).Reachable s) {u : ι}
    (hc : s.call u ≠ none) (hcomplete : PhaseComplete s (s.entered u)) :
    ∃ l t, (∀ c ∈ l, c = .queue u ∨ ∃ v, s.bar.baLock = some v ∧ c = .queue v) ∧
      (system o ι (Fintype.card ι) targetSamples).Run s l t ∧
      t.returned u = s.returned u + 1 := by
  obtain ⟨a, hi, hr⟩ := reachable_refines hs
  have hrel := (hr.released_iff hi hc).mp hcomplete
  obtain ⟨⟨pc, r⟩, hcall⟩ := Option.ne_none_iff_exists'.mp hc
  have hp := hr.parts u
  have hne {p : BitVec 32} (hsaved : pc.saved = some p) : s.bar.baPhase ≠ p :=
    ((hr.phase_ne_iff hi hcall hsaved).mpr hrel).symm
  have hself (h : CanReturn (system o ι (Fintype.card ι) targetSamples) s u) :
      ∃ l t, (∀ c ∈ l, c = .queue u ∨ ∃ v, s.bar.baLock = some v ∧ c = .queue v) ∧
        (system o ι (Fintype.card ι) targetSamples).Run s l t ∧
        t.returned u = s.returned u + 1 := by
    obtain ⟨l, t, hl, hrun, ht⟩ := h
    exact ⟨l, t, fun c hc ↦ .inl (hl c hc), hrun, ht⟩
  rw [hcall] at hp
  cases pc with
  | lock | record | addSample r' | arrive => simp [PartOk, hrel] at hp
  | broadcast p => exact hself (return_broadcast hcall (hne rfl))
  | test p => exact hself (return_test hcall (hne rfl))
  | unlock p => exact hself (return_unlock hcall)
  | wait p =>
    rcases Option.eq_none_or_eq_some s.bar.baLock with hlock | ⟨v, hlock⟩
    · exact hself (return_wait o _ _ hcall (hne rfl) hlock (hr.awake hrel hlock))
    · have hcr := (hr.owns v).mp hlock
      have hvu : u ≠ v := by rintro rfl; simp [hcall, Critical] at hcr
      obtain ⟨l, t, hl, hrun, hfree, hothers⟩ := drain o (Fintype.card ι) targetSamples hlock hcr
      obtain ⟨a', hi', hr'⟩ := reachable_refines (hrun.reachable hs)
      obtain ⟨hcu, hru⟩ := hothers u hvu
      have hcall' := hcu.trans hcall
      have hcomplete' : PhaseComplete t (s.entered u) :=
        hrun.invariant hcomplete fun _ _ _ hk _ hst ↦ complete_mono hst hk
      have hrel' : a'.stage u = .released := by
        refine (hr'.released_iff hi' (by simp [hcall'])).mp ?_
        simpa only [State.entered, hcu, hru] using hcomplete'
      obtain ⟨l', t', hl', hrun', ht'⟩ := return_wait o (Fintype.card ι) targetSamples hcall'
        ((hr'.phase_ne_iff hi' hcall' rfl).mpr hrel').symm hfree (hr'.awake hrel' hfree)
      refine ⟨l ++ l', t', ?_, hrun.trans hrun', by rw [ht', hru]⟩
      intro c hc
      rcases List.mem_append.mp hc with hc | hc
      · exact .inr ⟨v, hlock, hl c hc⟩
      · exact .inl (hl' c hc)

theorem exists_generation [Nonempty ι]
    (hs : (system o ι (Fintype.card ι) targetSamples).Reachable s) :
    ∃ g, (∀ k, PhaseComplete s k ↔ k ≤ g) ∧
      ∀ u, s.returned u ≤ g ∧ g ≤ s.returned u + 1 ∧ (s.call u = none → s.returned u = g) := by
  obtain ⟨a, hi, hr⟩ := reachable_refines hs
  refine ⟨a.gen, hr.complete_iff hi, fun u ↦ ?_⟩
  have h := hi.count u
  rw [← hr.passed] at h
  refine ⟨by omega, by split_ifs at h <;> omega, fun hc ↦ ?_⟩
  have hp := hr.parts u
  simp only [hc, PartOk] at hp
  simpa [hp] using h

/-- Nobody moves inside `barrier_queue` between the completion of a phase and its
broadcast, which therefore wakes no participant of the next phase. -/
theorem broadcast_complete [Nonempty ι]
    (hs : (system o ι (Fintype.card ι) targetSamples).Reachable s) :
    ∀ u p r, s.call u = some (.broadcast p, r) → ∀ v, PhaseComplete s (s.returned v + 1) := by
  refine hs.invariant (I := fun s ↦ ∀ u p r, s.call u = some (.broadcast p, r) →
    ∀ v, PhaseComplete s (s.returned v + 1)) (fun s h u p r hc ↦ ?_)
    fun s c s' hr hi hst u p r hc v ↦ ?_
  · obtain ⟨flag, starttime, deadline, rfl⟩ := h
    cases hc
  have hmono (h : PhaseComplete s (s.returned v + 1)) := complete_mono hst h
  obtain ⟨a, ha, href⟩ := reachable_refines hr
  rcases step_cases hst with ⟨m, r', -, hm, rfl⟩ | ⟨m, pc, r', b, next, -, hm, hq, rfl⟩ |
    ⟨m, -, -, rfl⟩ | ⟨flag, -, rfl⟩
  · have hne : u ≠ m := by rintro rfl; simp at hc
    exact hmono (hi u p r (by simpa [Function.update_of_ne hne] using hc) v)
  · by_cases hne : u = m
    · subst hne
      -- the last arrival opens the phase that all others are in or have entered
      obtain ⟨a', ha', href'⟩ := reachable_refines (hr.next hst)
      have hnext : next = some (.broadcast p) := by
        cases next <;> simp_all
      have hpc : pc = .arrive := by
        cases pc <;> simp only [queueStep] at hq <;> (try split at hq) <;> (try split at hq) <;>
          simp_all
      subst hnext hpc
      have hout := href.parts u
      have hrel := href'.parts u
      rw [hm] at hout
      rw [hc] at hrel
      have hpassed := ha.passed_eq (by rw [show a.stage u = .out from hout]; simp)
      have hgen := ha'.passed_succ hrel.1
      have hle := ha.passed_le v
      rw [href'.complete_iff ha']
      rw [← href.passed] at hpassed hle
      rw [← href'.passed] at hgen
      simp only [reduceCtorEq, if_false] at hgen ⊢
      omega
    · have hcu : s.call u = some (.broadcast p, r) := by
        simpa [Function.update_of_ne hne] using hc
      have hcr : Critical (s.call u) := by rw [hcu]; trivial
      have hlock := (href.owns u).mpr hcr
      have hcm : ¬ Critical (s.call m) := fun h ↦ hne (href.owns.unique hcr h)
      rw [hm] at hcm
      cases pc <;> simp [Critical] at hcm <;> simp [queueStep, hlock] at hq
  · exact hmono (hi u p r hc v)
  · exact hmono (hi u p r hc v)

/-- If nobody can go on inside `barrier_queue`, then all who are inside wait
for an arrival, and there is somebody outside. -/
theorem blocked_waiting [Nonempty ι]
    (hs : (system o ι (Fintype.card ι) targetSamples).Reachable s)
    (hb : ∀ u pc r, s.call u = some (pc, r) → queueStep o s.bar u r pc = none) :
    (∀ u, s.call u ≠ none → ¬ PhaseComplete s (s.entered u)) ∧ ∃ u, s.call u = none := by
  obtain ⟨a, hi, hr⟩ := reachable_refines hs
  have hncr : ∀ u, ¬ Critical (s.call u) := by
    intro u hcr
    obtain ⟨⟨pc, r⟩, hc⟩ := Option.ne_none_iff_exists'.mp
      (show s.call u ≠ none by rintro h; simp [h, Critical] at hcr)
    obtain ⟨b, next, hq⟩ := critical_step o s.bar u (hc ▸ hcr)
    rw [hb u pc r hc] at hq
    cases hq
  have hfree : s.bar.baLock = none := by
    rcases Option.eq_none_or_eq_some s.bar.baLock with hl | ⟨v, hl⟩
    · exact hl
    · exact absurd ((hr.owns v).mp hl) (hncr v)
  have hwait : ∀ u, s.call u ≠ none → a.stage u = .waiting := by
    intro u hc
    obtain ⟨⟨pc, r⟩, hcall⟩ := Option.ne_none_iff_exists'.mp hc
    have hq := hb u pc r hcall
    have hn := hncr u
    have hp := hr.parts u
    rw [hcall] at hn hp
    cases pc with
    | lock => simp [queueStep, hfree] at hq
    | wait p =>
      have hrel : a.stage u ≠ .released := fun hrel ↦ by
        simp [queueStep, hfree, hr.awake hrel hfree] at hq
      have hout := hp.1
      cases hst : a.stage u <;> simp_all
    | record | addSample r' | arrive | broadcast p | test p | unlock p => simp [Critical] at hn
  refine ⟨fun u hc hk ↦ ?_, ?_⟩
  · rw [hr.released_iff hi hc, hwait u hc] at hk
    cases hk
  · obtain ⟨u, hu⟩ := hi.open_
    exact ⟨u, by_contra fun hc ↦ hu (hwait u hc)⟩

/-- `barrier_queue` is a reusable barrier for `hwm` participants. Nobody leaves
a call that somebody has not entered; the counter is right whenever the lock is
free; whoever belongs to a complete phase can return with the help of at most
the holder of the lock; and the saved phase tells complete phases from others. -/
theorem barrier_queue_correct (o : ℤ) (hwm : ℕ) (hpos : 1 ≤ hwm) (targetSamples : ℕ)
    (s : State (Fin hwm)) (hs : (system o (Fin hwm) hwm targetSamples).Reachable s) :
    (∀ u v k, k ≤ s.returned u → k ≤ s.entered v) ∧
    (s.bar.baLock = none → 0 ≤ s.bar.baWaiters ∧ s.bar.baWaiters < hwm ∧
      s.bar.baWaiters =
        (Finset.univ.filter fun u ↦
          Arrived (s.call u) ∧ ¬ PhaseComplete s (s.entered u)).card) ∧
    (∀ u, s.call u ≠ none → PhaseComplete s (s.entered u) →
      ∃ l t, (∀ c ∈ l, c = .queue u ∨ ∃ v, s.bar.baLock = some v ∧ c = .queue v) ∧
        (system o (Fin hwm) hwm targetSamples).Run s l t ∧ t.returned u = s.returned u + 1) ∧
    (∀ u pc r p, s.call u = some (pc, r) → pc.saved = some p →
      (p ≠ s.bar.baPhase ↔ PhaseComplete s (s.entered u))) := by
  have : Nonempty (Fin hwm) := ⟨⟨0, hpos⟩⟩
  have hcard : ((Fintype.card (Fin hwm) : ℕ) : ℤ) = hwm := by rw [Fintype.card_fin]
  rw [← hcard] at hs
  obtain ⟨a, hi, hr⟩ := reachable_refines hs
  refine ⟨fun u v k hk ↦ ?_, fun _ ↦ ⟨?_, ?_, ?_⟩, fun u hc hcomplete ↦ ?_,
    fun u pc r p hc hp ↦ ?_⟩
  · have h := hi.passed_le_arrivals u v
    rw [← hr.passed, ← hr.arrivals] at h
    exact (hk.trans h).trans (arrivals_le_entered s v)
  · rw [hr.waiters]
    exact Int.natCast_nonneg _
  · rw [hr.waiters, ← hcard]
    exact_mod_cast hi.waiters_lt
  · rw [hr.waiters, hr.waiters_eq hi]
  · rw [← hcard]
    exact returns_after_completion hs hc hcomplete
  · rw [hr.phase_ne_iff hi hc hp, hr.released_iff hi (by simp [hc])]

/-- The second of two participants has come back and sleeps in its next call, while the first one
still waits in the call that is complete. -/
theorem barrier_queue_correct_pair :
    let s : State (Fin 2) := (system 0 (Fin 2) 2 7).turns (start 2 7 1 0 0)
      (.enter 0 none :: List.replicate 4 (.queue 0) ++ .enter 1 none :: List.replicate 6 (.queue 1) ++
        .enter 1 none :: List.replicate 4 (.queue 1))
    (s.call 0 = some (.wait 0, none) ∧ s.call 1 = some (.wait 1, none) ∧ s.returned 1 = 1 ∧
      s.bar.baCv = {1}) ∧
    1 ≤ s.entered 0 ∧
    (s.bar.baWaiters < 2 ∧ s.bar.baWaiters = (Finset.univ.filter fun u ↦
      Arrived (s.call u) ∧ ¬ PhaseComplete s (s.entered u)).card) ∧
    (∃ l t, (∀ c ∈ l, c = .queue 0 ∨ ∃ v, s.bar.baLock = some v ∧ c = .queue v) ∧
      (system 0 (Fin 2) 2 7).Run s l t ∧ t.returned 0 = s.returned 0 + 1) ∧
    ((0 : BitVec 32) ≠ s.bar.baPhase ↔ PhaseComplete s (s.entered 0)) ∧
    ((1 : BitVec 32) ≠ s.bar.baPhase ↔ PhaseComplete s (s.entered 1)) := by
  intro s
  have h := barrier_queue_correct 0 2 (by decide) 7 s
    (System.turns_reachable (A := system 0 (Fin 2) 2 7) ⟨1, 0, 0, rfl⟩ _)
  have hs : (s.call 0 = some (.wait 0, none) ∧ s.call 1 = some (.wait 1, none) ∧ s.returned 1 = 1 ∧
      s.bar.baCv = {1}) ∧ s.bar.baLock = none ∧ ∀ v, s.entered 0 ≤ s.arrivals v := by decide +kernel
  clear_value s
  obtain ⟨⟨h0, h1, hr, hcv⟩, hlock, hcomplete⟩ := hs
  exact ⟨⟨h0, h1, hr, hcv⟩, h.1 1 0 1 hr.ge, (h.2.1 hlock).2, h.2.2.1 0 (by simp [h0]) hcomplete,
    h.2.2.2 0 _ _ 0 h0 rfl, h.2.2.2 1 _ _ 1 h1 rfl⟩

end LibMicro.Barrier
