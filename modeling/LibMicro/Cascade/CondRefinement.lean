import LibMicro.Cascade.CondRing

namespace LibMicro.Cascade

open TransitionSystem

namespace Cond

variable {ι : Type} [DecidableEq ι] {opto : Bool} {s s' : State ι} {a : Act ι} {t u : ι}

/-- What a step does to its thread's place in the call, and with it to `conds`. -/
inductive Moved (s : State ι) (a : Act ι) (p : Pc) : ℤ → Prop
  | within (ha : a.isSet = false) (hp : p.phase = (s.pc a.thread).phase) (ho : p.phase ≠ .out) :
      Moved s a p s.conds
  | enter (ho : s.pc a.thread = .idle) : Moved s a p s.conds
  | set (ha : a = .set a.thread) (hs : s.pc a.thread = .set) (hp : p = .blockUnlock) : Moved s a p 1
  | store (ha : a = .store a.thread) (hs : s.pc a.thread = .store) (hp : p.phase = .unblocked) :
      Moved s a p 0
  | leave (ha : a.isSet = false) (hd : (s.pc a.thread).phase.isDone = true) (hp : p = .idle) :
      Moved s a p s.conds

theorem locked_phase {p q : Pc} (h : p.locked = some q) : q.phase = p.phase ∧ q.phase ≠ .out := by
  cases p <;> cases h <;> exact ⟨rfl, by decide⟩

theorem step_moved (hi : CondOk opto s) (h : step opto s a = some s') :
    ∃ p, s'.pc = Function.update s.pc a.thread p ∧ Moved s a p s'.conds := by
  cases a with
  | callBlock t | callUnblock t =>
    simp only [step] at h
    split_ifs at h with hp
    cases h
    exact ⟨_, rfl, .enter hp⟩
  | mutexLock t =>
    simp only [step] at h
    split at h
    · next p hp =>
      split_ifs at h
      cases h
      exact ⟨p, rfl, .within rfl (locked_phase hp).1 (locked_phase hp).2⟩
    · cases h
  | test t =>
    simp only [step] at h
    split at h
    · next hp =>
      cases h
      have hphase : (if s.conds ≠ 0 then Pc.wait else .set).phase = .blocking := by
        split_ifs <;> rfl
      exact ⟨_, rfl, .within rfl (by rw [hphase]; simp [Act.thread, hp, Pc.phase])
        (by rw [hphase]; decide)⟩
    · cases h
  | condWait t =>
    simp only [step] at h
    split_ifs at h with hp
    cases h
    exact ⟨.condWait, rfl, .within rfl (by simp [Act.thread, hp, Pc.phase]) (by decide)⟩
  | spurious t =>
    simp only [step] at h
    split_ifs at h with ht
    cases h
    refine ⟨s.pc t, (Function.update_eq_self t s.pc).symm, .within rfl rfl ?_⟩
    rw [hi.asleep t ht]
    decide
  | set t =>
    simp only [step] at h
    split_ifs at h with hp
    cases h
    exact ⟨.blockUnlock, rfl, .set rfl hp rfl⟩
  | blockReturn t =>
    simp only [step] at h
    split_ifs at h with hp
    cases h
    exact ⟨.idle, rfl, .leave rfl (by simp [Act.thread, hp, Pc.phase, Phase.isDone]) rfl⟩
  | store t =>
    simp only [step] at h
    split at h
    · next hp =>
      cases h
      exact ⟨_, rfl, .store rfl hp (by cases opto <;> rfl)⟩
    · cases h
  | condSignal t o =>
    have hmoved (hp : s.pc t = .unblockSignal) :
        Moved s (.condSignal t o) (if opto then .idle else .unblockUnlock) s.conds := by
      cases opto with
      | true => exact .leave rfl (by simp [Act.thread, hp, Pc.phase, Phase.isDone]) rfl
      | false => exact .within rfl (by simp [Act.thread, hp, Pc.phase]) (by decide)
    cases o with
    | none =>
      simp only [step] at h
      split at h
      · next hp =>
        cases h
        exact ⟨_, rfl, hmoved hp.1⟩
      · cases h
    | some u =>
      simp only [step] at h
      split at h
      · next hp =>
        cases h
        exact ⟨_, rfl, hmoved hp.1⟩
      · cases h
  | mutexUnlock t =>
    simp only [step] at h
    split at h
    · next hp =>
      cases h
      cases opto with
      | true => exact ⟨_, rfl, .within rfl (by simp [Act.thread, hp, Pc.phase]) (by decide)⟩
      | false => exact ⟨_, rfl, .leave rfl (by simp [Act.thread, hp, Pc.phase, Phase.isDone]) rfl⟩
    · cases h

end Cond

namespace CondRing

variable {N : ℕ} {opto : Bool} {s s' : State N} {t : Cascade.State N} {u v : Fin N} {c : Call}

def Runs : Call → Cond.Phase → Prop
  | .block _, p => p = .blocking ∨ p = .blocked
  | .unblock _, p => p = .unblocking ∨ p = .unblocked

theorem Runs.ne_out {p : Cond.Phase} (h : Runs c p) : p ≠ .out := by
  cases c <;> rcases h with rfl | rfl <;> decide

/-- A worker is outside of all calls, or in the next one of its script and in no other. -/
inductive WorkerOk (s : State N) (u : Fin N) : Prop
  | out (hcall : s.calling u = false) (hidle : ∀ i, (s.sync i).pc u = .idle)
      (htsd : s.tsd u = ring N u ∨ s.pos u = 0 ∧ s.tsd u = ⟨0, 0, 0, 0, 0, 0⟩) : WorkerOk s u
  | busy (c : Call) (hcall : s.calling u = true) (hc : (roundOf benchmark)[s.pos u]? = some c)
      (hruns : Runs c ((s.sync ((ring N u).index c.name)).pc u).phase)
      (hidle : ∀ i ≠ (ring N u).index c.name, (s.sync i).pc u = .idle)
      (htsd : s.tsd u = ring N u) (hall : s.pos u = 1 → s.AllAt u 1) : WorkerOk s u

structure CallsOk (opto : Bool) (s : State N) : Prop where
  sync : ∀ i, Cond.CondOk opto (s.sync i)
  worker : ∀ u, WorkerOk s u

theorem State.AllAt.mono {p : ℕ} (h : s.AllAt u p) (hu : s'.round u = s.round u)
    (hv : ∀ v, s.round v < s'.round v ∨ s'.round v = s.round v ∧ s.pos v ≤ s'.pos v) :
    s'.AllAt u p := by
  intro v
  have hold := h v
  have hnew := hv v
  omega

theorem WorkerOk.frame (h : WorkerOk s v) (hpc : ∀ i, (s'.sync i).pc v = (s.sync i).pc v)
    (htsd : s'.tsd v = s.tsd v) (hround : s'.round v = s.round v) (hpos : s'.pos v = s.pos v)
    (hcalling : s'.calling v = s.calling v)
    (hmono : ∀ w, s.round w < s'.round w ∨ s'.round w = s.round w ∧ s.pos w ≤ s'.pos w) :
    WorkerOk s' v := by
  cases h with
  | out hcall hidle hz =>
    exact .out (hcalling.trans hcall) (fun i ↦ (hpc i).trans (hidle i)) (by rwa [htsd, hpos])
  | busy c hcall hc hruns hidle hz hall =>
    refine .busy c (hcalling.trans hcall) (by rwa [hpos]) (by rwa [hpc]) (fun i hi ↦ ?_)
      (htsd.trans hz) fun hp ↦ (hall (hpos ▸ hp)).mono hround hmono
    rw [hpc]
    exact hidle i hi

theorem WorkerOk.ready (h : WorkerOk s u) (hcall : s.calling u = false) :
    s.ready u = ring N u := by
  cases h with
  | busy c hbusy => rw [hcall] at hbusy; cases hbusy
  | out _ _ htsd =>
    unfold State.ready
    rcases htsd with he | ⟨hp, he⟩
    · rw [he, assignLocks_ring, ite_self]
    · rw [if_pos hp, he]
      rfl

inductive Stepped (opto : Bool) (s : State N) : Act N → State N → Prop
  | call (u : Fin N) (c : Call) (x : Cond.State (Fin N)) (hcall : s.calling u = false)
      (hc : (roundOf benchmark)[s.pos u]? = some c) (hall : s.pos u = 1 → s.AllAt u 1)
      (hx : Cond.step opto (s.sync ((s.ready u).index c.name)) (enter u c) = some x) :
      Stepped opto s (.call u) (s.entered u ((s.ready u).index c.name) x)
  | inside (a : Cond.Act (Fin N)) (c : Call) (x : Cond.State (Fin N))
      (hcall : s.calling a.thread = true) (hc : (roundOf benchmark)[s.pos a.thread]? = some c)
      (hx : Cond.step opto (s.sync ((s.tsd a.thread).index c.name)) a = some x) :
      Stepped opto s (.inside a) (s.executed a c ((s.tsd a.thread).index c.name) x)
  | turn (u : Fin N) (hp : (roundOf benchmark)[s.pos u]? = none)
      (hall : s.AllAt u (roundOf benchmark).length) :
      Stepped opto s (.turn u) { s with
        round := Function.update s.round u (s.round u + 1)
        pos := Function.update s.pos u 0 }

theorem step_stepped {a : Act N} (h : step opto s a = some s') : Stepped opto s a s' := by
  cases a with
  | call u =>
    simp only [step] at h
    split at h
    · next c hc =>
      split_ifs at h with hcall
      obtain ⟨x, hx, rfl⟩ := Option.map_eq_some_iff.mp h
      exact .call u c x hcall.1 hc hcall.2 hx
    · cases h
  | inside a =>
    simp only [step] at h
    split at h
    · next c hc =>
      split_ifs at h with hcall
      obtain ⟨x, hx, rfl⟩ := Option.map_eq_some_iff.mp h
      exact .inside a c x hcall hc hx
    · cases h
  | turn u =>
    simp only [step] at h
    split_ifs at h with hp
    cases h
    exact .turn u hp.1 hp.2

def firstPc : Call → Cond.Pc
  | .block _ => .blockLock
  | .unblock _ => .unblockLock

theorem firstPc_runs (c : Call) : Runs c (firstPc c).phase := by
  cases c <;> exact .inl rfl

theorem enter_step {x x' : Cond.State (Fin N)} (h : Cond.step opto x (enter u c) = some x') :
    x.pc u = .idle ∧ x' = { x with pc := Function.update x.pc u (firstPc c) } := by
  cases c <;>
  · simp only [enter, Cond.step] at h
    split_ifs at h with hp
    exact ⟨hp, (Option.some.inj h).symm⟩

theorem runs_moved {x : Cond.State (Fin N)} {a : Cond.Act (Fin N)} {p : Cond.Pc} {k : ℤ}
    (hm : Cond.Moved x a p k) (hr : Runs c (x.pc a.thread).phase) : p = .idle ∨ Runs c p.phase := by
  cases hm with
  | within _ hp => exact .inr (hp ▸ hr)
  | enter ho =>
    rw [ho] at hr
    exact absurd rfl hr.ne_out
  | set _ hs hp =>
    subst hp
    rw [hs] at hr
    cases c with
    | block n => exact .inr (.inr rfl)
    | unblock n => rcases hr with hr | hr <;> cases hr
  | store _ hs hp =>
    rw [hs] at hr
    cases c with
    | block n => rcases hr with hr | hr <;> cases hr
    | unblock n => exact .inr (.inr hp)
  | leave _ _ hp => exact .inl hp

theorem pc_update {x : Cond.State (Fin N)} {i : ℕ} {p : Cond.Pc}
    (hx : x.pc = Function.update (s.sync i).pc u p) (hv : v ≠ u) (j : ℕ) :
    (Function.update s.sync i x j).pc v = (s.sync j).pc v := by
  by_cases hj : j = i
  · subst hj
    rw [Function.update_self, hx, Function.update_of_ne hv]
  · rw [Function.update_of_ne hj]

theorem sync_update {x : Cond.State (Fin N)} {i : ℕ} (h : ∀ j, Cond.CondOk opto (s.sync j))
    (hx : Cond.CondOk opto x) (j : ℕ) : Cond.CondOk opto (Function.update s.sync i x j) := by
  by_cases hj : j = i
  · subst hj
    rwa [Function.update_self]
  · rw [Function.update_of_ne hj]
    exact h j

theorem executed_returned {a : Cond.Act (Fin N)} {i : ℕ} {x : Cond.State (Fin N)}
    (hx : x.pc a.thread = .idle) : (s.executed a c i x).pos =
      Function.update s.pos a.thread (s.pos a.thread + 1) ∧
    (s.executed a c i x).calling = Function.update s.calling a.thread false :=
  ⟨if_pos hx, if_pos hx⟩

theorem executed_running {a : Cond.Act (Fin N)} {i : ℕ} {x : Cond.State (Fin N)}
    (hx : x.pc a.thread ≠ .idle) :
    (s.executed a c i x).pos = s.pos ∧ (s.executed a c i x).calling = s.calling :=
  ⟨if_neg hx, if_neg hx⟩

theorem executed_of_ne {a : Cond.Act (Fin N)} {i : ℕ} {x : Cond.State (Fin N)}
    (hv : v ≠ a.thread) : (s.executed a c i x).pos v = s.pos v ∧
      (s.executed a c i x).calling v = s.calling v := by
  by_cases hx : x.pc a.thread = .idle
  · rw [(executed_returned hx).1, (executed_returned hx).2]
    exact ⟨Function.update_of_ne hv _ _, Function.update_of_ne hv _ _⟩
  · rw [(executed_running hx).1, (executed_running hx).2]
    exact ⟨rfl, rfl⟩

theorem executed_pos_le (a : Cond.Act (Fin N)) (c : Call) (i : ℕ) (x : Cond.State (Fin N))
    (w : Fin N) : s.pos w ≤ (s.executed a c i x).pos w := by
  by_cases hw : w = a.thread
  · subst hw
    by_cases hx : x.pc a.thread = .idle
    · rw [(executed_returned hx).1, Function.update_self]
      exact Nat.le_succ _
    · rw [(executed_running hx).1]
  · rw [(executed_of_ne hw).1]

theorem CallsOk.busy (h : CallsOk opto s) (hcall : s.calling u = true)
    (hc : (roundOf benchmark)[s.pos u]? = some c) :
    s.tsd u = ring N u ∧ Runs c ((s.sync ((ring N u).index c.name)).pc u).phase ∧
      (∀ i ≠ (ring N u).index c.name, (s.sync i).pc u = .idle) ∧
      (s.pos u = 1 → s.AllAt u 1) := by
  cases h.worker u with
  | out hout => rw [hcall] at hout; cases hout
  | busy c' _ hc' hruns hidle htsd hall =>
    rw [hc] at hc'
    cases hc'
    exact ⟨htsd, hruns, hidle, hall⟩

theorem CallsOk.step {a : Act N} (h : CallsOk opto s) (hst : step opto s a = some s') :
    CallsOk opto s' := by
  cases step_stepped hst with
  | call u c x hcall hc hall hx =>
    have hready := (h.worker u).ready hcall
    rw [hready] at hx ⊢
    obtain ⟨hidle, hx'⟩ := enter_step hx
    have hpc : x.pc = Function.update (s.sync ((ring N u).index c.name)).pc u (firstPc c) := by
      rw [hx']
    refine ⟨sync_update h.sync ((h.sync _).step hx), fun v ↦ ?_⟩
    by_cases hv : v = u
    · subst hv
      refine .busy c (Function.update_self ..) hc ?_ (fun i hi ↦ ?_)
        ((Function.update_self ..).trans hready) hall
      · simp only [State.entered, Function.update_self, hpc]
        exact firstPc_runs c
      · simp only [State.entered, Function.update_of_ne hi]
        cases h.worker v with
        | out _ hout => exact hout i
        | busy _ hbusy => rw [hcall] at hbusy; cases hbusy
    · exact (h.worker v).frame (pc_update hpc hv) (Function.update_of_ne hv _ _) rfl rfl
        (Function.update_of_ne hv _ _) fun w ↦ .inr ⟨rfl, Nat.le_refl _⟩
  | inside a c x hcall hc hx =>
    obtain ⟨htsd, hruns, hidle, hall⟩ := h.busy hcall hc
    rw [htsd] at hx ⊢
    obtain ⟨p, hpc, hmoved⟩ := Cond.step_moved (h.sync _) hx
    have hp : x.pc a.thread = p := by rw [hpc, Function.update_self]
    refine ⟨sync_update h.sync ((h.sync _).step hx), fun v ↦ ?_⟩
    by_cases hv : v = a.thread
    · subst hv
      rcases runs_moved hmoved hruns with hout | hnew
      · refine .out (by rw [(executed_returned (hp.trans hout)).2, Function.update_self])
          (fun i ↦ ?_) (.inl htsd)
        by_cases hi : i = (ring N a.thread).index c.name
        · subst hi
          simp only [State.executed, Function.update_self]
          exact hp.trans hout
        · simp only [State.executed, Function.update_of_ne hi]
          exact hidle i hi
      · have hne : x.pc a.thread ≠ .idle := fun hout ↦ hnew.ne_out (by rw [← hp, hout]; rfl)
        obtain ⟨hpos, hcalling⟩ := executed_running (s := s) (c := c)
          (i := (ring N a.thread).index c.name) hne
        refine .busy c (by rw [hcalling, hcall]) (by rw [hpos, hc]) ?_ (fun i hi ↦ ?_) htsd
          fun h1 ↦ (hall (hpos ▸ h1)).mono rfl fun w ↦ .inr ⟨rfl, executed_pos_le a c _ x w⟩
        · simp only [State.executed, Function.update_self, hp]
          exact hnew
        · simp only [State.executed, Function.update_of_ne hi]
          exact hidle i hi
    · exact (h.worker v).frame (pc_update hpc hv) rfl rfl (executed_of_ne hv).1
        (executed_of_ne hv).2 fun w ↦ .inr ⟨rfl, executed_pos_le a c _ x w⟩
  | turn u hp hall =>
    refine ⟨h.sync, fun v ↦ ?_⟩
    by_cases hv : v = u
    · subst hv
      cases h.worker v with
      | out hcall hidle htsd =>
        refine .out hcall hidle ?_
        simpa only [Function.update_self, true_and] using htsd.imp_right And.right
      | busy c _ hc => rw [hp] at hc; cases hc
    · refine (h.worker v).frame (fun _ ↦ rfl) rfl (Function.update_of_ne hv _ _)
        (Function.update_of_ne hv _ _) rfl fun w ↦ ?_
      by_cases hw : w = u
      · subst hw
        exact .inl (by simp)
      · simp only [Function.update_of_ne hw]
        exact .inr ⟨trivial, Nat.le_refl _⟩

def State.Done (s : State N) (u : Fin N) : Prop := ∃ i, ((s.sync i).pc u).phase.isDone = true

theorem not_done_of_idle (h : ∀ i, (s.sync i).pc u = .idle) : ¬ s.Done u := by
  rintro ⟨i, hi⟩
  rw [h i] at hi
  cases hi

theorem done_iff {i : ℕ} (h : ∀ j ≠ i, (s.sync j).pc u = .idle) :
    s.Done u ↔ ((s.sync i).pc u).phase.isDone = true := by
  refine ⟨fun ⟨j, hj⟩ ↦ ?_, fun hi ↦ ⟨i, hi⟩⟩
  by_cases he : j = i
  · exact he ▸ hj
  · rw [h j he] at hj
    cases hj

theorem done_congr (h : ∀ i, (s'.sync i).pc v = (s.sync i).pc v) : s'.Done v ↔ s.Done v := by
  simp only [State.Done, h]

structure Rel (s : State N) (t : Cascade.State N) : Prop where
  round : t.round = s.round
  moves : t.moves = s.moves
  pos : ∀ u, s.Done u ∧ t.pos u = s.pos u + 1 ∨ ¬ s.Done u ∧ t.pos u = s.pos u
  locks : ∀ i, t.locks i = none ↔ (s.sync i).conds = 0

theorem Rel.pos_eq (hr : Rel s t) (h : ¬ s.Done u) : t.pos u = s.pos u := by
  rcases hr.pos u with ⟨hd, -⟩ | ⟨-, hp⟩
  · exact absurd hd h
  · exact hp

theorem Rel.pos_le (hr : Rel s t) (u : Fin N) : s.pos u ≤ t.pos u := by
  have := hr.pos u
  omega

theorem Rel.allAt (hr : Rel s t) {p : ℕ} (h : s.AllAt u p) : t.AllAt u p := by
  intro v
  have hv := h v
  have hle := hr.pos_le v
  rw [hr.round]
  omega

theorem Rel.other {t' : Cascade.State N} (hr : Rel s t)
    (hother : ∀ v ≠ u, (s'.Done v ↔ s.Done v) ∧ s'.pos v = s.pos v ∧ t'.pos v = t.pos v)
    (hu : s'.Done u ∧ t'.pos u = s'.pos u + 1 ∨ ¬ s'.Done u ∧ t'.pos u = s'.pos u) (v : Fin N) :
    s'.Done v ∧ t'.pos v = s'.pos v + 1 ∨ ¬ s'.Done v ∧ t'.pos v = s'.pos v := by
  by_cases hv : v = u
  · exact hv ▸ hu
  · obtain ⟨hd, hp, hp'⟩ := hother v hv
    rw [hd, hp, hp']
    exact hr.pos v

theorem locks_update {locks : ℕ → Option (Fin N)} {x : Cond.State (Fin N)} {i : ℕ}
    {l : Option (Fin N)} (h : ∀ j, locks j = none ↔ (s.sync j).conds = 0)
    (hx : l = none ↔ x.conds = 0) (j : ℕ) :
    Function.update locks i l j = none ↔ (Function.update s.sync i x j).conds = 0 := by
  by_cases hj : j = i
  · subst hj
    rwa [Function.update_self, Function.update_self]
  · rw [Function.update_of_ne hj, Function.update_of_ne hj]
    exact h j

theorem conds_update {locks : ℕ → Option (Fin N)} {x : Cond.State (Fin N)} {i : ℕ}
    (h : ∀ j, locks j = none ↔ (s.sync j).conds = 0) (hx : x.conds = (s.sync i).conds) (j : ℕ) :
    locks j = none ↔ (Function.update s.sync i x j).conds = 0 := by
  by_cases hj : j = i
  · subst hj
    rw [Function.update_self, hx]
    exact h j
  · rw [Function.update_of_ne hj]
    exact h j

theorem step_some {locks : ℕ → Option (Fin N)} (hc : (roundOf benchmark)[t.pos u]? = some c)
    (hall : t.pos u = 1 → t.AllAt u 1) (hs : Cascade.callStep t.locks u (t.ready u) c = some locks) :
    Cascade.step benchmark t u = some { t with
      locks := locks
      tsd := Function.update t.tsd u (t.ready u)
      pos := Function.update t.pos u (t.pos u + 1)
      moves := if c.isMove then
          t.moves ++ [(t.round u, ((roundOf benchmark).take (t.pos u)).countP Call.isMove, u.val)]
        else t.moves } := by
  simp only [Cascade.step, hc, if_pos hall, hs, Option.map_some]

section Inside

variable {a : Cond.Act (Fin N)} {x : Cond.State (Fin N)} {i : ℕ} {p : Cond.Pc}

/-- Where the locks have to be taken or released, the cascade with locks does it in
the same step. -/
theorem Rel.effect (hr : Rel s t) {locks : ℕ → Option (Fin N)} {l : Option (Fin N)}
    (hidle : ∀ j ≠ i, (s.sync j).pc a.thread = .idle)
    (hpc : x.pc = Function.update (s.sync i).pc a.thread p)
    (hbefore : ((s.sync i).pc a.thread).phase.isDone = false) (hafter : p.phase.isDone = true)
    (hc : (roundOf benchmark)[s.pos a.thread]? = some c)
    (hall : s.pos a.thread = 1 → s.AllAt a.thread 1)
    (hs : Cascade.callStep t.locks a.thread (t.ready a.thread) c = some locks)
    (hlocks : locks = Function.update t.locks i l) (hl : l = none ↔ x.conds = 0)
    (hset : (a.isSet && c.isMove) = c.isMove) :
    ∃ b t', Cascade.step benchmark t b = some t' ∧ Rel (s.executed a c i x) t' := by
  have hdone : ¬ s.Done a.thread := by simp [done_iff hidle, hbefore]
  have hpos := hr.pos_eq hdone
  have hp : x.pc a.thread = p := by rw [hpc, Function.update_self]
  have hrun : x.pc a.thread ≠ .idle := by
    intro hout
    rw [← hp, hout] at hafter
    cases hafter
  have hst := step_some (u := a.thread) (hpos ▸ hc) (fun h1 ↦ hr.allAt (hall (hpos ▸ h1))) hs
  refine ⟨a.thread, _, hst, hr.round, ?_, hr.other (u := a.thread) (fun v hv ↦
    ⟨done_congr (pc_update hpc hv), (executed_of_ne hv).1, Function.update_of_ne hv _ _⟩)
    (.inl ⟨⟨i, ?_⟩, ?_⟩), ?_⟩
  · simp only [State.executed, hset, hr.moves, hr.round, hpos]
  · simp only [State.executed, Function.update_self, hp, hafter]
  · rw [(executed_running hrun).1, ← hpos]
    exact Function.update_self ..
  · subst hlocks
    exact locks_update hr.locks hl

end Inside

theorem firstPc_not_done (c : Call) : (firstPc c).phase.isDone = false := by
  cases c <;> rfl

theorem Rel.call (h : CallsOk opto s) (hr : Rel s t) {x : Cond.State (Fin N)}
    (hcall : s.calling u = false)
    (hx : Cond.step opto (s.sync ((s.ready u).index c.name)) (enter u c) = some x) :
    Rel (s.entered u ((s.ready u).index c.name) x) t := by
  obtain ⟨hidle, hx'⟩ := enter_step hx
  have hpc : x.pc = Function.update (s.sync ((s.ready u).index c.name)).pc u (firstPc c) := by
    rw [hx']
  have hout (i : ℕ) : (s.sync i).pc u = .idle := by
    cases h.worker u with
    | out _ hout => exact hout i
    | busy _ hbusy => rw [hcall] at hbusy; cases hbusy
  have hnot : ¬ (s.entered u ((s.ready u).index c.name) x).Done u := by
    rw [done_iff (i := (s.ready u).index c.name) fun j hj ↦ by
      simp only [State.entered, Function.update_of_ne hj, hout]]
    simp [State.entered, hpc, firstPc_not_done]
  exact ⟨hr.round, hr.moves, hr.other (u := u)
    (fun v hv ↦ ⟨done_congr (pc_update hpc hv), rfl, rfl⟩)
    (.inr ⟨hnot, hr.pos_eq (not_done_of_idle hout)⟩), conds_update hr.locks (by rw [hx'])⟩

theorem Rel.turn (h : CallsOk opto s) (hr : Rel s t) (hp : (roundOf benchmark)[s.pos u]? = none)
    (hall : s.AllAt u (roundOf benchmark).length) :
    ∃ b t', Cascade.step benchmark t b = some t' ∧ Rel { s with
      round := Function.update s.round u (s.round u + 1)
      pos := Function.update s.pos u 0 } t' := by
  have hnot : ¬ s.Done u := by
    cases h.worker u with
    | out _ hout => exact not_done_of_idle hout
    | busy c _ hc => rw [hp] at hc; cases hc
  have hp' : (roundOf benchmark)[t.pos u]? = none := by rw [hr.pos_eq hnot, hp]
  refine ⟨u, { t with
    round := Function.update t.round u (t.round u + 1)
    pos := Function.update t.pos u 0 }, ?_, ?_, hr.moves, hr.other (u := u) (fun v hv ↦ ⟨Iff.rfl,
      Function.update_of_ne hv _ _, Function.update_of_ne hv _ _⟩) (.inr ⟨hnot, ?_⟩), hr.locks⟩
  · simp only [Cascade.step, hp', if_pos (hr.allAt hall)]
  · simp only [hr.round]
  · simp only [Function.update_self]

end CondRing

end LibMicro.Cascade
