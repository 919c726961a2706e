import LibMicro.Cascade.Run
import LibMicro.Processes.Threads

namespace LibMicro.Cascade.Indices

open TransitionSystem Harness Processes Run

/-- The ring of `cascade_mutex`, and the threads of all processes with their `tids`. -/
structure Shared (opt : Options) (Id : Type) where
  ring : Run.Shared (nthreads opt)
  threads : Threads.State Id opt.lmOptP opt.lmOptT

/-- Where a worker is in a callback. In `benchmark_pre` it first asks for its index. -/
inductive Place
  | ask
  | look (i : ℕ)
  | assign (tindex : ℤ)
  | call (k : ℕ)
  deriving DecidableEq

variable {opt : Options} {Id : Type}

def gettindex (t : Threads.State Id opt.lmOptP opt.lmOptT) (u : WorkerId opt) : Place :=
  match t.lookup u with
  | some i => .look i
  | none => .assign ((t.answers u).getLastD 0)

/-- A lock belongs to the worker that has got it, whichever index that worker has been told. -/
def callbacks (opt : Options) (Id : Type) [DecidableEq Id] :
    Callbacks (WorkerId opt) (Shared opt Id) Place where
  entry c := if c = .pre then .ask else .call 0
  step u c _ x
    | .ask =>
      if (x.ring.tsd (us u)).tsOnce = 0 then
        (Threads.step x.threads (.call u)).map fun t ↦ ({ x with threads := t }, some (gettindex t u))
      else some (x, some (.call 0))
    | .look _ =>
      (Threads.step x.threads (.look u)).map fun t ↦ ({ x with threads := t }, some (gettindex t u))
    | .assign tindex =>
      let ts := assignLocks (nthreads opt) (Threads.us u tindex).toNat (x.ring.tsd (us u))
      (callStep x.ring.locks (us u) ts benchmarkPre).map fun locks ↦
        ({ x with ring := ⟨locks, Function.update x.ring.tsd (us u) ts⟩ }, some (.call 1))
    | .call k =>
      match (scriptOf c)[k]? with
      | none => some (x, none)
      | some call =>
        (callStep x.ring.locks (us u) (x.ring.tsd (us u)) call).map fun locks ↦
          ({ x with ring := { x.ring with locks := locks } }, some (.call (k + 1)))

abbrev State (opt : Options) (Id : Type) := Loaded.State (WorkerId opt) (Shared opt Id) Place

inductive Act (opt : Options) (Id : Type)
  | harness (a : Harness.Act (WorkerId opt))
  | main (a : Threads.Act Id opt.lmOptP opt.lmOptT)

/-- The steps by which a process starts its threads. -/
def ofMain {P T : ℕ} : Threads.Act Id P T → Bool
  | .call _ | .look _ => false
  | .fork _ _ | .create _ _ | .store _ | .start _ | .next _ => true

variable [DecidableEq Id]

def step (s : State opt Id) : Act opt Id → Option (State opt Id)
  | .harness (.run u now) =>
    if s.shared.threads.Runs u then Loaded.step opt (callbacks opt Id) s (.run u now) else none
  | .harness (.spurious u) => Loaded.step opt (callbacks opt Id) s (.spurious u)
  | .main a =>
    if ofMain a then
      (Threads.step s.shared.threads a).map fun t ↦
        { s with shared := { s.shared with threads := t } }
    else none

/-- The locks are mapped and `tids` is allocated before the processes are forked. -/
def system (opt : Options) (Id : Type) [DecidableEq Id] : System (State opt Id) (Act opt Id) where
  init s := ∃ starttime tids,
    s = ⟨Harness.start opt starttime, ⟨mapped _, Threads.start tids⟩, fun _ ↦ none⟩
  step := step

/-- A worker that comes to its own entry of `tids` finds its id there. -/
def Filled (s : State opt Id) : Act opt Id → Prop
  | .harness (.run u _) => Threads.Filled s.shared.threads (.look u)
  | .harness (.spurious _) | .main _ => True

instance (s : State opt Id) (a : Act opt Id) : Decidable (Filled s a) := by
  unfold Filled Threads.Filled
  split <;> infer_instance

/-- A step of a worker or of a main thread, not a spurious wakeup. -/
def Act.isRun : Act opt Id → Bool
  | .harness a => a.isRun
  | .main _ => true

section Inside

variable {t t' : Threads.State Id opt.lmOptP opt.lmOptT} {x x' : Shared opt Id} {u v : WorkerId opt}
  {c : Callback} {n : ℕ} {k : Place} {k' : Option Place}

inductive Steps (u : WorkerId opt) (c : Callback) (x : Shared opt Id) :
    Place → Shared opt Id → Option Place → Prop
  | asks {t : Threads.State Id opt.lmOptP opt.lmOptT} (honce : (x.ring.tsd (us u)).tsOnce = 0)
      (ht : Threads.step x.threads (.call u) = some t) :
      Steps u c x .ask { x with threads := t } (some (gettindex t u))
  | known (honce : (x.ring.tsd (us u)).tsOnce ≠ 0) : Steps u c x .ask x (some (.call 0))
  | looks {i : ℕ} {t : Threads.State Id opt.lmOptP opt.lmOptT}
      (ht : Threads.step x.threads (.look u) = some t) :
      Steps u c x (.look i) { x with threads := t } (some (gettindex t u))
  | assigns {tindex : ℤ} {locks : ℕ → Option (Fin (nthreads opt))}
      (hlocks : callStep x.ring.locks (us u)
        (assignLocks (nthreads opt) (Threads.us u tindex).toNat (x.ring.tsd (us u)))
          benchmarkPre = some locks) :
      Steps u c x (.assign tindex)
        { x with
          ring := ⟨locks, Function.update x.ring.tsd (us u)
            (assignLocks (nthreads opt) (Threads.us u tindex).toNat (x.ring.tsd (us u)))⟩ }
        (some (.call 1))
  | calls {k : ℕ} {call : Call} {locks : ℕ → Option (Fin (nthreads opt))}
      (hcall : (scriptOf c)[k]? = some call)
      (hlocks : callStep x.ring.locks (us u) (x.ring.tsd (us u)) call = some locks) :
      Steps u c x (.call k) { x with ring := { x.ring with locks := locks } } (some (.call (k + 1)))
  | back {k : ℕ} (hcall : (scriptOf c)[k]? = none) : Steps u c x (.call k) x none

theorem callbacks_cases (h : (callbacks opt Id).step u c n x k = some (x', k')) :
    Steps u c x k x' k' := by
  cases k with
  | ask =>
    simp only [callbacks] at h
    split_ifs at h with honce
    · obtain ⟨t, ht, he⟩ := Option.map_eq_some_iff.mp h
      cases he
      exact .asks honce ht
    · cases h
      exact .known honce
  | look i =>
    obtain ⟨t, ht, he⟩ := Option.map_eq_some_iff.mp h
    cases he
    exact .looks ht
  | assign tindex =>
    obtain ⟨locks, hlocks, he⟩ := Option.map_eq_some_iff.mp h
    cases he
    exact .assigns hlocks
  | call k =>
    simp only [callbacks] at h
    cases hcall : (scriptOf c)[k]? with
    | none =>
      rw [hcall] at h
      cases h
      exact .back hcall
    | some call =>
      rw [hcall] at h
      obtain ⟨locks, hlocks, he⟩ := Option.map_eq_some_iff.mp h
      cases he
      exact .calls hcall hlocks

structure Asks (u : WorkerId opt) (t t' : Threads.State Id opt.lmOptP opt.lmOptT) : Prop where
  creator : t'.creator = t.creator
  other : ∀ v ≠ u, t'.lookup v = t.lookup v ∧ t'.answers v = t.answers v
  answered : t'.lookup u = none → t'.answers u ≠ []
  goes : ∀ i, t'.lookup u = some i → i = (t.lookup u).getD 0 + 1 ∧ i ≤ opt.lmOptT

theorem asks_call (h : Threads.step t (.call u) = some t') : Asks u t t' := by
  have hT : 1 ≤ opt.lmOptT := Nat.one_le_of_lt u.2.isLt
  simp only [Threads.step] at h
  split_ifs at h with hr
  split at h <;> cases h
  · exact ⟨rfl, fun v hv ↦ ⟨rfl, Function.update_of_ne hv _ _⟩, by simp, by simp [hr.2]⟩
  · exact ⟨rfl, fun v hv ↦ ⟨Function.update_of_ne hv _ _, rfl⟩, by simp, by simp [hr.2, hT]⟩

theorem asks_look (h : Threads.step t (.look u) = some t') : Asks u t t' := by
  simp only [Threads.step] at h
  split at h
  case h_1 i tids hi _ =>
    split_ifs at h with hlt
    · cases h
      exact ⟨rfl, fun v hv ↦ ⟨Function.update_of_ne hv _ _, rfl⟩, by simp, by simp [hi]; omega⟩
    all_goals
      cases h
      exact ⟨rfl, fun v hv ↦ ⟨Function.update_of_ne hv _ _, Function.update_of_ne hv _ _⟩,
        by simp, by simp⟩
  case h_2 => cases h

def Stands (t : Threads.State Id opt.lmOptP opt.lmOptT) (ts : TsdT) (u : WorkerId opt)
    (c : Callback) : Place → Prop
  | .ask => c = .pre ∧ t.lookup u = none
  | .look i => c = .pre ∧ t.lookup u = some i
  | .assign tindex => c = .pre ∧ t.lookup u = none ∧ tindex ∈ t.answers u
  | .call k => t.lookup u = none ∧ (c = .pre → k = 0 → ts.tsOnce ≠ 0)

omit [DecidableEq Id] in
theorem stands_same {ts ts' : TsdT} (h : Stands t ts u c k) (hl : t'.lookup u = t.lookup u)
    (ha : t'.answers u = t.answers u) (hts : ts' = ts) : Stands t' ts' u c k := by
  subst hts
  cases k with
  | ask | look | assign | call => simpa only [Stands, hl, ha] using h

omit [DecidableEq Id] in
theorem stands_gettindex {ts : TsdT} (h : Asks u t t') :
    Stands t' ts u .pre (gettindex t' u) := by
  unfold gettindex
  cases hl : t'.lookup u with
  | some i => exact ⟨rfl, hl⟩
  | none =>
    refine ⟨rfl, hl, ?_⟩
    rw [List.getLastD_eq_getLast?, List.getLast?_eq_some_getLast (h.answered hl), Option.getD_some]
    exact List.getLast_mem _

theorem Steps.other (h : Steps u c x k x' k') (hv : v ≠ u) :
    x'.threads.lookup v = x.threads.lookup v ∧ x'.threads.answers v = x.threads.answers v ∧
      x'.ring.tsd (us v) = x.ring.tsd (us v) := by
  have hne : us v ≠ us u := fun he ↦ hv (us.injective he)
  cases h with
  | asks _ ht =>
    obtain ⟨hl, ha⟩ := (asks_call ht).other v hv
    exact ⟨hl, ha, rfl⟩
  | looks ht =>
    obtain ⟨hl, ha⟩ := (asks_look ht).other v hv
    exact ⟨hl, ha, rfl⟩
  | assigns => exact ⟨rfl, rfl, Function.update_of_ne hne _ _⟩
  | known | calls | back => exact ⟨rfl, rfl, rfl⟩

theorem Steps.stands (h : Steps u c x k x' k')
    (hs : Stands x.threads (x.ring.tsd (us u)) u c k) :
    match k' with
    | some k' => Stands x'.threads (x'.ring.tsd (us u)) u c k'
    | none => x'.threads.lookup u = none := by
  cases h with
  | asks _ ht =>
    obtain ⟨rfl, -⟩ := hs
    exact stands_gettindex (asks_call ht)
  | known honce => exact ⟨hs.2, fun _ _ ↦ honce⟩
  | looks ht =>
    obtain ⟨rfl, -⟩ := hs
    exact stands_gettindex (asks_look ht)
  | assigns => exact ⟨hs.2.1, fun _ h ↦ absurd h Nat.one_ne_zero⟩
  | calls => exact ⟨hs.1, fun _ h ↦ absurd h (Nat.succ_ne_zero _)⟩
  | back => exact hs.1

end Inside

section Invariant

variable {s s' : State opt Id} {u : WorkerId opt}

/-- A worker that is in a callback stands where it can be in it, and outside it asks nothing. -/
structure Asked (s : State opt Id) : Prop where
  placed : Loaded.Placed s
  stands : ∀ u c k, (s.harness.worker u).pc.callback = some c → s.place u = some k →
    Stands s.shared.threads (s.shared.ring.tsd (us u)) u c k
  idle : ∀ u, s.place u = none → s.shared.threads.lookup u = none

omit [DecidableEq Id] in
theorem Asked.move {j : Option Place} (h : Asked s) (hplaced : Loaded.Placed s')
    (hworker : ∀ v ≠ u, s'.harness.worker v = s.harness.worker v)
    (hplace : s'.place = Function.update s.place u j)
    (hother : ∀ v ≠ u, s'.shared.threads.lookup v = s.shared.threads.lookup v ∧
      s'.shared.threads.answers v = s.shared.threads.answers v ∧
        s'.shared.ring.tsd (us v) = s.shared.ring.tsd (us v))
    (hself : match j with
      | some k => ∀ c, (s'.harness.worker u).pc.callback = some c →
        Stands s'.shared.threads (s'.shared.ring.tsd (us u)) u c k
      | none => s'.shared.threads.lookup u = none) : Asked s' where
  placed := hplaced
  stands v c k hc hk := by
    rw [hplace] at hk
    by_cases hv : v = u
    · subst hv
      rw [Function.update_self] at hk
      subst hk
      exact hself c hc
    · rw [Function.update_of_ne hv] at hk
      rw [hworker v hv] at hc
      obtain ⟨hl, ha, ht⟩ := hother v hv
      exact stands_same (h.stands v c k hc hk) hl ha ht
  idle v hk := by
    rw [hplace] at hk
    by_cases hv : v = u
    · subst hv
      rw [Function.update_self] at hk
      subst hk
      exact hself
    · rw [Function.update_of_ne hv] at hk
      exact (hother v hv).1.trans (h.idle v hk)

theorem Asked.worker {a : Harness.Act (WorkerId opt)} (h : Asked s)
    (hstep : Loaded.step opt (callbacks opt Id) s a = some s') : Asked s' := by
  have hsteps := Loaded.step_cases hstep
  have hplaced := hsteps.placed h.placed
  cases hsteps with
  | @spurious u h' hst =>
    rcases Harness.step_cases hst with ⟨u', now, b, w, he, -⟩ | ⟨u', -, -, rfl⟩
    · cases he
    · exact ⟨hplaced, h.stands, h.idle⟩
  | @outside u now h' hc hst =>
    have hnone : s.place u = none := by
      by_contra hne
      exact h.placed u hne hc
    refine h.move (j := none) hplaced (Loaded.run_worker hst).1 ?_ (fun v _ ↦ ⟨rfl, rfl, rfl⟩)
      (h.idle u hnone)
    rw [← hnone, Function.update_eq_self]
  | @enter u now c hc hplace =>
    refine h.move hplaced (fun v _ ↦ rfl) rfl (fun v _ ↦ ⟨rfl, rfl, rfl⟩) fun c' hc' ↦ ?_
    obtain rfl : c = c' := Option.some.inj (hc.symm.trans hc')
    have hidle := h.idle u hplace
    simp only [callbacks]
    split_ifs with hpre
    · exact ⟨hpre, hidle⟩
    · exact ⟨hidle, fun hc _ ↦ absurd hc hpre⟩
  | @inside u now c k k' x hc hplace hcb =>
    have hcalls := callbacks_cases hcb
    refine h.move hplaced (fun v _ ↦ rfl) rfl (fun v hv ↦ hcalls.other hv) fun c' hc' ↦ ?_
    obtain rfl : c = c' := Option.some.inj (hc.symm.trans hc')
    exact hcalls.stands (h.stands u c k hc hplace)
  | @back u now c k x h' hc hplace hcb hst =>
    have hcalls := callbacks_cases hcb
    exact h.move hplaced (Loaded.run_worker hst).1 rfl (fun v hv ↦ hcalls.other hv)
      (hcalls.stands (h.stands u c k hc hplace))

def Creator.left (T : ℕ) : Threads.Creator → ℕ
  | .unborn => 4 * (T - 1) + 2
  | .creating i => 4 * (T - i) + 1
  | .inCreate i stored started =>
    4 * (T - i - 1) + 2 + (if stored then 0 else 1) + if started then 0 else 1
  | .running => 0

structure Starts (t t' : Threads.State Id opt.lmOptP opt.lmOptT) : Prop where
  lookup : t'.lookup = t.lookup
  answers : t'.answers = t.answers
  creator : ∃ p c, t'.creator = Function.update t.creator p c ∧
    Creator.left opt.lmOptT c < Creator.left opt.lmOptT (t.creator p)

theorem main_starts {t t' : Threads.State Id opt.lmOptP opt.lmOptT}
    {a : Threads.Act Id opt.lmOptP opt.lmOptT} (ha : ofMain a)
    (h : Threads.step t a = some t') : Starts t t' := by
  cases a with
  | call | look => cases ha
  | fork p id =>
    simp only [Threads.step] at h
    split at h <;> cases h
    rename_i hc
    exact ⟨rfl, rfl, p, _, rfl, by rw [hc]; simp only [Creator.left]; omega⟩
  | create p id =>
    simp only [Threads.step] at h
    split at h
    · split_ifs at h with hi
      cases h
      rename_i hc
      refine ⟨rfl, rfl, p, _, rfl, ?_⟩
      rw [hc]
      simp only [Creator.left, Bool.false_eq_true, if_false]
      omega
    all_goals cases h
  | store p =>
    simp only [Threads.step] at h
    split at h
    · split_ifs at h
      obtain ⟨id, -, rfl⟩ := Option.map_eq_some_iff.mp h
      rename_i hc _ _
      exact ⟨rfl, rfl, p, _, rfl, by rw [hc]; simp [Creator.left]⟩
    · cases h
  | start p =>
    simp only [Threads.step] at h
    split at h <;> cases h
    rename_i hc
    exact ⟨rfl, rfl, p, _, rfl, by rw [hc]; simp [Creator.left]⟩
  | next p =>
    simp only [Threads.step] at h
    split at h
    · cases h
      rename_i hc
      refine ⟨rfl, rfl, p, _, rfl, ?_⟩
      rw [hc]
      simp only [Creator.left, if_true]
      omega
    · split_ifs at h
      cases h
      rename_i hc _
      exact ⟨rfl, rfl, p, _, rfl, by rw [hc]; simp [Creator.left]⟩
    all_goals cases h

/-- A step is one of a worker that runs, or one of a main thread. -/
theorem step_cases {a : Act opt Id} (h : step s a = some s') :
    (∃ b, a = .harness b ∧ Loaded.step opt (callbacks opt Id) s b = some s' ∧
      ∀ u now, b = .run u now → s.shared.threads.Runs u) ∨
    ∃ b t, a = .main b ∧ ofMain b ∧ Threads.step s.shared.threads b = some t ∧
      s' = { s with shared := { s.shared with threads := t } } := by
  cases a with
  | harness b =>
    left
    cases b with
    | run u now =>
      obtain ⟨hr, h⟩ := Option.ite_none_right_eq_some.mp h
      exact ⟨_, rfl, h, fun v now' he ↦ by cases he; exact hr⟩
    | spurious u => exact ⟨_, rfl, h, fun v now he ↦ by cases he⟩
  | main b =>
    right
    obtain ⟨hb, h⟩ := Option.ite_none_right_eq_some.mp h
    obtain ⟨t, ht, rfl⟩ := Option.map_eq_some_iff.mp h
    exact ⟨b, t, rfl, hb, ht, rfl⟩

theorem Asked.step {a : Act opt Id} (h : Asked s) (hstep : step s a = some s') : Asked s' := by
  rcases step_cases hstep with ⟨b, -, hstep, -⟩ | ⟨b, t, -, hb, ht, rfl⟩
  · exact h.worker hstep
  · obtain ⟨hl, ha, -⟩ := main_starts hb ht
    exact ⟨h.placed, fun u c k hc hk ↦ stands_same (h.stands u c k hc hk) (congrFun hl u)
      (congrFun ha u) rfl, fun u hu ↦ (congrFun hl u).trans (h.idle u hu)⟩

theorem reachable_asked (hs : (system opt Id).Reachable s) : Asked s := by
  refine hs.invariant ?_ fun s a s' _ h hstep ↦ h.step hstep
  rintro _ ⟨starttime, tids, rfl⟩
  exact ⟨Loaded.placed_start _ _, fun u c k _ hk ↦ (by cases hk), fun u _ ↦ rfl⟩

theorem worker_threads {b : Harness.Act (WorkerId opt)}
    (h : Loaded.step opt (callbacks opt Id) s b = some s') :
    s'.shared.threads = s.shared.threads ∨ ∃ u now, b = .run u now ∧
      (Threads.step s.shared.threads (.call u) = some s'.shared.threads ∨
        Threads.step s.shared.threads (.look u) = some s'.shared.threads) := by
  cases Loaded.step_cases h with
  | spurious | outside | enter => exact .inl rfl
  | @inside u now c k k' x hc hplace hcb =>
    cases callbacks_cases hcb with
    | asks _ ht => exact .inr ⟨u, now, rfl, .inl ht⟩
    | looks ht => exact .inr ⟨u, now, rfl, .inr ht⟩
    | known | assigns | calls => exact .inl rfl
  | @back u now c k x h' hc hplace hcb hst =>
    cases callbacks_cases hcb with
    | back => exact .inl rfl

theorem reachable_ok (hT : 1 ≤ opt.lmOptT) (hs : (system opt Id).ReachableBy Filled s) :
    Threads.Ok s.shared.threads := by
  refine hs.invariant (I := fun s : State opt Id ↦ Threads.Ok s.shared.threads) ?_ ?_
  · rintro _ ⟨starttime, tids, rfl⟩
    exact Threads.start_ok tids
  · intro s a s' _ hok hg hstep
    rcases step_cases hstep with ⟨b, rfl, hstep, -⟩ | ⟨b, t, rfl, hb, ht, rfl⟩
    · rcases worker_threads hstep with he | ⟨u, now, rfl, ht | ht⟩
      · exact he ▸ hok
      · exact hok.call ht
      · exact hok.look hg ht
    · refine hok.step hT ?_ ht
      cases b with
      | call | look => cases hb
      | fork | create | store | start | next => trivial

end Invariant

section Simulation

variable {s s' : State opt Id} {u : WorkerId opt} {x x' : Shared opt Id} {c : Callback} {n : ℕ}
  {k : Place} {k' : Option Place}

def Place.calls : Place → ℕ
  | .ask | .look _ | .assign _ => 0
  | .call k => k

/-- The ring with workers that have known their indices from the beginning. -/
def ring (s : State opt Id) : Loaded.State (WorkerId opt) (Run.Shared (nthreads opt)) ℕ :=
  ⟨s.harness, s.shared.ring, fun u ↦ (s.place u).map Place.calls⟩

omit [DecidableEq Id] in
theorem gettindex_calls (t : Threads.State Id opt.lmOptP opt.lmOptT) (u : WorkerId opt) :
    (gettindex t u).calls = 0 := by
  unfold gettindex
  cases t.lookup u <;> rfl

theorem us_own (u : WorkerId opt) : (Threads.us u (u.2.val : ℤ)).toNat = (us u).val := by
  have h : Threads.us u (u.2.val : ℤ) = ((us u).val : ℤ) := by
    simp only [Threads.us, us, finProdFinEquiv_apply_val]
    push_cast
    rw [add_comm, mul_comm]
  rw [h, Int.toNat_natCast]

theorem assignLocks_once {N i : ℕ} {ts : TsdT} (h : ts.tsOnce ≠ 0) : assignLocks N i ts = ts := by
  rw [assignLocks, assignLocksAt, if_neg h]

omit [DecidableEq Id] in
theorem ready_call {t : Threads.State Id opt.lmOptP opt.lmOptT} {ts : TsdT} {k : ℕ} {call : Call}
    (hs : Stands t ts u c (.call k)) (hcall : (scriptOf c)[k]? = some call) :
    (if c = .pre then assignLocks (nthreads opt) (us u) ts else ts) = ts := by
  split_ifs with hc
  · subst hc
    have hk := (List.getElem?_eq_some_iff.mp hcall).1
    obtain rfl : k = 0 := by simpa [scriptOf] using hk
    exact assignLocks_once (hs.2 rfl rfl)
  · rfl

/-- With the right indices the callbacks are those of the ring, with some steps before the first. -/
theorem Steps.ring (h : Steps u c x k x' k') (hs : Stands x.threads (x.ring.tsd (us u)) u c k)
    (hindex : ∀ a ∈ x.threads.answers u, a = (u.2.val : ℤ)) :
    (x'.ring = x.ring ∧ ∃ j, k' = some j ∧ j.calls = k.calls) ∨
      (Run.callbacks opt).step u c n x.ring k.calls = some (x'.ring, k'.map Place.calls) := by
  cases h with
  | asks => exact .inl ⟨rfl, _, rfl, gettindex_calls _ _⟩
  | known => exact .inl ⟨rfl, _, rfl, rfl⟩
  | looks => exact .inl ⟨rfl, _, rfl, gettindex_calls _ _⟩
  | @assigns tindex locks hlocks =>
    right
    obtain ⟨rfl, -, hmem⟩ := hs
    rw [hindex tindex hmem, us_own] at hlocks ⊢
    simp only [Run.callbacks, scriptOf, Place.calls, List.getElem?_cons_zero, if_true, hlocks,
      Option.map_some, Nat.zero_add]
  | @calls k call locks hcall hlocks =>
    right
    simp only [Run.callbacks, Place.calls, hcall, ready_call hs hcall, hlocks, Option.map_some,
      Function.update_eq_self]
  | back hcall =>
    right
    simp only [Run.callbacks, Place.calls, hcall, Option.map_none]

theorem ring_worker {b : Harness.Act (WorkerId opt)} (h : Asked s)
    (hindex : ∀ u, ∀ a ∈ s.shared.threads.answers u, a = (u.2.val : ℤ))
    (hstep : Loaded.step opt (callbacks opt Id) s b = some s') :
    ring s' = ring s ∨ Loaded.step opt (Run.callbacks opt) (ring s) b = some (ring s') := by
  have hmap (u : WorkerId opt) (k : Option Place) :
      (fun v ↦ (Function.update s.place u k v).map Place.calls) =
        Function.update (ring s).place u (k.map Place.calls) := by
    funext v
    by_cases hv : v = u
    · subst hv
      simp
    · simp [hv, ring]
  cases Loaded.step_cases hstep with
  | spurious hst => exact .inr (Loaded.Steps.spurious (s := ring s) hst).step_eq
  | outside hc hst => exact .inr (Loaded.Steps.outside (s := ring s) hc hst).step_eq
  | @enter u now c hc hplace =>
    right
    have hnone : (ring s).place u = none := by simp only [ring, hplace, Option.map_none]
    have hentry : ((callbacks opt Id).entry c).calls = (Run.callbacks opt).entry c := by
      cases c <;> rfl
    refine (Loaded.Steps.enter (s := ring s) hc hnone).step_eq.trans (congrArg some ?_)
    rw [← hentry, ← Option.map_some, ← hmap]
    rfl
  | @inside u now c k k' x hc hplace hcb =>
    have hsome : (ring s).place u = some k.calls := by simp only [ring, hplace, Option.map_some]
    rcases (callbacks_cases hcb).ring (h.stands u c k hc hplace) (hindex u) with
      ⟨hx, j, hj, hcalls⟩ | hold
    · left
      obtain rfl : k' = j := Option.some.inj hj
      refine congrArg₂ (Loaded.State.mk _) hx ?_
      rw [hmap, Option.map_some, hcalls, ← hsome, Function.update_eq_self]
      rfl
    · right
      refine (Loaded.Steps.inside (s := ring s) hc hsome hold).step_eq.trans (congrArg some ?_)
      exact congrArg (Loaded.State.mk _ _) (hmap u (some k')).symm
  | @back u now c k x h' hc hplace hcb hst =>
    have hsome : (ring s).place u = some k.calls := by simp only [ring, hplace, Option.map_some]
    rcases (callbacks_cases hcb).ring (h.stands u c k hc hplace) (hindex u) with
      ⟨-, j, hj, -⟩ | hold
    · cases hj
    · right
      refine (Loaded.Steps.back (s := ring s) hc hsome hold hst).step_eq.trans (congrArg some ?_)
      exact congrArg (Loaded.State.mk _ _) (hmap u none).symm

theorem reachable_ring (hT : 1 ≤ opt.lmOptT) (hs : (system opt Id).ReachableBy Filled s) :
    (Run.system opt).Reachable (ring s) := by
  refine hs.invariant (I := fun s : State opt Id ↦ (Run.system opt).Reachable (ring s)) ?_ ?_
  · rintro _ ⟨starttime, tids, rfl⟩
    exact .start ⟨starttime, _, rfl, rfl⟩
  · intro s a s' hs hr _ hstep
    rcases step_cases hstep with ⟨b, -, hstep, -⟩ | ⟨b, t, -, -, -, rfl⟩
    · rcases ring_worker (reachable_asked hs.reachable) (reachable_ok hT hs).answers hstep with
        he | hold
      · exact he ▸ hr
      · exact hr.next hold
    · exact hr

end Simulation

section Progress

variable {s : State opt Id} {u : WorkerId opt} {x : Shared opt Id} {c : Callback} {n : ℕ}
  {k : Place}

/-- Where the ring lets a worker go on, it goes on. -/
theorem callbacks_goes (hok : Threads.Ok x.threads) (hr : x.threads.Runs u)
    (hs : Stands x.threads (x.ring.tsd (us u)) u c k)
    (hold : (Run.callbacks opt).step u c n x.ring k.calls ≠ none) :
    (callbacks opt Id).step u c n x k ≠ none := by
  obtain ⟨tids, htids, -⟩ := (hok.process u.1).tids
  cases k with
  | ask =>
    simp only [callbacks, Threads.step, htids, hs.2, hr, true_and, if_true]
    split_ifs <;> simp
  | look i =>
    simp only [callbacks, Threads.step, htids, hs.2]
    split_ifs <;> simp
  | assign tindex =>
    obtain ⟨rfl, -, hmem⟩ := hs
    simp only [callbacks, hok.answers u tindex hmem, us_own]
    simpa [Run.callbacks, scriptOf, Place.calls] using hold
  | call k =>
    simp only [callbacks]
    cases hcall : (scriptOf c)[k]? with
    | none => simp
    | some call =>
      simp only [Run.callbacks, Place.calls, hcall, ready_call hs hcall] at hold
      simpa using hold

/-- A worker that can go on in the ring can go on. -/
theorem worker_goes {now : BitVec 64} {t : Loaded.State (WorkerId opt) (Run.Shared (nthreads opt)) ℕ}
    (hok : Threads.Ok s.shared.threads) (h : Asked s) (hr : s.shared.threads.Runs u)
    (hold : Loaded.step opt (Run.callbacks opt) (ring s) (.run u now) = some t) :
    ∃ s', Loaded.step opt (callbacks opt Id) s (.run u now) = some s' := by
  cases hc : (s.harness.worker u).pc.callback with
  | none =>
    cases Loaded.step_cases hold with
    | outside _ hst => exact ⟨_, (Loaded.Steps.outside hc hst).step_eq⟩
    | enter hc' | inside hc' | back hc' => exact absurd (hc.symm.trans hc') (by simp)
  | some c =>
    cases hplace : s.place u with
    | none => exact ⟨_, (Loaded.Steps.enter hc hplace).step_eq⟩
    | some k =>
      have hsome : (ring s).place u = some k.calls := by simp only [ring, hplace, Option.map_some]
      have hgo : (callbacks opt Id).step u c (s.harness.worker u).rounds s.shared k ≠ none := by
        refine callbacks_goes hok hr (h.stands u c k hc hplace) fun hnone ↦ ?_
        have hc' : ((ring s).harness.worker u).pc.callback = some c := hc
        simp only [Loaded.step, hc', hsome] at hold
        simp only [ring] at hold
        rw [hnone] at hold
        cases hold
      obtain ⟨⟨x, k'⟩, hcb⟩ := Option.ne_none_iff_exists'.mp hgo
      cases k' with
      | some k' => exact ⟨_, (Loaded.Steps.inside hc hplace hcb).step_eq⟩
      | none =>
        obtain ⟨p, hp⟩ : ∃ p, workerStep opt s.harness.bar u now (s.harness.worker u) = some p :=
          callback_enabled hc
        have hst : ∃ h', Harness.step opt s.harness (.run u now) = some h' :=
          ⟨_, by simp only [Harness.step, hp, Option.map_some]; rfl⟩
        obtain ⟨h', hst⟩ := hst
        exact ⟨_, (Loaded.Steps.back hc hplace hcb hst).step_eq⟩

/-- `pthread_create` has an id for each thread of a process. -/
def Ample (Id : Type) (T : ℕ) : Prop := ∀ used : Finset Id, used.card < T → ∃ id, id ∉ used

theorem exists_fresh {t : Threads.State Id opt.lmOptP opt.lmOptT} {p : Fin opt.lmOptP} {i : ℕ}
    (hids : Ample Id opt.lmOptT) (hok : Threads.Ok t) (hp : t.creator p = .creating i)
    (hi : i < opt.lmOptT) : ∃ id, ∀ j, t.pthreadSelf (p, j) ≠ some id := by
  -- the new thread has none yet
  have hnone : t.pthreadSelf (p, ⟨i, hi⟩) = none := by
    have hborn := (hok.process p).born ⟨i, hi⟩
    rw [hp] at hborn
    exact Option.not_isSome_iff_eq_none.mp (hborn.not.mpr (lt_irrefl i))
  have hcard : ((Finset.univ.erase ⟨i, hi⟩).biUnion
      fun j ↦ (t.pthreadSelf (p, j)).toFinset).card < opt.lmOptT := by
    refine (Finset.card_biUnion_le_card_mul _ _ 1 fun j _ ↦ ?_).trans_lt ?_
    · cases t.pthreadSelf (p, j) <;> simp
    · rw [Finset.card_erase_of_mem (Finset.mem_univ _), Finset.card_univ, Fintype.card_fin]
      omega
  obtain ⟨id, hid⟩ := hids _ hcard
  refine ⟨id, fun j hj ↦ hid (Finset.mem_biUnion.mpr ⟨j, ?_, by simp [hj]⟩)⟩
  refine Finset.mem_erase.mpr ⟨fun he ↦ ?_, Finset.mem_univ j⟩
  rw [he, hnone] at hj
  cases hj

/-- A process that has not started all its threads goes on. -/
theorem main_goes {p : Fin opt.lmOptP} (hids : Ample Id opt.lmOptT)
    (hok : Threads.Ok s.shared.threads) (hT : 1 ≤ opt.lmOptT)
    (hp : s.shared.threads.creator p ≠ .running) :
    ∃ a, ofMain a ∧ Threads.step s.shared.threads a ≠ none := by
  obtain ⟨tids, htids, -⟩ := (hok.process p).tids
  have hbounded := (hok.process p).bounded
  have hborn := (hok.process p).born
  cases hc : s.shared.threads.creator p with
  | running => exact absurd hc hp
  | unborn =>
    obtain ⟨id, -⟩ := hids ∅ hT
    exact ⟨.fork p id, rfl, by simp [Threads.step, hc]⟩
  | creating i =>
    by_cases hi : i < opt.lmOptT
    · obtain ⟨id, hid⟩ := exists_fresh hids hok hc hi
      exact ⟨.create p id, rfl, by simp [Threads.step, hc, hi, hid]⟩
    · exact ⟨.next p, rfl, by simp [Threads.step, hc, hi]⟩
  | inCreate i stored started =>
    rw [hc] at hbounded hborn
    cases stored with
    | false =>
      have hi : (s.shared.threads.pthreadSelf (p, ⟨i, hbounded.2⟩)).isSome :=
        (hborn ⟨i, hbounded.2⟩).mpr (Nat.lt_succ_self i)
      obtain ⟨id, hid⟩ := Option.isSome_iff_exists.mp hi
      exact ⟨.store p, rfl, by simp [Threads.step, hc, htids, hbounded.2, hid]⟩
    | true =>
      cases started with
      | false => exact ⟨.start p, rfl, by simp [Threads.step, hc]⟩
      | true => exact ⟨.next p, rfl, by simp [Threads.step, hc]⟩

omit [DecidableEq Id] in
theorem runs_of_running {t : Threads.State Id opt.lmOptP opt.lmOptT}
    (h : t.creator u.1 = .running) : t.Runs u := by
  simp only [Threads.State.Runs, h]

omit [DecidableEq Id] in
/-- Once all ids have been stored, every thread finds its own. -/
theorem filled_of_running {now : BitVec 64} (hok : Threads.Ok s.shared.threads)
    (h : s.shared.threads.creator u.1 = .running) : Filled s (.harness (.run u now)) := by
  intro hl
  obtain ⟨tids, htids, hids⟩ := (hok.process u.1).tids
  obtain ⟨-, hone, -⟩ := hok.lookup u _ hl
  have hown := hids u.2 hone (by simp [h, Threads.Creator.filled])
  rw [htids]
  exact hown

/-- All have left, or a worker or a main thread can go on, and finds its id where it looks for it. -/
theorem never_stuck [Nonempty (WorkerId opt)] (hids : Ample Id opt.lmOptT) (hT : 1 ≤ opt.lmOptT)
    (hs : (system opt Id).ReachableBy Filled s) :
    (∀ u, (s.harness.worker u).pc.left) ∨
      (system opt Id).Enabled (fun a ↦ a.isRun ∧ Filled s a) s := by
  have hok := reachable_ok hT hs
  by_cases hrunning : ∀ p, s.shared.threads.creator p = .running
  · refine (Run.never_stuck (reachable_ring hT hs)).imp_right ?_
    rintro ⟨a, t, ha, hold⟩
    cases a with
    | spurious u => cases ha
    | run u now =>
      have hr := runs_of_running (hrunning u.1)
      obtain ⟨s', hst⟩ := worker_goes hok (reachable_asked hs.reachable) hr hold
      exact ⟨.harness (.run u now), s', ⟨rfl, filled_of_running hok (hrunning u.1)⟩,
        (if_pos hr).trans hst⟩
  · right
    obtain ⟨p, hp⟩ := not_forall.mp hrunning
    obtain ⟨a, ha, hst⟩ := main_goes hids hok hT hp
    obtain ⟨t, ht⟩ := Option.ne_none_iff_exists'.mp hst
    exact ⟨.main a, _, ⟨rfl, trivial⟩, by
      simp only [system, step, ha, ht, if_true, Option.map_some]
      rfl⟩

end Progress

section Bound

variable {s s' : State opt Id} {u : WorkerId opt}

def Place.left (T : ℕ) : Place → ℕ
  | .ask => T + 12
  | .look i => 12 + (T - i)
  | .assign _ => 11
  | .call k => 11 - k

theorem Place.left_le (T : ℕ) (k : Place) : k.left T ≤ T + 12 := by
  cases k <;> simp only [Place.left] <;> omega

omit [DecidableEq Id] in
theorem gettindex_left {t t' : Threads.State Id opt.lmOptP opt.lmOptT} (h : Asks u t t') :
    (gettindex t' u).left opt.lmOptT < 12 + (opt.lmOptT - (t.lookup u).getD 0) := by
  unfold gettindex
  cases hl : t'.lookup u with
  | none =>
    simp only [Place.left]
    omega
  | some i =>
    obtain ⟨hi, hle⟩ := h.goes i hl
    simp only [Place.left]
    omega

theorem Steps.left {x x' : Shared opt Id} {c : Callback} {k k' : Place}
    (h : Steps u c x k x' (some k')) (hs : Stands x.threads (x.ring.tsd (us u)) u c k) :
    k'.left opt.lmOptT < k.left opt.lmOptT := by
  cases h with
  | asks _ ht =>
    have hlt := gettindex_left (asks_call ht)
    rw [hs.2, Option.getD_none] at hlt
    exact hlt.trans_eq (Nat.add_comm _ _)
  | known =>
    simp only [Place.left]
    omega
  | looks ht =>
    have hlt := gettindex_left (asks_look ht)
    rw [hs.2, Option.getD_some] at hlt
    exact hlt
  | assigns =>
    simp only [Place.left]
    omega
  | @calls k call locks hcall =>
    have hk := (List.getElem?_eq_some_iff.mp hcall).1
    have hle : (scriptOf c).length ≤ 11 := by cases c <;> decide
    simp only [Place.left]
    omega

def measure (M : ℕ) (s : State opt Id) : ℕ :=
  Loaded.measure (Place.left opt.lmOptT) (opt.lmOptT + 12) M s +
    ∑ p, Creator.left opt.lmOptT (s.shared.threads.creator p)

theorem worker_creator {b : Harness.Act (WorkerId opt)}
    (h : Loaded.step opt (callbacks opt Id) s b = some s') :
    s'.shared.threads.creator = s.shared.threads.creator := by
  rcases worker_threads h with he | ⟨u, now, -, ht | ht⟩
  · rw [he]
  · exact (asks_call ht).creator
  · exact (asks_look ht).creator

omit [DecidableEq Id] in
theorem Starts.sum_left {t t' : Threads.State Id opt.lmOptP opt.lmOptT} (h : Starts t t') :
    ∑ p, Creator.left opt.lmOptT (t'.creator p) < ∑ p, Creator.left opt.lmOptT (t.creator p) := by
  obtain ⟨p, c, hc, hlt⟩ := h.creator
  have hsum := sum_move (Finset.mem_univ p)
    (f := fun q ↦ Creator.left opt.lmOptT (t.creator q))
    (g := fun q ↦ Creator.left opt.lmOptT (t'.creator q))
    fun q hq ↦ by rw [hc, Function.update_of_ne hq]
  simp only [hc, Function.update_self] at hsum ⊢
  omega

omit [DecidableEq Id] in
theorem sum_left_le (t : Threads.State Id opt.lmOptP opt.lmOptT) (hT : 1 ≤ opt.lmOptT) :
    ∑ p, Creator.left opt.lmOptT (t.creator p) ≤ opt.lmOptP * (4 * opt.lmOptT + 1) := by
  have hle (p : Fin opt.lmOptP) :
      Creator.left opt.lmOptT (t.creator p) ≤ 4 * opt.lmOptT + 1 := by
    cases t.creator p <;> simp only [Creator.left]
    case inCreate => split_ifs <;> omega
    all_goals omega
  have h := Finset.sum_le_card_nsmul Finset.univ _ _ fun p _ ↦ hle p
  rwa [Finset.card_univ, Fintype.card_fin, smul_eq_mul] at h

theorem reachable_harness (hs : (system opt Id).Reachable s) :
    (Harness.system opt).Reachable s.harness := by
  refine hs.invariant (I := fun s : State opt Id ↦ (Harness.system opt).Reachable s.harness) ?_ ?_
  · rintro _ ⟨starttime, tids, rfl⟩
    exact .start ⟨starttime, rfl⟩
  · intro s a s' _ hr hstep
    rcases step_cases hstep with ⟨b, -, hstep, -⟩ | ⟨b, t, -, -, -, rfl⟩
    · rcases (Loaded.step_cases hstep).harness with he | hst
      · exact he ▸ hr
      · exact hr.next hst
    · exact hr

/-- Each step of a worker or a main thread lowers the measure, and a spurious wakeup raises it by
what leads back to the test of the phase. -/
theorem measure_step [Nonempty (WorkerId opt)] {M : ℕ} {a : Act opt Id}
    (ht : (targetSamples opt).toNat = M * Fintype.card (WorkerId opt))
    (hs : (system opt Id).Reachable s) (hstep : step s a = some s') :
    if a.isRun then measure M s' < measure M s
    else measure M s' ≤ measure M s + 2 * (opt.lmOptT + 14) := by
  have hasked := reachable_asked hs
  rcases step_cases hstep with ⟨b, rfl, hstep, -⟩ | ⟨b, t, rfl, hb, ht', rfl⟩
  · have hcreator := worker_creator hstep
    cases b with
    | run u now =>
      have hlt := Loaded.measure_run ht (Place.left_le opt.lmOptT)
        (fun c k x k' hc hk h ↦ (callbacks_cases h).left (hasked.stands u c k hc hk))
        (reachable_harness hs) hstep
      simp only [Act.isRun, Harness.Act.isRun, if_true, measure, hcreator]
      exact Nat.add_lt_add_right hlt _
    | spurious u =>
      have hle := Loaded.measure_spurious (m := Place.left opt.lmOptT) (B := opt.lmOptT + 12)
        (M := M) hstep
      simp only [Act.isRun, Harness.Act.isRun, Bool.false_eq_true, if_false, measure, hcreator]
      omega
  · have hlt := (main_starts hb ht').sum_left
    simp only [Act.isRun, if_true, measure]
    exact Nat.add_lt_add_left hlt _

theorem run_length_le [Nonempty (WorkerId opt)] {M : ℕ} {l : List (Act opt Id)}
    (ht : (targetSamples opt).toNat = M * Fintype.card (WorkerId opt)) (hT : 1 ≤ opt.lmOptT)
    (hs : (system opt Id).Reachable s) (h : (system opt Id).Run s l s') :
    l.countP Act.isRun ≤
      Fintype.card (WorkerId opt) * ((opt.lmOptT + 14) * (28 * (M + 2)) + (opt.lmOptT + 13)) +
        opt.lmOptP * (4 * opt.lmOptT + 1) +
          2 * (opt.lmOptT + 14) * l.countP (fun a ↦ !Act.isRun a) := by
  have hcount := System.Run.countP_le (I := (system opt Id).Reachable) (p := Act.isRun)
    (measure M) (2 * (opt.lmOptT + 14))
    (fun s a s' hs hstep ↦ ⟨hs.next hstep, measure_step ht hs hstep⟩) h hs
  have hle : Loaded.measure (Place.left opt.lmOptT) (opt.lmOptT + 12) M s ≤
      Fintype.card (WorkerId opt) * ((opt.lmOptT + 14) * (28 * (M + 2)) + (opt.lmOptT + 13)) :=
    Loaded.measure_le (Place.left_le opt.lmOptT) s
  have hsum := sum_left_le s.shared.threads hT
  have hmeasure : measure M s = Loaded.measure (Place.left opt.lmOptT) (opt.lmOptT + 12) M s +
    ∑ p, Creator.left opt.lmOptT (s.shared.threads.creator p) := rfl
  omega

end Bound

/-- As long as every thread finds its id in its own entry of `tids`, the barriers of the harness
and the mutexes of the ring do not block one another. -/
theorem cascade_run (opt : Options) (hP : 1 ≤ opt.lmOptP) (hT : 1 ≤ opt.lmOptT)
    (hids : Ample Id opt.lmOptT) :
    (∀ s, (system opt Id).ReachableBy Filled s →
      (∃ t, (Cascade.system Cascade.benchmark (nthreads opt)).Reachable t ∧
        t.locks = s.shared.ring.locks ∧ t.tsd = s.shared.ring.tsd ∧
        ∀ u, t.round (us u) =
            roundAt ⟨(s.harness.worker u).calls, (s.place u).map Place.calls⟩ ∧
          t.pos (us u) = posAt ⟨(s.harness.worker u).calls, (s.place u).map Place.calls⟩) ∧
      ((∀ u, (s.harness.worker u).pc.left) ∨
        (system opt Id).Enabled (fun a ↦ a.isRun ∧ Filled s a) s) ∧
      ((∀ u, (s.harness.worker u).pc.left) → ∀ i, s.shared.ring.locks i = none)) ∧
    (opt.lmOptC.toNat * opt.workers < 2 ^ 32 →
      ∀ s l s', (system opt Id).Reachable s → (system opt Id).Run s l s' →
        l.countP Act.isRun ≤
          opt.workers * ((opt.lmOptT + 14) * (28 * (opt.lmOptC.toNat + 2)) + (opt.lmOptT + 13)) +
            opt.lmOptP * (4 * opt.lmOptT + 1) +
              2 * (opt.lmOptT + 14) * l.countP (fun a ↦ !Act.isRun a)) := by
  have : Nonempty (WorkerId opt) := ⟨⟨0, hP⟩, ⟨0, hT⟩⟩
  have hcard : Fintype.card (WorkerId opt) = opt.workers := by
    simp [Fintype.card_prod, Options.workers]
  refine ⟨fun s hs ↦ ⟨?_, never_stuck hids hT hs, fun hleft ↦ ?_⟩, fun hC s l s' hs hrun ↦ ?_⟩
  · obtain ⟨t, ht, hf⟩ := exists_cascade (reachable_ring hT hs)
    exact ⟨t, ht, hf.locks, hf.tsd, hf.at⟩
  · exact free_of_left (reachable_ring hT hs) hleft
  · have htarget := (targetSamples_toNat opt).trans (Nat.mod_eq_of_lt hC)
    rw [← hcard] at htarget ⊢
    exact run_length_le htarget hT hs hrun

/-- Two processes of two threads, of which the second asks before its id has been stored. -/
abbrev fourOptions : Options := ⟨0, 1, 1, 2, 2, 0⟩

def starting (p : Fin 2) : List (Act fourOptions ℕ) :=
  [.main (.fork p 10), .main (.create p 11), .main (.start p)] ++
    List.replicate 4 (.harness (.run (p, Fin.last 1) 0)) ++
      [.main (.store p), .main (.next p), .main (.next p)]

def four (n : ℕ) : State fourOptions ℕ :=
  ((system fourOptions ℕ).under Filled).turns
    ⟨Harness.start fourOptions 0, ⟨mapped _, Threads.start fun _ ↦ 0⟩, fun _ ↦ none⟩
    ((List.finRange 2).flatMap starting ++ (Harness.inTurn fourOptions n).map .harness)

set_option maxRecDepth 10000 in
/-- In the middle of the first round, and at the end of the second. -/
theorem cascade_run_four :
    (((four 30).place (0, 0) = some (.call 3) ∧ (four 30).shared.ring.locks 1 = some 3) ∧
      (∃ t, (Cascade.system Cascade.benchmark 4).Reachable t ∧ t.locks 1 = some 3 ∧ t.pos 0 = 4) ∧
      (system fourOptions ℕ).Enabled (fun a ↦ a.isRun ∧ Filled (four 30) a) (four 30)) ∧
    (∀ u, ((four 180).harness.worker u).pc = .done ∧ ((four 180).harness.worker u).rounds = 2) ∧
      ∀ i, (four 180).shared.ring.locks i = none := by
  have hreach (n : ℕ) : (system fourOptions ℕ).ReachableBy Filled (four n) :=
    (System.turns_reachable (A := (system fourOptions ℕ).under Filled) ⟨0, _, rfl⟩ _).reachableBy
  have hids : Ample ℕ 2 := fun used _ ↦ Infinite.exists_notMem_finset used
  have hrun := (cascade_run fourOptions (by decide) (by decide) hids).1
  have hin : (four 30).place (0, 0) = some (.call 3) ∧ (four 30).shared.ring.locks 1 = some 3 ∧
      callbackAt ((four 30).harness.worker (0, 0)).calls = .benchmark := by decide +kernel
  have hend : ∀ u, ((four 180).harness.worker u).pc = .done ∧
      ((four 180).harness.worker u).rounds = 2 := by decide +kernel
  obtain ⟨⟨t, ht, hlocks, -, hat⟩, hgo, -⟩ := hrun _ (hreach 30)
  refine ⟨⟨⟨hin.1, hin.2.1⟩, ⟨t, ht, by rw [hlocks, hin.2.1], ?_⟩, ?_⟩, hend, ?_⟩
  · have hpos := (hat (0, 0)).2
    rw [hin.1] at hpos
    simp only [posAt, hin.2.2, Option.map_some, Option.getD_some, Place.calls] at hpos
    exact hpos
  · refine hgo.resolve_left fun hleft ↦ ?_
    have hnot : ¬ ((four 30).harness.worker (0, 0)).pc.left := by decide +kernel
    exact hnot (hleft (0, 0))
  · exact (hrun _ (hreach 180)).2.2 fun u ↦ by simp [(hend u).1, WorkerPc.left]

end LibMicro.Cascade.Indices
