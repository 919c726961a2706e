import Mathlib.Data.Fin.Basic
import Mathlib.Logic.Function.Basic
import LibMicro.TransitionSystem

namespace LibMicro.Processes.Threads

open TransitionSystem

/-- Where the main thread of a process is in `worker_process`. Inside
`pthread_create` the new id is stored and the new thread is started, in either
order. -/
inductive Creator
  | unborn
  | creating (i : ℕ)
  | inCreate (i : ℕ) (stored started : Bool)
  | running
  deriving DecidableEq

variable {Id : Type} {P T : ℕ}

/-- The array `tids` of each process with what `malloc` has left in it, the ids
of the threads that exist, for each running call of `gettindex` the entry that
it compares next, and the answers of the calls that have returned. -/
structure State (Id : Type) (P T : ℕ) where
  creator : Fin P → Creator
  tids : Fin P → Option (ℕ → Id)
  pthreadSelf : Fin P × Fin T → Option Id
  lookup : Fin P × Fin T → Option ℕ
  answers : Fin P × Fin T → List ℤ

def State.Runs (s : State Id P T) (w : Fin P × Fin T) : Prop :=
  match s.creator w.1 with
  | .unborn => False
  | .creating i => 1 ≤ w.2.val ∧ w.2.val < i
  | .inCreate i _ started => 1 ≤ w.2.val ∧ (w.2.val < i ∨ w.2.val = i ∧ started = true)
  | .running => True

instance (s : State Id P T) (w : Fin P × Fin T) : Decidable (s.Runs w) := by
  unfold State.Runs
  split <;> infer_instance

inductive Act (Id : Type) (P T : ℕ)
  | fork (p : Fin P) (id : Id)
  | create (p : Fin P) (id : Id)
  | store (p : Fin P)
  | start (p : Fin P)
  | next (p : Fin P)
  | call (w : Fin P × Fin T)
  | look (w : Fin P × Fin T)

variable [DecidableEq Id]

/-- The kernel chooses the ids, none that another thread of the process has. -/
def step (s : State Id P T) : Act Id P T → Option (State Id P T)
  | .fork p id =>
    match s.creator p with
    | .unborn =>
      some { s with
        creator := Function.update s.creator p (.creating 1)
        pthreadSelf := fun w ↦ if w.1 = p ∧ w.2.val = 0 then some id else s.pthreadSelf w }
    | .creating _ | .inCreate _ _ _ | .running => none
  | .create p id =>
    match s.creator p with
    | .creating i =>
      if i < T ∧ ∀ t, s.pthreadSelf (p, t) ≠ some id then
        some { s with
          creator := Function.update s.creator p (.inCreate i false false)
          pthreadSelf := fun w ↦ if w.1 = p ∧ w.2.val = i then some id else s.pthreadSelf w }
      else none
    | .unborn | .inCreate _ _ _ | .running => none
  | .store p =>
    match s.creator p, s.tids p with
    | .inCreate i false started, some tids =>
      if h : i < T then
        (s.pthreadSelf (p, ⟨i, h⟩)).map fun id ↦
          { s with
            creator := Function.update s.creator p (.inCreate i true started)
            tids := Function.update s.tids p (some (Function.update tids i id)) }
      else none
    | _, _ => none
  | .start p =>
    match s.creator p with
    | .inCreate i stored false =>
      some { s with creator := Function.update s.creator p (.inCreate i stored true) }
    | .unborn | .creating _ | .inCreate _ _ true | .running => none
  | .next p =>
    match s.creator p with
    | .inCreate i true true =>
      some { s with creator := Function.update s.creator p (.creating (i + 1)) }
    | .creating i =>
      if i < T then none else some { s with creator := Function.update s.creator p .running }
    | .unborn | .inCreate _ _ _ | .running => none
  | .call w =>
    if s.Runs w ∧ s.lookup w = none then
      match s.tids w.1 with
      | none => some { s with answers := Function.update s.answers w (s.answers w ++ [-1]) }
      | some _ => some { s with lookup := Function.update s.lookup w (some 1) }
    else none
  | .look w =>
    match s.lookup w, s.tids w.1 with
    | some i, some tids =>
      if i < T ∧ s.pthreadSelf w ≠ some (tids i) then
        some { s with lookup := Function.update s.lookup w (some (i + 1)) }
      else
        some { s with
          lookup := Function.update s.lookup w none
          answers := Function.update s.answers w
            (s.answers w ++ [if i < T then (i : ℤ) else 0]) }
    | _, _ => none

def start (tids : ℕ → Id) : State Id P T :=
  ⟨fun _ ↦ .unborn, fun _ ↦ some tids, fun _ ↦ none, fun _ ↦ none, fun _ ↦ []⟩

/-- `actual_main` allocates `tids` once, before it forks. -/
def system (Id : Type) [DecidableEq Id] (P T : ℕ) : System (State Id P T) (Act Id P T) where
  init s := ∃ tids, s = start tids
  step := step

/-- The index that `benchmark_pre` of the cascades computes from an answer of
`gettindex`. -/
def us (w : Fin P × Fin T) (tindex : ℤ) : ℤ := w.1.val * T + tindex

/-- Every call has told the thread its own index, and different workers have
different indices. -/
def State.Indexed (s : State Id P T) : Prop :=
  (∀ w, ∀ a ∈ s.answers w, a = (w.2.val : ℤ)) ∧
    ∀ w v, ∀ a ∈ s.answers w, ∀ b ∈ s.answers v, us w a = us v b → w = v

/-- A call that comes to the entry of its own thread finds the id of the thread
there. -/
def Filled (s : State Id P T) : Act Id P T → Prop
  | .look w => s.lookup w = some w.2.val → s.pthreadSelf w = (s.tids w.1).map (fun tids ↦ tids w.2.val)
  | _ => True

def Creator.born (T : ℕ) : Creator → ℕ
  | .unborn => 0
  | .creating i => i
  | .inCreate i _ _ => i + 1
  | .running => T

def Creator.filled (T : ℕ) : Creator → ℕ
  | .unborn => 0
  | .creating i => i
  | .inCreate i stored _ => if stored then i + 1 else i
  | .running => T

def Creator.Bounded (T : ℕ) : Creator → Prop
  | .unborn | .running => True
  | .creating i => 1 ≤ i ∧ i ≤ T
  | .inCreate i _ _ => 1 ≤ i ∧ i < T

structure ProcessOk (c : Creator) (ids : Fin T → Option Id) (tids : Option (ℕ → Id)) : Prop where
  bounded : c.Bounded T
  born : ∀ t, (ids t).isSome ↔ t.val < c.born T
  distinct : ∀ t t' id, ids t = some id → ids t' = some id → t = t'
  tids : ∃ a, tids = some a ∧ ∀ t : Fin T, 1 ≤ t.val → t.val < c.filled T → ids t = some (a t.val)

structure Ok (s : State Id P T) : Prop where
  process : ∀ p, ProcessOk (s.creator p) (fun t ↦ s.pthreadSelf (p, t)) (s.tids p)
  lookup : ∀ w i, s.lookup w = some i → s.Runs w ∧ 1 ≤ i ∧ (w.2.val = 0 ∨ i ≤ w.2.val)
  answers : ∀ w, ∀ a ∈ s.answers w, a = (w.2.val : ℤ)

variable {s s' : State Id P T} {p : Fin P} {w : Fin P × Fin T} {i : ℕ}

omit [DecidableEq Id] in
theorem start_ok (tids : ℕ → Id) : Ok (start tids : State Id P T) where
  process p :=
    { bounded := trivial
      born := fun t ↦ by simp [start, Creator.born]
      distinct := fun t t' id h ↦ by cases h
      tids := ⟨tids, rfl, fun t _ h ↦ by simp [start, Creator.filled] at h⟩ }
  lookup w i h := by cases h
  answers w a h := by cases h

omit [DecidableEq Id] in
theorem Ok.main (h : Ok s) (p : Fin P)
    (hother : ∀ q ≠ p, s'.creator q = s.creator q ∧ s'.tids q = s.tids q ∧
      ∀ t, s'.pthreadSelf (q, t) = s.pthreadSelf (q, t))
    (hp : ProcessOk (s'.creator p) (fun t ↦ s'.pthreadSelf (p, t)) (s'.tids p))
    (hruns : ∀ t, s.Runs (p, t) → s'.Runs (p, t)) (hl : s'.lookup = s.lookup)
    (ha : s'.answers = s.answers) : Ok s' where
  process q := by
    by_cases hq : q = p
    · exact hq ▸ hp
    · obtain ⟨hc, ht, hs⟩ := hother q hq
      rw [hc, ht, funext hs]
      exact h.process q
  lookup w i hi := by
    rw [hl] at hi
    obtain ⟨hr, hi⟩ := h.lookup w i hi
    refine ⟨?_, hi⟩
    obtain ⟨q, t⟩ := w
    by_cases hq : q = p
    · subst hq
      exact hruns t hr
    · simp only [State.Runs, (hother q hq).1]
      exact hr
  answers := ha ▸ h.answers

omit [DecidableEq Id] in
theorem ProcessOk.creator {c c' : Creator} {ids : Fin T → Option Id} {tids : Option (ℕ → Id)}
    (h : ProcessOk c ids tids) (hbounded : c'.Bounded T) (hborn : c'.born T = c.born T)
    (hfilled : c'.filled T = c.filled T) : ProcessOk c' ids tids where
  bounded := hbounded
  born := hborn ▸ h.born
  distinct := h.distinct
  tids := hfilled ▸ h.tids

omit [DecidableEq Id] in
theorem ProcessOk.bear {c c' : Creator} {ids : Fin T → Option Id} {tids : Option (ℕ → Id)} {id : Id}
    (h : ProcessOk c ids tids) (hid : ∀ t, ids t ≠ some id) (hbounded : c'.Bounded T)
    (hborn : c.born T = i) (hborn' : c'.born T = i + 1)
    (hfilled : ∀ t, 1 ≤ t → t < c'.filled T → t < c.filled T) (hle : c.filled T ≤ i) :
    ProcessOk c' (fun t ↦ if t.val = i then some id else ids t) tids where
  bounded := hbounded
  born t := by
    have hb := h.born t
    rw [hborn] at hb
    rw [hborn']
    by_cases ht : t.val = i
    · simp [ht]
    · rw [if_neg ht, hb]
      omega
  distinct t t' id' ht ht' := by
    by_cases hi : t.val = i <;> by_cases hi' : t'.val = i
    · exact Fin.ext (hi.trans hi'.symm)
    · rw [if_pos hi] at ht
      rw [if_neg hi', ← ht] at ht'
      exact absurd ht' (hid t')
    · rw [if_pos hi'] at ht'
      rw [if_neg hi, ← ht'] at ht
      exact absurd ht (hid t)
    · rw [if_neg hi] at ht
      rw [if_neg hi'] at ht'
      exact h.distinct t t' id' ht ht'
  tids := by
    obtain ⟨a, ha, hf⟩ := h.tids
    refine ⟨a, ha, fun t h1 ht ↦ ?_⟩
    have hlt := hfilled t h1 ht
    rw [if_neg (hlt.trans_le hle).ne]
    exact hf t h1 hlt

omit [DecidableEq Id] in
theorem ProcessOk.store {started : Bool} {ids : Fin T → Option Id} {a : ℕ → Id} {id : Id}
    (h : ProcessOk (.inCreate i false started) ids (some a)) (hi : i < T)
    (hid : ids ⟨i, hi⟩ = some id) :
    ProcessOk (.inCreate i true started) ids (some (Function.update a i id)) where
  bounded := h.bounded
  born := h.born
  distinct := h.distinct
  tids := by
    obtain ⟨b, hb, hf⟩ := h.tids
    cases hb
    refine ⟨_, rfl, fun t h1 ht ↦ ?_⟩
    by_cases hti : t.val = i
    · rw [hti, Function.update_self, ← hid]
      exact congrArg ids (Fin.ext hti)
    · rw [Function.update_of_ne hti]
      refine hf t h1 ?_
      simp only [Creator.filled, if_true, Bool.false_eq_true, if_false] at ht ⊢
      omega

theorem Ok.answer (h : Ok s) {tids : ℕ → Id} (hi : s.lookup w = some i)
    (ht : s.tids w.1 = some tids)
    (hfilled : i = w.2.val → s.pthreadSelf w = some (tids w.2.val)) :
    if i < T ∧ s.pthreadSelf w ≠ some (tids i) then w.2.val = 0 ∨ i + 1 ≤ w.2.val
    else (if i < T then (i : ℤ) else 0) = w.2.val := by
  obtain ⟨hr, h1, hle⟩ := h.lookup w i hi
  have hp := h.process w.1
  obtain ⟨a, ha, hf⟩ := hp.tids
  rw [ht] at ha
  cases ha
  have hlt := w.2.isLt
  have hother (hiT : i < T) (hne : i ≠ w.2.val) (hfi : i < (s.creator w.1).filled T) :
      s.pthreadSelf w ≠ some (tids i) := by
    intro he
    have := hp.distinct w.2 ⟨i, hiT⟩ (tids i) he (hf ⟨i, hiT⟩ h1 hfi)
    exact hne (congrArg Fin.val this).symm
  have hready : i < T → i < w.2.val ∨ w.2.val = 0 → i < (s.creator w.1).filled T := by
    intro hiT hc
    simp only [State.Runs] at hr
    cases hcr : s.creator w.1 with
    | unborn => simp [hcr] at hr
    | creating k =>
      simp only [hcr] at hr
      simp only [Creator.filled]
      omega
    | inCreate k stored started =>
      simp only [hcr] at hr
      simp only [Creator.filled]
      split_ifs <;> omega
    | running => exact hiT
  rcases Nat.eq_zero_or_pos w.2.val with h0 | h0
  · by_cases hiT : i < T
    · rw [if_pos ⟨hiT, hother hiT (by omega) (hready hiT (.inr h0))⟩]
      exact .inl h0
    · rw [if_neg fun hc ↦ hiT hc.1, if_neg hiT, h0]
      rfl
  · rcases Nat.lt_or_eq_of_le (hle.resolve_left h0.ne') with hlt' | rfl
    · have hiT := hlt'.trans hlt
      rw [if_pos ⟨hiT, hother hiT hlt'.ne (hready hiT (.inl hlt'))⟩]
      exact .inr hlt'
    · rw [if_neg fun hc ↦ hc.2 (hfilled rfl), if_pos hlt]

theorem Ok.fork {id : Id} (h : Ok s) (hT : 1 ≤ T) (hs : step s (.fork p id) = some s') : Ok s' := by
  simp only [Threads.step] at hs
  cases hc : s.creator p with
  | unborn =>
    simp only [hc] at hs
    cases hs
    have hp := h.process p
    rw [hc] at hp
    refine h.main p (fun q hq ↦ ⟨Function.update_of_ne hq _ _, rfl, fun t ↦ if_neg fun hw ↦ hq hw.1⟩)
      ?_ (fun t hr ↦ by simp [State.Runs, hc] at hr) rfl rfl
    have hnone (t) : s.pthreadSelf (p, t) ≠ some id := by
      intro he
      have hb := (hp.born t).mp (he ▸ rfl)
      exact absurd hb (Nat.not_lt_zero _)
    simp only [Function.update_self, true_and]
    exact hp.bear hnone ⟨le_rfl, hT⟩ rfl rfl
      (fun t h1 ht ↦ absurd ht (Nat.not_lt.mpr h1)) le_rfl
  | creating i | inCreate i stored started | running => simp [hc] at hs

theorem Ok.create {id : Id} (h : Ok s) (hs : step s (.create p id) = some s') : Ok s' := by
  simp only [Threads.step] at hs
  cases hc : s.creator p with
  | creating i =>
    simp only [hc] at hs
    split_ifs at hs with hid
    cases hs
    have hp := h.process p
    rw [hc] at hp
    refine h.main p (fun q hq ↦ ⟨Function.update_of_ne hq _ _, rfl, fun t ↦ if_neg fun hw ↦ hq hw.1⟩)
      ?_ (fun t hr ↦ ?_) rfl rfl
    · simp only [Function.update_self, true_and]
      exact hp.bear hid.2 ⟨hp.bounded.1, hid.1⟩ rfl rfl (fun t _ ht ↦ ht) le_rfl
    · simp only [State.Runs, hc, Function.update_self] at hr ⊢
      exact ⟨hr.1, .inl hr.2⟩
  | unborn | inCreate i stored started | running => simp [hc] at hs

theorem Ok.store (h : Ok s) (hs : step s (.store p) = some s') : Ok s' := by
  simp only [Threads.step] at hs
  split at hs
  case h_1 i started tids hc ht =>
    split_ifs at hs with hi
    obtain ⟨id, hid, hs⟩ := Option.map_eq_some_iff.mp hs
    cases hs
    have hp := h.process p
    rw [hc, ht] at hp
    refine h.main p (fun q hq ↦ ⟨Function.update_of_ne hq _ _, Function.update_of_ne hq _ _,
      fun t ↦ rfl⟩) ?_ (fun t hr ↦ ?_) rfl rfl
    · simp only [Function.update_self]
      exact hp.store hi hid
    · simp only [State.Runs, hc, Function.update_self] at hr ⊢
      exact hr
  case h_2 => cases hs

theorem Ok.start (h : Ok s) (hs : step s (.start p) = some s') : Ok s' := by
  simp only [Threads.step] at hs
  split at hs
  case h_1 i stored hc =>
    cases hs
    have hp := h.process p
    rw [hc] at hp
    refine h.main p (fun q hq ↦ ⟨Function.update_of_ne hq _ _, rfl, fun t ↦ rfl⟩) ?_
      (fun t hr ↦ ?_) rfl rfl
    · simp only [Function.update_self]
      exact hp.creator hp.bounded rfl rfl
    · simp only [State.Runs, hc, Function.update_self] at hr ⊢
      exact ⟨hr.1, .inl (hr.2.resolve_right fun hf ↦ Bool.false_ne_true hf.2)⟩
  all_goals cases hs

theorem Ok.next (h : Ok s) (hs : step s (.next p) = some s') : Ok s' := by
  simp only [Threads.step] at hs
  have hp := h.process p
  split at hs
  case h_1 i hc =>
    cases hs
    rw [hc] at hp
    refine h.main p (fun q hq ↦ ⟨Function.update_of_ne hq _ _, rfl, fun t ↦ rfl⟩) ?_
      (fun t hr ↦ ?_) rfl rfl
    · simp only [Function.update_self]
      exact hp.creator ⟨Nat.le_add_left _ _, hp.bounded.2⟩ rfl rfl
    · simp only [State.Runs, hc, Function.update_self] at hr ⊢
      omega
  case h_2 i hc =>
    split_ifs at hs with hi
    cases hs
    rw [hc] at hp
    have hiT : T = i := le_antisymm (not_lt.mp hi) hp.bounded.2
    refine h.main p (fun q hq ↦ ⟨Function.update_of_ne hq _ _, rfl, fun t ↦ rfl⟩) ?_
      (fun t hr ↦ ?_) rfl rfl
    · simp only [Function.update_self]
      exact hp.creator trivial hiT hiT
    · simp only [State.Runs, Function.update_self]
  all_goals cases hs

omit [DecidableEq Id] in
theorem Ok.ask {lookup : Option ℕ} {answers : List ℤ} (h : Ok s)
    (hl : ∀ i, lookup = some i → s.Runs w ∧ 1 ≤ i ∧ (w.2.val = 0 ∨ i ≤ w.2.val))
    (ha : ∀ a ∈ answers, a = (w.2.val : ℤ)) :
    Ok { s with
      lookup := Function.update s.lookup w lookup
      answers := Function.update s.answers w answers } where
  process := h.process
  lookup v i hi := by
    simp only at hi
    by_cases hv : v = w
    · subst hv
      rw [Function.update_self] at hi
      exact hl i hi
    · rw [Function.update_of_ne hv] at hi
      exact h.lookup v i hi
  answers v a hm := by
    simp only at hm
    by_cases hv : v = w
    · subst hv
      rw [Function.update_self] at hm
      exact ha a hm
    · rw [Function.update_of_ne hv] at hm
      exact h.answers v a hm

theorem Ok.call (h : Ok s) (hs : step s (.call w) = some s') : Ok s' := by
  simp only [Threads.step] at hs
  split_ifs at hs with hr
  obtain ⟨a, ha, -⟩ := (h.process w.1).tids
  simp only [ha] at hs
  cases hs
  have : Ok { s with
      lookup := Function.update s.lookup w (some 1)
      answers := Function.update s.answers w (s.answers w) } :=
    h.ask (fun i hi ↦ by cases hi; exact ⟨hr.1, le_rfl, by omega⟩) (h.answers w)
  simpa only [Function.update_eq_self] using this

theorem Ok.look (h : Ok s) (hg : Filled s (.look w)) (hs : step s (.look w) = some s') : Ok s' := by
  simp only [Threads.step] at hs
  split at hs
  case h_1 i tids hi ht =>
    have hw := h.answer hi ht (fun hiw ↦ by rw [hg (hi.trans (congrArg some hiw)), ht]; rfl)
    obtain ⟨hr, h1, -⟩ := h.lookup w i hi
    split_ifs at hs hw with hne hiT
    · cases hs
      have : Ok { s with
          lookup := Function.update s.lookup w (some (i + 1))
          answers := Function.update s.answers w (s.answers w) } :=
        h.ask (fun k hk ↦ by cases hk; exact ⟨hr, by omega, hw⟩) (h.answers w)
      simpa only [Function.update_eq_self] using this
    all_goals
      cases hs
      refine h.ask (fun k hk ↦ by cases hk) (fun a hm ↦ ?_)
      rcases List.mem_append.mp hm with hm | hm
      · exact h.answers w a hm
      · rw [List.mem_singleton.mp hm]
        exact hw
  case h_2 => cases hs

theorem Ok.step {a : Act Id P T} (h : Ok s) (hT : 1 ≤ T) (hg : Filled s a)
    (hs : step s a = some s') : Ok s' := by
  cases a with
  | fork p id => exact h.fork hT hs
  | create p id => exact h.create hs
  | store p => exact h.store hs
  | start p => exact h.start hs
  | next p => exact h.next hs
  | call w => exact h.call hs
  | look w => exact h.look hg hs

omit [DecidableEq Id] in
theorem Ok.indexed (h : Ok s) : s.Indexed := by
  refine ⟨h.answers, fun w v a ha b hb he ↦ ?_⟩
  rw [h.answers w a ha, h.answers v b hb] at he
  have hlt := w.2.isLt
  have hlt' := v.2.isLt
  simp only [us] at he
  have he' : T * w.1.val + w.2.val = T * v.1.val + v.2.val := by
    rw [Nat.mul_comm T, Nat.mul_comm T]
    exact_mod_cast he
  have hd := congrArg (· / T) he'
  have hm := congrArg (· % T) he'
  simp only [Nat.mul_add_div (Nat.zero_lt_of_lt hlt), Nat.div_eq_of_lt hlt, Nat.div_eq_of_lt hlt',
    Nat.mul_add_mod, Nat.mod_eq_of_lt hlt, Nat.mod_eq_of_lt hlt', Nat.add_zero] at hd hm
  exact Prod.ext (Fin.ext hd) (Fin.ext hm)

/-- As long as every thread finds its id in its own entry, all threads know
their indices. -/
theorem gettindex_indexed (Id : Type) [DecidableEq Id] (P T : ℕ) (hT : 1 ≤ T) (s : State Id P T)
    (hs : (system Id P T).ReachableBy Filled s) : s.Indexed := by
  have hok : Ok s := hs.invariant
    (fun _ ⟨tids, he⟩ ↦ he ▸ start_ok tids)
    (fun _ _ _ _ hok hg hst ↦ hok.step hT hg hst)
  exact hok.indexed

theorem gettindex_indexed_two : ∃ s : State ℕ 1 2, s.answers (0, 1) = [1] ∧ s.Indexed := by
  have h : ((system ℕ 1 2).exec (start fun _ ↦ 0)
      [.fork 0 7, .create 0 8, .store 0, .start 0, .call (0, 1)]).map
      (fun s ↦ (s.lookup (0, 1), s.pthreadSelf (0, 1), (s.tids 0).map (fun tids ↦ tids 1),
        (step s (.look (0, 1))).map (fun s' ↦ s'.answers (0, 1)))) =
      some (some 1, some 8, some 8, some [1]) := by
    decide +kernel
  obtain ⟨s, hs, he⟩ := Option.map_eq_some_iff.mp h
  simp only [Prod.mk.injEq] at he
  obtain ⟨-, hself, htids, hlook⟩ := he
  obtain ⟨s', hst, ha⟩ := Option.map_eq_some_iff.mp hlook
  have hr : (system ℕ 1 2).ReachableBy Filled s :=
    (System.exec_run hs).reachableBy (.start ⟨_, rfl⟩) (by simp [Filled])
  have hg : Filled s (.look (0, 1)) := fun _ ↦ hself.trans htids.symm
  exact ⟨s', ha, gettindex_indexed ℕ 1 2 (by decide) s' (hr.next hg hst)⟩

/-- The new thread asks before its id is stored, and takes itself for the main thread. -/
theorem gettindex_early : ∃ s : State ℕ 1 2, (system ℕ 1 2).Reachable s ∧ ¬ s.Indexed := by
  have h : ((system ℕ 1 2).exec (start fun _ ↦ 0)
      [.fork 0 7, .create 0 8, .start 0, .call (0, 1), .look (0, 1), .look (0, 1)]).map
      (fun s ↦ s.answers (0, 1)) = some [0] := by
    decide +kernel
  obtain ⟨s, hs, ha⟩ := Option.map_eq_some_iff.mp h
  refine ⟨s, System.exec_reachable hs ⟨_, rfl⟩, fun hi ↦ ?_⟩
  exact absurd (hi.1 (0, 1) 0 (ha ▸ List.mem_singleton_self 0)) (by decide)

end LibMicro.Processes.Threads
