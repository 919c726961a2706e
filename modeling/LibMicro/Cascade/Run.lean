import LibMicro.Cascade.Protocol
import LibMicro.Harness.Bounded
import LibMicro.Harness.Completion

namespace LibMicro.Cascade.Run

open TransitionSystem Harness

structure Shared (N : ℕ) where
  locks : ℕ → Option (Fin N)
  tsd : Fin N → TsdT

/-- The calls that `cascade_mutex` makes in its callbacks. It has no `benchmark_post`. -/
def scriptOf : Callback → List Call
  | .pre => [benchmarkPre]
  | .benchmark => Cascade.benchmark
  | .post => []

variable {opt : Options}

abbrev nthreads (opt : Options) : ℕ := opt.lmOptP * opt.lmOptT

/-- `getpindex () * lm_optT + gettindex ()`, if `gettindex` gives a worker its own index. -/
def us : WorkerId opt ≃ Fin (nthreads opt) := finProdFinEquiv

/-- A worker that knows its index goes from call to call. It waits in `block` for a lock that is
taken. -/
def callbacks (opt : Options) : Callbacks (WorkerId opt) (Shared (nthreads opt)) ℕ where
  entry _ := 0
  step u c _ x k :=
    match (scriptOf c)[k]? with
    | none => some (x, none)
    | some call =>
      let ts := if c = .pre then assignLocks (nthreads opt) (us u) (x.tsd (us u)) else x.tsd (us u)
      (callStep x.locks (us u) ts call).map fun locks ↦
        (⟨locks, Function.update x.tsd (us u) ts⟩, some (k + 1))

def mapped (N : ℕ) : Shared N := ⟨fun _ ↦ none, fun _ ↦ ⟨0, 0, 0, 0, 0, 0⟩⟩

def system (opt : Options) :
    System (Loaded.State (WorkerId opt) (Shared (nthreads opt)) ℕ) (Act (WorkerId opt)) :=
  Loaded.system opt (callbacks opt) (· = mapped _)

section Position

def roundAt (w : Rounds.Worker ℕ) : ℕ :=
  w.calls / 3 + if w.calls % 3 = 2 ∧ w.place ≠ none then 1 else 0

def posAt (w : Rounds.Worker ℕ) : ℕ :=
  match callbackAt w.calls, w.place with
  | .pre, p => p.getD 0
  | .benchmark, p => 1 + p.getD 0
  | .post, none => 12
  | .post, some _ => 0

variable {n k r : ℕ} {w : Rounds.Worker ℕ}

theorem at_pre (h : n % 3 = 0) (p : Option ℕ) :
    roundAt ⟨n, p⟩ = n / 3 ∧ posAt ⟨n, p⟩ = p.getD 0 := by
  simp [roundAt, posAt, callbackAt_eq .pre h, h]

theorem at_benchmark (h : n % 3 = 1) (p : Option ℕ) :
    roundAt ⟨n, p⟩ = n / 3 ∧ posAt ⟨n, p⟩ = 1 + p.getD 0 := by
  simp [roundAt, posAt, callbackAt_eq .benchmark h, h]

theorem at_post (h : n % 3 = 2) : roundAt ⟨n, none⟩ = n / 3 ∧ posAt ⟨n, none⟩ = 12 := by
  simp [roundAt, posAt, callbackAt_eq .post h]

theorem at_next (h : n % 3 = 2) (k : ℕ) :
    roundAt ⟨n, some k⟩ = n / 3 + 1 ∧ posAt ⟨n, some k⟩ = 0 := by
  simp [roundAt, posAt, callbackAt_eq .post h, h]

theorem le_roundAt (w : Rounds.Worker ℕ) : w.calls / 3 ≤ roundAt w := Nat.le_add_right _ _

theorem at_least_benchmark (h : 3 * r + 1 ≤ w.calls) :
    r < roundAt w ∨ roundAt w = r ∧ 1 ≤ posAt w := by
  obtain ⟨n, p⟩ := w
  have hle := le_roundAt ⟨n, p⟩
  simp only at h hle
  by_cases hr : n / 3 = r
  · rcases (by omega : n % 3 = 1 ∨ n % 3 = 2) with hn | hn
    · obtain ⟨h₁, h₂⟩ := at_benchmark hn p
      omega
    · cases p with
      | none =>
        obtain ⟨h₁, h₂⟩ := at_post hn
        omega
      | some k =>
        obtain ⟨h₁, -⟩ := at_next hn k
        omega
  · omega

theorem at_least_post (h : 3 * r + 2 ≤ w.calls) :
    r < roundAt w ∨ roundAt w = r ∧ 12 ≤ posAt w := by
  obtain ⟨n, p⟩ := w
  have hle := le_roundAt ⟨n, p⟩
  simp only at h hle
  by_cases hr : n / 3 = r
  · have hn : n % 3 = 2 := by omega
    cases p with
    | none =>
      obtain ⟨h₁, h₂⟩ := at_post hn
      omega
    | some k =>
      obtain ⟨h₁, -⟩ := at_next hn k
      omega
  · omega

end Position

section Simulation

variable {t t' : Rounds.State (WorkerId opt) (Shared (nthreads opt)) ℕ} {u v : WorkerId opt}

def cascade (t : Rounds.State (WorkerId opt) (Shared (nthreads opt)) ℕ)
    (moves : List (ℕ × ℕ × ℕ)) : Cascade.State (nthreads opt) :=
  ⟨t.shared.locks, t.shared.tsd, fun i ↦ roundAt (t.worker (us.symm i)),
    fun i ↦ posAt (t.worker (us.symm i)), moves⟩

theorem cascade_at (t : Rounds.State (WorkerId opt) (Shared (nthreads opt)) ℕ)
    (moves : List (ℕ × ℕ × ℕ)) (u : WorkerId opt) :
    (cascade t moves).round (us u) = roundAt (t.worker u) ∧
      (cascade t moves).pos (us u) = posAt (t.worker u) := by
  simp [cascade]

theorem at_update {α : Type} (f : Rounds.Worker ℕ → α) (h : ∀ v ≠ u, t'.worker v = t.worker v) :
    (fun i ↦ f (t'.worker (us.symm i))) =
      Function.update (fun i ↦ f (t.worker (us.symm i))) (us u) (f (t'.worker u)) := by
  funext i
  by_cases hi : i = us u
  · subst hi
    simp
  · have hne : us.symm i ≠ u := fun h ↦ hi (h ▸ (us.apply_symm_apply i).symm)
    rw [Function.update_of_ne hi, h _ hne]

theorem cascade_stay (h : ∀ v ≠ u, t'.worker v = t.worker v) (hshared : t'.shared = t.shared)
    (hround : roundAt (t'.worker u) = roundAt (t.worker u))
    (hpos : posAt (t'.worker u) = posAt (t.worker u)) (moves : List (ℕ × ℕ × ℕ)) :
    cascade t' moves = cascade t moves := by
  have hr := at_update roundAt h
  have hp := at_update posAt h
  rw [hround] at hr
  rw [hpos] at hp
  simp only [cascade, hshared, hr, hp]
  congr 1 <;> exact Function.update_eq_iff.mpr ⟨by simp, fun _ _ ↦ rfl⟩

structure Follows (t : Rounds.State (WorkerId opt) (Shared (nthreads opt)) ℕ)
    (s : Cascade.State (nthreads opt)) : Prop where
  eq : ∃ moves, s = cascade t moves
  bound : ∀ u k, (t.worker u).place = some k → k ≤ (scriptOf (callbackAt (t.worker u).calls)).length

theorem Follows.allAt {s : Cascade.State (nthreads opt)} {p : ℕ} (hf : Follows t s)
    (h : ∀ v, roundAt (t.worker u) < roundAt (t.worker v) ∨
      roundAt (t.worker v) = roundAt (t.worker u) ∧ p ≤ posAt (t.worker v)) : s.AllAt (us u) p := by
  obtain ⟨moves, rfl⟩ := hf.eq
  intro i
  obtain ⟨v, rfl⟩ := us.surjective i
  obtain ⟨hr, hp⟩ := cascade_at t moves v
  rw [hr, hp, (cascade_at t moves u).1]
  exact h v

theorem roundOf_at {k : ℕ} {call : Call} {w : Rounds.Worker ℕ} (hplace : w.place = some k)
    (hcall : (scriptOf (callbackAt w.calls))[k]? = some call) :
    (roundOf Cascade.benchmark)[posAt w]? = some call ∧
      (callbackAt w.calls = .pre ∧ posAt w = 0 ∨
        callbackAt w.calls = .benchmark ∧ posAt w = 1 + k) := by
  obtain ⟨n, p⟩ := w
  obtain rfl : p = some k := hplace
  simp only at hcall ⊢
  cases hc : callbackAt n with
  | pre =>
    rw [hc] at hcall
    obtain rfl : k = 0 := by
      have := (List.getElem?_eq_some_iff.mp hcall).1
      simpa [scriptOf] using this
    have hpos : posAt ⟨n, some 0⟩ = 0 := by simp [posAt, hc]
    rw [hpos]
    exact ⟨hcall, .inl ⟨rfl, rfl⟩⟩
  | benchmark =>
    rw [hc] at hcall
    have hpos : posAt ⟨n, some k⟩ = k + 1 := by simp [posAt, hc, Nat.add_comm]
    rw [hpos]
    exact ⟨hcall, .inr ⟨rfl, Nat.add_comm ..⟩⟩
  | post =>
    rw [hc] at hcall
    cases hcall

theorem ready_at {moves : List (ℕ × ℕ × ℕ)} {k : ℕ} (h : callbackAt (t.worker u).calls = .pre ∧
      posAt (t.worker u) = 0 ∨ callbackAt (t.worker u).calls = .benchmark ∧
        posAt (t.worker u) = 1 + k) :
    (cascade t moves).ready (us u) =
      if callbackAt (t.worker u).calls = .pre then
        assignLocks (nthreads opt) (us u) (t.shared.tsd (us u)) else t.shared.tsd (us u) := by
  rw [State.ready, (cascade_at t moves u).2]
  rcases h with ⟨hc, hp⟩ | ⟨hc, hp⟩
  · rw [if_pos hp, if_pos hc]
    rfl
  · rw [if_neg (by omega), if_neg (by simp [hc])]
    rfl

theorem mod_cases (n : ℕ) : n % 3 = 0 ∨ n % 3 = 1 ∨ n % 3 = 2 := by
  omega

theorem at_back {n k : ℕ} (hk : k = (scriptOf (callbackAt n)).length) :
    roundAt ⟨n + 1, none⟩ = roundAt ⟨n, some k⟩ ∧ posAt ⟨n + 1, none⟩ = posAt ⟨n, some k⟩ := by
  rcases mod_cases n with h | h | h
  · rw [callbackAt_eq .pre h] at hk
    obtain ⟨h₁, h₂⟩ := at_pre h (some k)
    obtain ⟨h₃, h₄⟩ := at_benchmark (n := n + 1) (by omega) none
    rw [h₁, h₂, h₃, h₄, hk]
    exact ⟨by omega, rfl⟩
  · rw [callbackAt_eq .benchmark h] at hk
    obtain ⟨h₁, h₂⟩ := at_benchmark h (some k)
    obtain ⟨h₃, h₄⟩ := at_post (n := n + 1) (by omega)
    rw [h₁, h₂, h₃, h₄, hk]
    exact ⟨by omega, rfl⟩
  · obtain ⟨h₁, h₂⟩ := at_next h k
    obtain ⟨h₃, h₄⟩ := at_pre (n := n + 1) (by omega) none
    rw [h₁, h₂, h₃, h₄]
    exact ⟨by omega, rfl⟩

theorem at_call {n k : ℕ} {call : Call} (hcall : (scriptOf (callbackAt n))[k]? = some call) :
    roundAt ⟨n, some (k + 1)⟩ = roundAt ⟨n, some k⟩ ∧
      posAt ⟨n, some (k + 1)⟩ = posAt ⟨n, some k⟩ + 1 := by
  rcases mod_cases n with h | h | h
  · obtain ⟨h₁, h₂⟩ := at_pre h (some k)
    obtain ⟨h₃, h₄⟩ := at_pre h (some (k + 1))
    rw [h₁, h₂, h₃, h₄]
    exact ⟨rfl, rfl⟩
  · obtain ⟨h₁, h₂⟩ := at_benchmark h (some k)
    obtain ⟨h₃, h₄⟩ := at_benchmark h (some (k + 1))
    rw [h₁, h₂, h₃, h₄]
    exact ⟨rfl, rfl⟩
  · rw [callbackAt_eq .post h] at hcall
    cases hcall

theorem Follows.enter {s : Cascade.State (nthreads opt)} (hf : Follows t s)
    (hplace : (t.worker u).place = none)
    (hgate : (callbacks opt).body.gate (t.worker u).calls →
      ∀ v, (t.worker u).calls ≤ (t.worker v).calls) :
    Follows (t.enter u 0) s ∨ ∃ s', Cascade.step Cascade.benchmark s (us u) = some s' ∧
      Follows (t.enter u 0) s' := by
  obtain ⟨moves, rfl⟩ := hf.eq
  have hother (v : WorkerId opt) (hv : v ≠ u) : (t.enter u 0).worker v = t.worker v :=
    Rounds.enter_worker_of_ne hv
  have hself : (t.enter u 0).worker u = ⟨(t.worker u).calls, some 0⟩ := by
    rw [Rounds.enter_worker_self]
    rfl
  have hwas : t.worker u = ⟨(t.worker u).calls, none⟩ := by rw [← hplace]
  have hbound (v : WorkerId opt) (k : ℕ) (hk : ((t.enter u 0).worker v).place = some k) :
      k ≤ (scriptOf (callbackAt ((t.enter u 0).worker v).calls)).length := by
    by_cases hv : v = u
    · subst hv
      rw [Rounds.enter_place] at hk
      cases hk
      exact Nat.zero_le _
    · rw [hother v hv] at hk ⊢
      exact hf.bound v k hk
  generalize hn : (t.worker u).calls = n at hself hwas hgate
  rcases mod_cases n with h | h | h
  · left
    refine ⟨⟨moves, (cascade_stay hother rfl ?_ ?_ moves).symm⟩, hbound⟩
    · rw [hself, hwas, (at_pre h _).1, (at_pre h _).1]
    · rw [hself, hwas, (at_pre h _).2, (at_pre h _).2]
      rfl
  · left
    refine ⟨⟨moves, (cascade_stay hother rfl ?_ ?_ moves).symm⟩, hbound⟩
    · rw [hself, hwas, (at_benchmark h _).1, (at_benchmark h _).1]
    · rw [hself, hwas, (at_benchmark h _).2, (at_benchmark h _).2]
      rfl
  · right
    have hall : (cascade t moves).AllAt (us u) 12 := by
      refine hf.allAt fun v ↦ ?_
      rw [hwas, (at_post h).1]
      have := hgate (decide_eq_true (by omega)) v
      exact at_least_post (by omega)
    have hnone : (roundOf Cascade.benchmark)[(cascade t moves).pos (us u)]? = none := by
      rw [(cascade_at t moves u).2, hwas, (at_post h).2]
      rfl
    refine ⟨_, by simp only [Cascade.step, hnone]; exact if_pos hall, ⟨moves, ?_⟩, hbound⟩
    rw [(cascade_at t moves u).1]
    have hr := at_update roundAt hother
    have hp := at_update posAt hother
    rw [hself, (at_next h 0).1, ← (at_post h).1, ← hwas] at hr
    rw [hself, (at_next h 0).2] at hp
    simp only [cascade, hr, hp]
    rfl

/-- Whoever has begun `benchmark` has seen all the others come through `benchmark_pre`. -/
theorem Follows.through_pre {s : Cascade.State (nthreads opt)} {k : ℕ} (hf : Follows t s)
    (ht : (Phases.system (callbacks opt).body (· = mapped _)).Reachable t)
    (hplace : (t.worker u).place = some k)
    (hc : callbackAt (t.worker u).calls = .benchmark) : s.AllAt (us u) 1 := by
  have hwas : t.worker u = ⟨(t.worker u).calls, some k⟩ := by rw [← hplace]
  have hmod : (t.worker u).calls % 3 = 1 := (mod_callbackAt _).trans (by rw [hc]; rfl)
  have hgate : (callbacks opt).body.gate (t.worker u).calls := decide_eq_true (by omega)
  refine hf.allAt fun v ↦ ?_
  have hle := Phases.gate_le ht (by simp [hplace]) hgate v
  rw [hwas, (at_benchmark hmod _).1]
  exact at_least_benchmark (by omega)

theorem Follows.move {s : Cascade.State (nthreads opt)} {k : ℕ} {x : Shared (nthreads opt)}
    {k' : Option ℕ} (ht : (Phases.system (callbacks opt).body (· = mapped _)).Reachable t)
    (hf : Follows t s) (hplace : (t.worker u).place = some k)
    (hbody : (callbacks opt).body.step u (t.worker u).calls t.shared k = some (x, k')) :
    Follows (t.move u x k') s ∨ ∃ s', Cascade.step Cascade.benchmark s (us u) = some s' ∧
      Follows (t.move u x k') s' := by
  obtain ⟨moves, rfl⟩ := hf.eq
  have hother (v : WorkerId opt) (hv : v ≠ u) : (t.move u x k').worker v = t.worker v :=
    Rounds.move_worker_of_ne _ hv
  have hwas : t.worker u = ⟨(t.worker u).calls, some k⟩ := by rw [← hplace]
  have hk := hf.bound u k hplace
  simp only [Callbacks.body, callbacks] at hbody
  cases hcall : (scriptOf (callbackAt (t.worker u).calls))[k]? with
  | none =>
    rw [hcall] at hbody
    cases hbody
    left
    have hself : (t.move u t.shared none).worker u = ⟨(t.worker u).calls + 1, none⟩ := by
      rw [Rounds.move_worker_self]
      rfl
    obtain ⟨h₁, h₂⟩ := at_back (le_antisymm hk (List.getElem?_eq_none_iff.mp hcall))
    rw [← hself, ← hwas] at h₁ h₂
    refine ⟨⟨moves, (cascade_stay hother rfl h₁ h₂ moves).symm⟩, fun v j hj ↦ ?_⟩
    by_cases hv : v = u
    · rw [hv, Rounds.move_place] at hj
      cases hj
    · rw [hother v hv] at hj ⊢
      exact hf.bound v j hj
  | some call =>
    rw [hcall] at hbody
    obtain ⟨locks, hlocks, he⟩ := Option.map_eq_some_iff.mp hbody
    cases he
    right
    obtain ⟨hround, hpos⟩ := roundOf_at hplace hcall
    have hstep : callStep (cascade t moves).locks (us u) ((cascade t moves).ready (us u)) call =
        some locks := by
      rw [ready_at hpos]
      exact hlocks
    have hguard : (cascade t moves).pos (us u) = 1 → (cascade t moves).AllAt (us u) 1 := by
      rw [(cascade_at t moves u).2]
      intro hone
      rcases hpos with ⟨-, hzero⟩ | ⟨hc, -⟩
      · omega
      · exact hf.through_pre ht hplace hc
    rw [← (cascade_at t moves u).2] at hround
    obtain ⟨h₁, h₂⟩ := at_call hcall
    have hself (x : Shared (nthreads opt)) :
        (t.move u x (some (k + 1))).worker u = ⟨(t.worker u).calls, some (k + 1)⟩ := by
      rw [Rounds.move_worker_self]
      rfl
    refine ⟨_, by simp only [Cascade.step, hround, if_pos hguard, hstep]; rfl,
      ⟨if call.isMove then moves ++ [((cascade t moves).round (us u),
          ((roundOf Cascade.benchmark).take ((cascade t moves).pos (us u))).countP Call.isMove,
          (us u).val)] else moves, ?_⟩, fun v j hj ↦ ?_⟩
    · have hr := at_update roundAt hother
      have hp := at_update posAt hother
      rw [hself, h₁, ← hwas] at hr
      rw [hself, h₂, ← hwas, ← (cascade_at t moves u).2] at hp
      rw [ready_at hpos]
      simp only [cascade, hr, hp]
      congr 1
      exact (Function.update_eq_iff.mpr ⟨by simp, fun _ _ ↦ rfl⟩).symm
    · by_cases hv : v = u
      · subst hv
        rw [Rounds.move_place] at hj
        cases hj
        rw [Rounds.move_calls]
        exact (List.getElem?_eq_some_iff.mp hcall).1
      · rw [hother v hv] at hj ⊢
        exact hf.bound v j hj

/-- The calls of `cascade_mutex` in the phases of the harness are those of the rounds. -/
theorem simulation (opt : Options) :
    Simulation (Phases.system (callbacks opt).body (· = mapped (nthreads opt)))
      (Cascade.system Cascade.benchmark (nthreads opt)) Follows where
  init t ht := by
    obtain ⟨x, rfl, rfl⟩ := ht
    refine ⟨Cascade.start _, rfl, ⟨[], ?_⟩, fun u k hk ↦ ?_⟩
    · obtain ⟨h₁, h₂⟩ := at_pre (n := 0) rfl none
      simp only [cascade, Rounds.start, h₁, h₂]
      rfl
    · cases hk
  step t s u t' ht _ hf hstep := by
    rcases Phases.step_cases hstep with ⟨hplace, hgate, rfl⟩ | ⟨k, x, k', hplace, hbody, rfl⟩
    · refine (hf.enter hplace hgate).imp_right fun h ↦ ?_
      obtain ⟨s', hs, hf'⟩ := h
      exact ⟨us u, s', hs, hf'⟩
    · refine (hf.move ht hplace hbody).imp_right fun h ↦ ?_
      obtain ⟨s', hs, hf'⟩ := h
      exact ⟨us u, s', hs, hf'⟩

end Simulation

section Run

variable {s : Loaded.State (WorkerId opt) (Shared (nthreads opt)) ℕ} {u : WorkerId opt}
  {t : Cascade.State (nthreads opt)}

theorem exists_cascade [Nonempty (WorkerId opt)] (hs : (system opt).Reachable s) :
    ∃ t, (Cascade.system Cascade.benchmark (nthreads opt)).Reachable t ∧ Follows s.phases t :=
  (simulation opt).reachable (Loaded.phases_reachable hs)

theorem Follows.locks (hf : Follows s.phases t) : t.locks = s.shared.locks := by
  obtain ⟨moves, rfl⟩ := hf.eq
  rfl

theorem Follows.tsd (hf : Follows s.phases t) : t.tsd = s.shared.tsd := by
  obtain ⟨moves, rfl⟩ := hf.eq
  rfl

theorem Follows.at (hf : Follows s.phases t) (u : WorkerId opt) :
    t.round (us u) = roundAt ⟨(s.harness.worker u).calls, s.place u⟩ ∧
      t.pos (us u) = posAt ⟨(s.harness.worker u).calls, s.place u⟩ := by
  obtain ⟨moves, rfl⟩ := hf.eq
  exact cascade_at s.phases moves u

theorem step_none {u : WorkerId opt} {c : Callback} {n k : ℕ} {x : Shared (nthreads opt)}
    (h : (callbacks opt).step u c n x k = none) : ∃ call, (scriptOf c)[k]? = some call ∧
      callStep x.locks (us u)
        (if c = .pre then assignLocks (nthreads opt) (us u) (x.tsd (us u)) else x.tsd (us u))
          call = none := by
  simp only [callbacks] at h
  cases hcall : (scriptOf c)[k]? with
  | none =>
    rw [hcall] at h
    cases h
  | some call =>
    rw [hcall] at h
    exact ⟨call, rfl, Option.map_eq_none_iff.mp h⟩

/-- Nobody waits in `benchmark_pre`. -/
theorem pre_goes (hf : Follows s.phases t) (hr : RingOk t) {k : ℕ}
    (hc : (s.harness.worker u).pc.callback = some .pre) (hplace : s.place u = some k) :
    (callbacks opt).step u .pre (s.harness.worker u).rounds s.shared k ≠ none := by
  intro hnone
  obtain ⟨call, hcall, hlocks⟩ := step_none hnone
  have hk := (List.getElem?_eq_some_iff.mp hcall).1
  obtain rfl : k = 0 := by simpa [scriptOf] using hk
  obtain rfl : benchmarkPre = call := Option.some.inj hcall
  have hat := (hf.at u).2
  have hmod : (s.harness.worker u).calls % 3 = 0 :=
    (mod_callbackAt _).trans (by rw [(Worker.calls_callback hc).1]; rfl)
  rw [hplace, (at_pre hmod _).2, Option.getD_some] at hat
  have hfree := hr.pre_free hat
  have hready := hr.tsd.ready (us u)
  rw [State.ready, if_pos hat] at hready
  rw [if_pos rfl, ← hf.locks, ← hf.tsd, hready] at hlocks
  simp only [callStep, benchmarkPre, hfree, if_true] at hlocks
  cases hlocks

/-- In `benchmark` somebody can always make the next call. -/
theorem benchmark_goes (hf : Follows s.phases t) (hr : RingOk t) {q i r : ℕ} (hm : MovesOk t q i)
    (hin : ∃ u, s.place u ≠ none)
    (hat : ∀ u, (s.harness.worker u).calls = 3 * r + 1 ∧ (∃ k, s.place u = some k ∧
        (callbacks opt).step u .benchmark r s.shared k = none) ∨
      (s.harness.worker u).calls = 3 * r + 2 ∧ s.place u = none) : False := by
  -- one that waits has made `k` calls
  have hwait {u : WorkerId opt} {k : ℕ} (hcalls : (s.harness.worker u).calls = 3 * r + 1)
      (hplace : s.place u = some k)
      (hnone : (callbacks opt).step u .benchmark r s.shared k = none) :
      t.round (us u) = r ∧ t.pos (us u) = 1 + k ∧
        ∃ call, Cascade.benchmark[k]? = some call ∧
          callStep t.locks (us u) (t.ready (us u)) call = none := by
    obtain ⟨hround, hpos⟩ := hf.at u
    obtain ⟨h₁, h₂⟩ := at_benchmark (n := (s.harness.worker u).calls) (by omega) (s.place u)
    rw [h₁] at hround
    rw [h₂, hplace] at hpos
    obtain ⟨call, hcall, hlocks⟩ := step_none hnone
    refine ⟨by omega, hpos, call, hcall, ?_⟩
    rw [State.ready, if_neg (by rw [hpos, Option.getD_some]; omega), hf.locks, hf.tsd]
    exact hlocks
  have hpost {u : WorkerId opt} (hcalls : (s.harness.worker u).calls = 3 * r + 2)
      (hplace : s.place u = none) : t.round (us u) = r ∧ t.pos (us u) = 12 := by
    obtain ⟨hround, hpos⟩ := hf.at u
    obtain ⟨h₁, h₂⟩ := at_post (n := (s.harness.worker u).calls) (by omega)
    rw [hplace, h₁] at hround
    rw [hplace, h₂] at hpos
    exact ⟨by omega, hpos⟩
  have hround (v : Fin (nthreads opt)) : t.round v = r := by
    obtain ⟨v, rfl⟩ := us.surjective v
    rcases hat v with ⟨hcalls, k, hplace, hnone⟩ | ⟨hcalls, hplace⟩
    · exact (hwait hcalls hplace hnone).1
    · exact (hpost hcalls hplace).1
  obtain ⟨w, hw⟩ := hin
  obtain ⟨k, hk, hkpos⟩ : ∃ k, k < 11 ∧ t.pos (us w) = 1 + k := by
    rcases hat w with ⟨hcalls, k, hplace, hnone⟩ | ⟨-, hplace⟩
    · obtain ⟨-, hpos, call, hcall, -⟩ := hwait hcalls hplace hnone
      exact ⟨k, (List.getElem?_eq_some_iff.mp hcall).1, hpos⟩
    · exact absurd hplace hw
  have hlen : (roundOf Cascade.benchmark).length = 12 := rfl
  obtain ⟨v, t', hstep⟩ := hr.progress hm ⟨us w, fun h ↦ by
    rw [State.Finished, hlen] at h
    omega⟩
  rcases Cascade.step_cases hstep with ⟨call, locks, hcall, -, hlocks, -⟩ | ⟨-, hall, -⟩
  · obtain ⟨v, rfl⟩ := us.surjective v
    rcases hat v with ⟨hcalls, j, hplace, hnone⟩ | ⟨hcalls, hplace⟩
    · obtain ⟨-, hpos, call', hcall', hnone'⟩ := hwait hcalls hplace hnone
      rw [hpos, Nat.add_comm] at hcall
      obtain rfl : call' = call := Option.some.inj (hcall'.symm.trans hcall)
      rw [hnone'] at hlocks
      cases hlocks
    · rw [(hpost hcalls hplace).2] at hcall
      cases hcall
  · rcases hall (us w) with h | ⟨-, h⟩
    · rw [hround, hround] at h
      omega
    · omega

theorem never_stuck [Nonempty (WorkerId opt)] (hs : (system opt).Reachable s) :
    (∀ u, (s.harness.worker u).pc.left) ∨ (system opt).Enabled (fun a ↦ a.isRun) s := by
  by_contra hne
  obtain ⟨hleft, hstuck⟩ := not_or.mp hne
  obtain ⟨t, ht, hf⟩ := exists_cascade hs
  have hr := reachable_ringOk ht
  rcases Loaded.stuck_cases hs hstuck with h | ⟨u, c, k, hc, hcall, hplace, hnone⟩ | ⟨r, hin, hat⟩
  · exact hleft h
  · cases c with
    | pre => exact pre_goes hf hr hcall hplace hnone
    | benchmark => exact hc rfl
    | post =>
      obtain ⟨call, hnext, -⟩ := step_none hnone
      cases hnext
  · have hN : 0 < nthreads opt := (us (Classical.arbitrary (WorkerId opt))).pos
    obtain ⟨q, i, hm⟩ := reachable_movesOk hN ht
    exact benchmark_goes hf hr hm hin hat

theorem free_of_left [Nonempty (WorkerId opt)] (hs : (system opt).Reachable s)
    (hleft : ∀ u, (s.harness.worker u).pc.left) (i : ℕ) : s.shared.locks i = none := by
  obtain ⟨t, ht, hf⟩ := exists_cascade hs
  by_contra hne
  obtain ⟨v, hv⟩ := Option.ne_none_iff_exists'.mp hne
  rw [← hf.locks] at hv
  obtain ⟨n, -, hheld⟩ := ((reachable_ringOk ht).locks i v).mp hv
  obtain ⟨u, rfl⟩ := us.surjective v
  obtain ⟨hcallback, hcalled⟩ := WorkerPc.left_called (hleft u)
  have hplace : s.place u = none := by
    by_contra h
    exact Loaded.placed hs _ h hcallback
  have hat := (hf.at u).2
  rw [hplace, (at_pre (n := (s.harness.worker u).calls)
    (by rw [Worker.calls, hcalled]; omega) none).2] at hat
  rw [hat] at hheld
  cases hheld

end Run

end LibMicro.Cascade.Run
