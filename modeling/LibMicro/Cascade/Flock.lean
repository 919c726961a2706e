import LibMicro.Cascade.Protocol

namespace LibMicro.Cascade

open TransitionSystem

/-- The protocol of the ring, over all runs of a script. -/
structure FollowsCascade (script : List Call) (N : ℕ) : Prop where
  progress : ∀ s, (system script N).Reachable s → (∀ u, 1 ≤ s.pos u) →
    (∃ u, ¬ s.Finished script u) → ∃ u s', step script s u = some s'
  unblock : ∀ s u n, (system script N).Reachable s →
    (roundOf script)[s.pos u]? = some (.unblock n) → s.locks ((s.ready u).index n) = some u
  clean : ∀ s, (system script N).Reachable s → (∀ u, s.Finished script u) → ∀ i, s.locks i = none

variable {N : ℕ} {s s' : State N} {u v w : Fin N}

theorem followsCascade_benchmark (N : ℕ) : FollowsCascade benchmark N where
  progress s hs _ hu := by
    obtain ⟨u, -⟩ := id hu
    obtain ⟨q, i, hm⟩ := reachable_movesOk (Nat.zero_lt_of_lt u.isLt) hs
    exact (reachable_ringOk hs).progress hm hu
  unblock s u n hs hc := by
    rw [(reachable_ringOk hs).tsd.ready]
    exact (reachable_ringOk hs).locks.unblock balanced_benchmark hc
  clean s hs hf := (reachable_ringOk hs).locks.free balanced_benchmark hf

theorem callStep_keep {locks locks' : ℕ → Option (Fin N)} {ts : TsdT} {c : Call} {i : ℕ}
    (h : callStep locks u ts c = some locks') (hi : locks i = some v)
    (hc : v = u → ∀ n, c = .unblock n → ts.index n ≠ i) : locks' i = some v := by
  cases c with
  | block n =>
    simp only [callStep] at h
    split_ifs at h with hfree
    cases h
    rw [Function.update_of_ne, hi]
    rintro rfl
    rw [hfree] at hi
    cases hi
  | unblock n =>
    simp only [callStep] at h
    cases h
    split_ifs with hown
    · rw [Function.update_of_ne, hi]
      rintro rfl
      rw [hown] at hi
      cases hi
      exact hc rfl n rfl rfl
    · exact hi

theorem callStep_got {locks locks' : ℕ → Option (Fin N)} {ts : TsdT} {n : LockName}
    (h : callStep locks u ts (.block n) = some locks') : locks' (ts.index n) = some u := by
  simp only [callStep] at h
  split_ifs at h
  cases h
  exact Function.update_self ..

/-- Two neighbours in the first round of `cascade_flock`. The worker `a` takes
the second lock of `b` and never gives it back. -/
structure Jam (a b : Fin N) (s : State N) : Prop where
  tsd : TsdOk s
  round : ∀ v, s.round v = 0
  bound : ∀ v, s.pos v ≤ 8
  pre : (∀ v, 1 ≤ s.pos v) ∨ (∀ v, s.pos v ≤ 1) ∧
    ∀ i v, s.locks i = some v → (ring N v).index .them0 = i ∧ s.pos v = 1
  them0 : 1 ≤ s.pos a → s.pos a ≤ 4 → s.locks 2 = some a
  them1 : 4 ≤ s.pos a → s.locks 3 = some a
  behind : 2 ≤ s.pos b → 5 ≤ s.pos a
  jammed : s.pos b ≤ 5

theorem start_jam (a b : Fin N) : Jam a b (start N) where
  tsd _ := .inr ⟨rfl, rfl⟩
  round _ := rfl
  bound _ := Nat.zero_le 8
  pre := .inr ⟨fun _ ↦ Nat.zero_le 1, fun _ _ h ↦ by cases h⟩
  them0 h := by simp [start] at h
  them1 h := by simp [start] at h
  behind h := by simp [start] at h
  jammed := Nat.zero_le 5

theorem Jam.step_cases {a b : Fin N} (hj : Jam a b s) (h : step flockBenchmark s u = some s') :
    ∃ c locks, (roundOf flockBenchmark)[s.pos u]? = some c ∧ (s.pos u = 1 → ∀ v, 1 ≤ s.pos v) ∧
      callStep s.locks u (ring N u) c = some locks ∧ s'.locks = locks ∧ s'.round = s.round ∧
      s'.pos = Function.update s.pos u (s.pos u + 1) := by
  rcases Cascade.step_cases h with ⟨c, locks, hc, hall, hs, rfl⟩ | ⟨-, hall, rfl⟩
  · refine ⟨c, locks, hc, fun hp v ↦ ?_, hj.tsd.ready u ▸ hs, rfl, rfl, rfl⟩
    have hv := hall hp v
    have hru := hj.round u
    have hrv := hj.round v
    omega
  · have hb := hall b
    have hru := hj.round u
    have hrb := hj.round b
    have hjam := hj.jammed
    have hlen : (roundOf flockBenchmark).length = 8 := rfl
    omega

theorem them0_injective (h : (ring N u).index .them0 = (ring N v).index .them0) : u = v := by
  rw [ring_index, ring_index] at h
  exact port_them0_injective (Layout.pairs.place_injective h)

/-- All workers get through `benchmark_pre` before one begins `benchmark`. -/
theorem Jam.pre_step {a b : Fin N} (hj : Jam a b s) (h : step flockBenchmark s u = some s') :
    (∀ v, 1 ≤ s'.pos v) ∨ (∀ v, s'.pos v ≤ 1) ∧
      ∀ i v, s'.locks i = some v → (ring N v).index .them0 = i ∧ s'.pos v = 1 := by
  obtain ⟨c, locks, hc, hall, hs, rfl, -, hpos⟩ := hj.step_cases h
  have hmono (v) : s.pos v ≤ s'.pos v := by
    rw [hpos]
    by_cases hv : v = u
    · subst hv; simp
    · rw [Function.update_of_ne hv]
  by_cases hone : ∀ v, 1 ≤ s.pos v
  · exact .inl fun v ↦ (hone v).trans (hmono v)
  · obtain ⟨hle, hheld⟩ := hj.pre.resolve_left hone
    have hp : s.pos u = 0 := by
      have hu := hle u
      by_contra hne
      exact hone (hall (by omega))
    rw [hp] at hc hpos
    cases hc
    refine .inr ⟨fun v ↦ ?_, fun i v hi ↦ ?_⟩
    · rw [hpos]
      by_cases hv : v = u
      · subst hv; simp
      · rw [Function.update_of_ne hv]
        exact hle v
    · simp only [callStep, benchmarkPre] at hs
      split_ifs at hs with hfree
      have hs := Option.some.inj hs
      rw [← hs] at hi
      rw [hpos]
      by_cases he : i = (ring N u).index .them0
      · subst he
        rw [Function.update_self] at hi
        cases hi
        exact ⟨rfl, Function.update_self ..⟩
      · rw [Function.update_of_ne he] at hi
        obtain ⟨hidx, hpv⟩ := hheld i v hi
        have hv : v ≠ u := by rintro rfl; omega
        rw [Function.update_of_ne hv]
        exact ⟨hidx, hpv⟩

theorem flock_unblock {p : ℕ} {n : LockName}
    (h : (roundOf flockBenchmark)[p]? = some (.unblock n)) : n = .us0 ∨ n = .them0 ∧ 4 ≤ p := by
  have hp : p < 8 := (List.getElem?_eq_some_iff.mp h).1
  interval_cases p <;> cases h <;> simp

section Steps

variable {a b : Fin N} (hj : Jam a b s) (h : step flockBenchmark s u = some s')
include hj h

theorem Jam.pos_self : s'.pos u = s.pos u + 1 := by
  obtain ⟨-, -, -, -, -, -, -, hpos⟩ := hj.step_cases h
  rw [hpos, Function.update_self]

theorem Jam.pos_of_ne (hv : v ≠ u) : s'.pos v = s.pos v := by
  obtain ⟨-, -, -, -, -, -, -, hpos⟩ := hj.step_cases h
  rw [hpos, Function.update_of_ne hv]

theorem Jam.pos_mono (v : Fin N) : s.pos v ≤ s'.pos v := by
  by_cases hv : v = u
  · subst hv
    rw [hj.pos_self h]
    exact Nat.le_succ _
  · rw [hj.pos_of_ne h hv]

theorem Jam.bound_step (v : Fin N) : s'.pos v ≤ 8 := by
  obtain ⟨c, -, hc, -⟩ := hj.step_cases h
  have hlt : s.pos u < 8 := (List.getElem?_eq_some_iff.mp hc).1
  by_cases hv : v = u
  · subst hv
    rw [hj.pos_self h]
    exact hlt
  · rw [hj.pos_of_ne h hv]
    exact hj.bound v

theorem Jam.them0_step (ha : a.val = 0) (hN : 2 ≤ N) (h1 : 1 ≤ s'.pos a) (h4 : s'.pos a ≤ 4) :
    s'.locks 2 = some a := by
  obtain ⟨c, locks, hc, -, hs, rfl, -⟩ := hj.step_cases h
  have hat := ring_them a
  by_cases hu : a = u
  · subst hu
    rw [hj.pos_self h] at h4
    rcases Nat.eq_zero_or_pos (s.pos a) with hp | hp
    · rw [hp] at hc
      cases hc
      have hgot := callStep_got hs
      have htwo : (ring N a).index .them0 = 2 := by omega
      rwa [htwo] at hgot
    · have ha0 := ring_us0 N a
      refine callStep_keep hs (hj.them0 hp (by omega)) fun _ n hn ↦ ?_
      subst hn
      rcases flock_unblock hc with rfl | ⟨-, h5⟩ <;> omega
  · rw [hj.pos_of_ne h hu] at h1 h4
    exact callStep_keep hs (hj.them0 h1 h4) fun he ↦ absurd he hu

theorem Jam.them1_step (ha : a.val = 0) (hN : 2 ≤ N) (h4 : 4 ≤ s'.pos a) :
    s'.locks 3 = some a := by
  obtain ⟨c, locks, hc, -, hs, rfl, -⟩ := hj.step_cases h
  have hat := ring_them a
  by_cases hu : a = u
  · subst hu
    rw [hj.pos_self h] at h4
    rcases Nat.lt_or_ge 3 (s.pos a) with hp | hp
    · have ha0 := ring_us0 N a
      refine callStep_keep hs (hj.them1 hp) fun _ n hn ↦ ?_
      subst hn
      rcases flock_unblock hc with rfl | ⟨rfl, -⟩ <;> omega
    · have hthree : s.pos a = 3 := by omega
      rw [hthree] at hc
      cases hc
      have hgot := callStep_got hs
      have hindex : (ring N a).index .them1 = 3 := by omega
      rwa [hindex] at hgot
  · rw [hj.pos_of_ne h hu] at h4
    exact callStep_keep hs (hj.them1 h4) fun he ↦ absurd he hu

theorem Jam.behind_step (hb : b.val = 1) (h2 : 2 ≤ s'.pos b) : 5 ≤ s'.pos a := by
  obtain ⟨c, locks, hc, hall, hs, -⟩ := hj.step_cases h
  by_cases hu : b = u
  · subst hu
    rw [hj.pos_self h] at h2
    by_cases hp : s.pos b = 1
    · have hone := hall hp a
      rw [hp] at hc
      cases hc
      have hfree := callStep_block hs
      have hindex : (ring N b).index .us0 = 2 := by
        have hb0 := ring_us0 N b
        omega
      rw [hindex] at hfree
      by_contra hlt
      have hmono := hj.pos_mono h a
      rw [hj.them0 hone (by omega)] at hfree
      cases hfree
    · exact (hj.behind (by omega)).trans (hj.pos_mono h a)
  · rw [hj.pos_of_ne h hu] at h2
    exact (hj.behind h2).trans (hj.pos_mono h a)

theorem Jam.jammed_step (hb : b.val = 1) : s'.pos b ≤ 5 := by
  obtain ⟨c, locks, hc, -, hs, -⟩ := hj.step_cases h
  have hjam := hj.jammed
  by_cases hu : b = u
  · subst hu
    rw [hj.pos_self h]
    by_contra hlt
    have hp : s.pos b = 5 := by omega
    rw [hp] at hc
    cases hc
    have hfree := callStep_block hs
    have hbehind := hj.behind (by omega)
    have hindex : (ring N b).index .us1 = 3 := by
      have hb1 := ring_us1 N b
      omega
    rw [hindex, hj.them1 (by omega)] at hfree
    cases hfree
  · rw [hj.pos_of_ne h hu]
    exact hjam

theorem Jam.step (ha : a.val = 0) (hb : b.val = 1) : Jam a b s' where
  tsd := hj.tsd.step h
  round v := by
    obtain ⟨-, -, -, -, -, -, hround, -⟩ := hj.step_cases h
    rw [hround]
    exact hj.round v
  bound := hj.bound_step h
  pre := hj.pre_step h
  them0 := hj.them0_step h ha (hb.symm.trans_lt b.isLt)
  them1 := hj.them1_step h ha (hb.symm.trans_lt b.isLt)
  behind := hj.behind_step h hb
  jammed := hj.jammed_step h hb

end Steps

/-- With two workers or more every run of `cascade_flock` ends in a deadlock
of its first round. -/
theorem flock_stuck (hN : 2 ≤ N) : ∃ s, (system flockBenchmark N).Reachable s ∧
    (∀ u, 1 ≤ s.pos u) ∧ (∃ u, ¬ s.Finished flockBenchmark u) ∧
    ∀ u, step flockBenchmark s u = none := by
  obtain ⟨a, ha⟩ : ∃ a : Fin N, a.val = 0 := ⟨⟨0, by omega⟩, rfl⟩
  obtain ⟨b, hb⟩ : ∃ b : Fin N, b.val = 1 := ⟨⟨1, by omega⟩, rfl⟩
  obtain ⟨l, t, -, hr, hj, hstuck⟩ := System.exists_stuck_of_counter
    (A := system flockBenchmark N) (P := fun _ ↦ True) (I := Jam a b) State.pos 8
    (fun s u s' hj _ hst ↦ by
      have hst : step flockBenchmark s u = some s' := hst
      obtain ⟨c, locks, hc, -, -, -, -, hpos⟩ := hj.step_cases hst
      have hlt : s.pos u < 8 := (List.getElem?_eq_some_iff.mp hc).1
      exact ⟨hj.step hst ha hb, u, s.pos u + 1, Nat.lt_succ_self _, hlt, hpos⟩) (start_jam a b)
  have hnone (u) : step flockBenchmark t u = none := by
    by_contra hne
    obtain ⟨t', ht'⟩ := Option.ne_none_iff_exists'.mp hne
    exact hstuck ⟨u, t', trivial, ht'⟩
  refine ⟨t, hr.reachable (.start rfl), fun u ↦ ?_, ⟨b, ?_⟩, hnone⟩
  · by_contra hp
    have hp : t.pos u = 0 := by omega
    have hfree : t.locks ((ring N u).index .them0) = none := by
      rcases Option.eq_none_or_eq_some (t.locks ((ring N u).index .them0)) with h | ⟨v, h⟩
      · exact h
      · obtain ⟨hidx, hpv⟩ := (hj.pre.resolve_left fun h ↦ by have := h u; omega).2 _ v h
        rw [them0_injective hidx] at hpv
        omega
    have hst := hnone u
    rw [step, hp] at hst
    simp [roundOf, benchmarkPre, callStep, hj.tsd.ready, hfree] at hst
  · have hjam := hj.jammed
    have hlen : (roundOf flockBenchmark).length = 8 := rfl
    rw [State.Finished]
    omega

def soloLocks (p i : ℕ) : Option (Fin 1) :=
  if i = 0 ∧ (p = 2 ∨ 4 ≤ p ∧ p ≤ 7) ∨ i = 1 ∧ (1 ≤ p ∧ p ≤ 4 ∨ p = 6) then some ⟨0, Nat.one_pos⟩
  else none

theorem soloLocks_call {p : ℕ} {c : Call} (hc : (roundOf flockBenchmark)[p]? = some c) :
    callStep (soloLocks p) 0 (ring 1 0) c = some (soloLocks (p + 1)) := by
  have hp : p < 8 := (List.getElem?_eq_some_iff.mp hc).1
  interval_cases p <;> cases hc <;>
    refine congrArg some (funext fun i ↦ ?_) <;>
    rcases i with _ | _ | i <;> rfl

structure Solo (s : State 1) : Prop where
  tsd : TsdOk s
  bound : s.pos 0 ≤ 8
  locks : s.locks = soloLocks (s.pos 0)

theorem reachable_solo {s : State 1} (hs : (system flockBenchmark 1).Reachable s) : Solo s := by
  refine hs.invariant (I := Solo) ?_ ?_
  · rintro s rfl
    exact ⟨fun _ ↦ .inr ⟨rfl, rfl⟩, Nat.zero_le 8, funext fun i ↦ by simp [start, soloLocks]⟩
  · intro s u s' _ hi hst
    have hst : step flockBenchmark s u = some s' := hst
    obtain rfl : u = 0 := Subsingleton.elim u 0
    have htsd := hi.tsd.step hst
    rcases step_cases hst with ⟨c, locks, hc, -, hs, rfl⟩ | ⟨hp, -, rfl⟩
    · have hlt : s.pos 0 < 8 := (List.getElem?_eq_some_iff.mp hc).1
      rw [hi.tsd.ready, hi.locks] at hs
      have he := (soloLocks_call hc).symm.trans hs
      refine ⟨htsd, ?_, ?_⟩
      · simpa only [Function.update_self] using Nat.succ_le_of_lt hlt
      · simpa only [Function.update_self] using (Option.some.inj he).symm
    · have hp : s.pos 0 = 8 := le_antisymm hi.bound hp
      refine ⟨htsd, ?_, ?_⟩
      · simp
      · simp only [Function.update_self, hi.locks, hp]
        exact funext fun i ↦ by simp [soloLocks]

theorem followsCascade_solo : FollowsCascade flockBenchmark 1 where
  progress s hs hone hu := by
    have hi := reachable_solo hs
    obtain ⟨u, hu⟩ := hu
    obtain rfl : u = 0 := Subsingleton.elim u 0
    have hlt : s.pos 0 < 8 := lt_of_le_of_ne hi.bound hu
    obtain ⟨c, hc⟩ : ∃ c, (roundOf flockBenchmark)[s.pos 0]? = some c :=
      ⟨_, List.getElem?_eq_getElem hlt⟩
    have hall : s.pos 0 = 1 → s.AllAt 0 1 := fun _ v ↦
      .inr ⟨congrArg s.round (Subsingleton.elim v 0), hone v⟩
    exact ⟨0, step_call hc hall (by rw [hi.tsd.ready, hi.locks]; exact soloLocks_call hc)⟩
  unblock s u n hs hc := by
    have hi := reachable_solo hs
    obtain rfl : u = 0 := Subsingleton.elim u 0
    have hlt : s.pos 0 < 8 := (List.getElem?_eq_some_iff.mp hc).1
    rw [hi.tsd.ready, hi.locks]
    generalize s.pos 0 = p at hc hlt
    interval_cases p <;> cases hc <;> rfl
  clean s hs hf i := by
    have hi := reachable_solo hs
    rw [hi.locks, show s.pos 0 = 8 from hf 0]
    simp [soloLocks]

theorem flock_follows_iff (N : ℕ) (hN : 1 ≤ N) : FollowsCascade flockBenchmark N ↔ N = 1 := by
  constructor
  · intro h
    by_contra hne
    obtain ⟨s, hs, hone, hu, hnone⟩ := flock_stuck (N := N) (by omega)
    obtain ⟨u, s', hst⟩ := h.progress s hs hone hu
    rw [hnone] at hst
    cases hst
  · rintro rfl
    exact followsCascade_solo

theorem flock_follows_iff_one : FollowsCascade flockBenchmark 1 :=
  (flock_follows_iff 1 (by decide)).mpr rfl

/-- The first worker has finished and keeps the lock for which the second one waits. -/
theorem flock_jams : ¬ FollowsCascade flockBenchmark 2 := by
  have h : ((system flockBenchmark 2).exec (start 2) [0, 1, 0, 0, 0, 0, 1, 1, 1, 1, 0, 0, 0]).map
      (fun s ↦ (s.pos 0, s.pos 1, (step flockBenchmark s 0).isNone,
        (step flockBenchmark s 1).isNone)) = some (8, 5, true, true) := by
    decide +kernel
  obtain ⟨s, hs, he⟩ := Option.map_eq_some_iff.mp h
  simp only [Prod.mk.injEq, Option.isNone_iff_eq_none] at he
  obtain ⟨h0, h1, hn0, hn1⟩ := he
  intro hf
  obtain ⟨u, s', hst⟩ := hf.progress s (System.exec_reachable hs rfl)
    (Fin.forall_fin_two.mpr ⟨by omega, by omega⟩)
    ⟨1, by rw [State.Finished, h1]; decide⟩
  rcases Fin.exists_fin_two.mp ⟨u, rfl⟩ with rfl | rfl
  · rw [hn0] at hst
    cases hst
  · rw [hn1] at hst
    cases hst

end LibMicro.Cascade
