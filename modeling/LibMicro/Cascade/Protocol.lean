import LibMicro.Cascade.Order

namespace LibMicro.Cascade

open TransitionSystem

variable {N : ℕ} {s s' : State N} {u v w : Fin N}

/-- Two workers share a lock if one is the successor of the other, and the last and the
first worker crosswise. -/
theorem shared_lock {m n : LockName} (h : (ring N v).index m = (ring N u).index n)
    (hne : v.val ≠ u.val) :
    v.val + 1 = u.val ∧ (m = .them0 ∧ n = .us0 ∨ m = .them1 ∧ n = .us1) ∨
      u.val + 1 = v.val ∧ (m = .us0 ∧ n = .them0 ∨ m = .us1 ∧ n = .them1) ∨
      v.val + 1 = N ∧ u.val = 0 ∧ (m = .them0 ∧ n = .us1 ∨ m = .them1 ∧ n = .us0) ∨
      u.val + 1 = N ∧ v.val = 0 ∧ (m = .us1 ∧ n = .them0 ∨ m = .us0 ∧ n = .them1) := by
  have hu := ring_them u
  have hv := ring_them v
  have hu0 := ring_us0 N u
  have hu1 := ring_us1 N u
  have hv0 := ring_us0 N v
  have hv1 := ring_us1 N v
  cases m <;> cases n <;> simp <;> omega

theorem RingOk.pre_free (hr : RingOk s) (hp : s.pos u = 0) :
    s.locks ((ring N u).index .them0) = none := by
  by_contra hne
  obtain ⟨v, hv⟩ := Option.ne_none_iff_exists'.mp hne
  obtain ⟨m, hm, hh⟩ := (hr.locks _ v).mp hv
  have ht := held_table (s.pos v) (hr.bound v)
  have huv := hr.ahead u v
  have hvu := hr.ahead v u
  have hl := hr.level v u
  by_cases he : v = u
  · subst he
    rw [hp] at hh
    cases hh
  · have hne : v.val ≠ u.val := fun h ↦ he (Fin.ext h)
    rcases shared_lock hm hne with ⟨-, ⟨-, hn⟩ | ⟨-, hn⟩⟩ | ⟨-, ⟨rfl, -⟩ | ⟨-, hn⟩⟩ |
      ⟨-, -, ⟨-, hn⟩ | ⟨-, hn⟩⟩ | ⟨-, -, ⟨rfl, -⟩ | ⟨-, hn⟩⟩
    case inr.inl.inl => rw [ht.1] at hh; omega
    case inr.inr.inr.inl => rw [ht.2.1] at hh; omega
    all_goals cases hn

theorem block_positions {p : ℕ} {n : LockName} (h : (roundOf benchmark)[p]? = some (.block n)) :
    (p = 0 ∧ n = .them0 ∨ p = 1 ∧ n = .us0) ∧ Cascade.moved p = 0 ∨
      (p = 3 ∧ n = .them1 ∨ p = 5 ∧ n = .us1) ∧ Cascade.moved p = 1 ∨
      (p = 7 ∧ n = .them0 ∨ p = 9 ∧ n = .us0) ∧ Cascade.moved p = 2 := by
  have hp : p < 12 := (List.getElem?_eq_some_iff.mp h).1
  interval_cases p <;> cases h <;> decide

theorem MovesOk.compare {q i : ℕ} (hm : MovesOk s q i) (u v : Fin N) :
    s.moved v ≤ s.moved u + 1 ∧ (u.val < v.val → s.moved v ≤ s.moved u) := by
  have hu := hm.counts u
  have hv := hm.counts v
  split_ifs at hu hv <;> omega

/-- A worker that has to wait in `benchmark` waits for one that is earlier in
the order of the moves. -/
theorem RingOk.blocked (hr : RingOk s) {q i : ℕ} (hm : MovesOk s q i)
    (hround : ∀ v, s.round v = s.round u) (hpos : ∀ v, 1 ≤ s.pos v) {n : LockName}
    (hc : (roundOf benchmark)[s.pos u]? = some (.block n))
    (hv : s.locks ((ring N u).index n) = some v) :
    s.pos v < 12 ∧ ((s.pos v - 1) / 4 < (s.pos u - 1) / 4 ∨
      (s.pos v - 1) / 4 = (s.pos u - 1) / 4 ∧ v.val < u.val) := by
  have hne : v.val ≠ u.val := fun h ↦
    hr.locks.block balanced_benchmark hc (Fin.ext h ▸ hv)
  obtain ⟨m, hm', hh⟩ := (hr.locks _ v).mp hv
  obtain ⟨ht0, ht1, ht2, ht3⟩ := held_table (s.pos v) (hr.bound v)
  have huv := hm.compare u v
  have hvu := hm.compare v u
  have hmv := moved_table (s.pos v) (hr.bound v)
  have hpu := hpos u
  simp only [State.moved, hround v] at huv hvu
  rcases shared_lock hm' hne with ⟨h, ⟨rfl, rfl⟩ | ⟨rfl, rfl⟩⟩ | ⟨h, ⟨rfl, rfl⟩ | ⟨rfl, rfl⟩⟩ |
    ⟨h, h₀, ⟨rfl, rfl⟩ | ⟨rfl, rfl⟩⟩ | ⟨h, h₀, ⟨rfl, rfl⟩ | ⟨rfl, rfl⟩⟩
  all_goals
    simp only [ht0, ht1, ht2, ht3] at hh
    clear ht0 ht1 ht2 ht3
    rcases block_positions hc with ⟨⟨hp, hn⟩ | ⟨hp, hn⟩, hmu⟩ | ⟨⟨hp, hn⟩ | ⟨hp, hn⟩, hmu⟩ |
      ⟨⟨hp, hn⟩ | ⟨hp, hn⟩, hmu⟩
    all_goals first | (cases hn; done) | omega

theorem step_call {script : List Call} {c : Call} {locks : ℕ → Option (Fin N)}
    (hc : (roundOf script)[s.pos u]? = some c) (hall : s.pos u = 1 → s.AllAt u 1)
    (hs : callStep s.locks u (s.ready u) c = some locks) : ∃ s', step script s u = some s' := by
  simp only [step, hc, if_pos hall, hs]
  exact ⟨_, rfl⟩

theorem step_block {n : LockName} (hr : RingOk s)
    (hc : (roundOf benchmark)[s.pos u]? = some (.block n)) (hall : s.pos u = 1 → s.AllAt u 1)
    (hfree : s.locks ((ring N u).index n) = none) : ∃ s', step benchmark s u = some s' :=
  step_call hc hall (by rw [hr.tsd.ready]; exact if_pos hfree)

theorem RingOk.progress_between (hr : RingOk s)
    (h : (∃ u v, s.round u < s.round v) ∨ ∃ u, s.pos u = 0) :
    ∃ u s', Cascade.step benchmark s u = some s' := by
  have hlen : (roundOf benchmark).length = 12 := rfl
  rcases h with ⟨u, v, huv⟩ | ⟨u, hp⟩
  · have hpu := (hr.ahead u v huv).2.1
    have hc : (roundOf benchmark)[s.pos u]? = none := by rw [hpu]; rfl
    have hall : s.AllAt u (roundOf benchmark).length := by
      intro w
      have hwv := hr.ahead w v
      have huv' := hr.ahead u v huv
      rw [hlen]
      omega
    exact ⟨u, { s with
      round := Function.update s.round u (s.round u + 1)
      pos := Function.update s.pos u 0 }, by simp only [Cascade.step, hc, if_pos hall]⟩
  · have hc : (roundOf benchmark)[s.pos u]? = some (.block .them0) := by rw [hp]; rfl
    exact ⟨u, step_block hr hc (by omega) (hr.pre_free hp)⟩

theorem RingOk.progress (hr : RingOk s) {q i : ℕ} (hm : MovesOk s q i)
    (hu : ∃ u, ¬ s.Finished benchmark u) : ∃ u s', Cascade.step benchmark s u = some s' := by
  by_cases hb : (∃ u v, s.round u < s.round v) ∨ ∃ u, s.pos u = 0
  · exact hr.progress_between hb
  have hround (u v) : s.round v = s.round u := by
    by_contra hne
    rcases lt_or_gt_of_ne hne with h | h
    · exact hb (.inl ⟨v, u, h⟩)
    · exact hb (.inl ⟨u, v, h⟩)
  have hpos (v) : 1 ≤ s.pos v := Nat.one_le_iff_ne_zero.mpr fun h ↦ hb (.inr ⟨v, h⟩)
  have hlen (v) : s.Finished benchmark v ↔ s.pos v = 12 := Iff.rfl
  obtain ⟨u, hmem, hmin⟩ := Finset.exists_min_image
    (Finset.univ.filter fun v ↦ s.pos v ≠ 12) (fun v ↦ toLex ((s.pos v - 1) / 4, v.val))
    (by obtain ⟨u, hu⟩ := hu; exact ⟨u, by simpa [hlen] using hu⟩)
  have hpu : s.pos u ≠ 12 := by simpa using hmem
  have hbu := hr.bound u
  obtain ⟨c, hc⟩ : ∃ c, (roundOf benchmark)[s.pos u]? = some c :=
    ⟨_, List.getElem?_eq_getElem (show s.pos u < 12 by omega)⟩
  have hall : s.pos u = 1 → s.AllAt u 1 := fun _ v ↦ .inr ⟨hround u v, hpos v⟩
  cases c with
  | unblock n => exact ⟨u, step_call hc hall rfl⟩
  | block n =>
    rcases Option.eq_none_or_eq_some (s.locks ((ring N u).index n)) with hfree | ⟨v, hv⟩
    · exact ⟨u, step_block hr hc hall hfree⟩
    · obtain ⟨hlt, hearlier⟩ := hr.blocked hm (hround u) hpos hc hv
      have hle := hmin v (by simp; omega)
      rw [Prod.Lex.toLex_le_toLex] at hle
      simp only at hle
      omega

/-- The ring of `cascade_mutex` never deadlocks, no lock is taken twice or
released by another worker, and a round ends as it has begun. -/
theorem cascade_no_deadlock (N : ℕ) (s : State N) (hs : (system benchmark N).Reachable s) :
    (∀ u, s.pos u = 0 → s.locks ((s.ready u).index .them0) = none) ∧
    ((∃ u, ¬ s.Finished benchmark u) → ∃ u s', step benchmark s u = some s') ∧
    (∀ u n, ((roundOf benchmark)[s.pos u]? = some (.unblock n) →
        s.locks ((s.ready u).index n) = some u) ∧
      ((roundOf benchmark)[s.pos u]? = some (.block n) →
        s.locks ((s.ready u).index n) ≠ some u)) ∧
    ((∀ u, s.Finished benchmark u) → ∀ i, s.locks i = none) := by
  have hr := reachable_ringOk hs
  refine ⟨fun u hp ↦ hr.tsd.ready u ▸ hr.pre_free hp, fun hu ↦ ?_, fun u n ↦ ?_,
    hr.locks.free balanced_benchmark⟩
  · have hN : 0 < N := by
      obtain ⟨u, -⟩ := hu
      exact Nat.zero_lt_of_lt u.isLt
    obtain ⟨q, i, hm⟩ := reachable_movesOk hN hs
    exact hr.progress hm hu
  · rw [hr.tsd.ready]
    exact ⟨hr.locks.unblock balanced_benchmark, hr.locks.block balanced_benchmark⟩

/-- In the middle of a round, where the last of three workers hands the batten on, and at its
end. -/
theorem cascade_no_deadlock_three :
    let s := (system benchmark 3).turns (start 3) (inTurn 3 10)
    let t := (system benchmark 3).turns (start 3) (inTurn 3 26)
    (s.pos 0 = 5 ∧ s.pos 1 = 5 ∧ (roundOf benchmark)[s.pos 2]? = some (.unblock .them0) ∧
      s.locks ((s.ready 2).index .them0) = some 2 ∧ s.locks ((s.ready 0).index .us1) ≠ some 0 ∧
      ∃ u s', step benchmark s u = some s') ∧
    (∀ u, t.Finished benchmark u) ∧ ∀ i, t.locks i = none := by
  intro s t
  have hs := cascade_no_deadlock 3 s (System.turns_reachable (A := system benchmark 3) rfl _)
  have ht := cascade_no_deadlock 3 t (System.turns_reachable (A := system benchmark 3) rfl _)
  have hmid : s.pos 0 = 5 ∧ s.pos 1 = 5 ∧ s.pos 2 = 4 := by decide +kernel
  have hend : ∀ u, t.pos u = 12 := by decide +kernel
  clear_value s t
  obtain ⟨h0, h1, h2⟩ := hmid
  have hunblock : (roundOf benchmark)[s.pos 2]? = some (.unblock .them0) := by rw [h2]; rfl
  have hblock : (roundOf benchmark)[s.pos 0]? = some (.block .us1) := by rw [h0]; rfl
  exact ⟨⟨h0, h1, hunblock, (hs.2.2.1 2 .them0).1 hunblock, (hs.2.2.1 0 .us1).2 hblock,
    hs.2.1 ⟨2, by rw [State.Finished, h2]; decide⟩⟩, hend, ht.2.2.2 hend⟩

/-- After `benchmark_pre` the batten lies with worker 0. -/
theorem RingOk.first_free (hr : RingOk s) (hp : ∀ u, s.pos u = 1) (u : Fin N) :
    s.locks ((ring N u).index .us0) = none ↔ u.val = 0 := by
  have h0 := ring_us0 N u
  have hu := u.isLt
  constructor
  · intro hfree
    by_contra hz
    have hring := ring_them (N := N) ⟨u.val - 1, by omega⟩
    have hn := hr.not_held hfree (u := ⟨u.val - 1, by omega⟩) (n := .them0)
      (by simp only at hring ⊢; omega)
    rw [hp] at hn
    exact hn rfl
  · intro hz
    rcases Option.eq_none_or_eq_some (s.locks ((ring N u).index .us0)) with hfree | ⟨v, hv⟩
    · exact hfree
    · obtain ⟨m, hm, hh⟩ := (hr.locks _ v).mp hv
      rw [hp] at hh
      have hring := ring_them v
      cases m with
      | us0 | us1 | them1 => cases hh
      | them0 => omega

theorem MovesOk.finished {q i r : ℕ} (hm : MovesOk s q i)
    (hf : ∀ u, s.Finished benchmark u ∧ s.round u = r) : s.moves.length = (r + 1) * (3 * N) := by
  have hmoved (u) : s.moved u = 3 * (r + 1) := by
    rw [State.moved, (hf u).2, show s.pos u = 12 from (hf u).1]
    rfl
  have hlt := hm.lt
  have hfirst := hm.counts ⟨0, by omega⟩
  have hlast := hm.counts ⟨N - 1, by omega⟩
  rw [hmoved, if_neg (by simp only; omega)] at hlast
  rw [hmoved] at hfirst
  have hi : i = 0 := by
    by_contra hne
    rw [if_pos (by simp only; omega)] at hfirst
    omega
  rw [hm.moves, List.length_map, List.length_range, hi, show q = 3 * (r + 1) by omega,
    Nat.add_zero, Nat.mul_comm 3, Nat.mul_assoc]

/-- The batten goes round from worker 0 three times a round, whichever way the
scripts interleave. -/
theorem batten_order (N : ℕ) (hN : 1 ≤ N) (s : State N)
    (hs : (system benchmark N).Reachable s) :
    s.moves = (List.range s.moves.length).map (fun m ↦ (m / N / 3, m / N % 3, m % N)) ∧
    (∀ r, (∀ u, s.Finished benchmark u ∧ s.round u = r) →
      s.moves.length = (r + 1) * (3 * N)) ∧
    ((∀ u, s.pos u = 1) → ∀ u, s.locks ((s.ready u).index .us0) = none ↔ u.val = 0) ∧
    (∀ u v, v.val = (u.val + 1) % N → s.moved v ≤ s.handed u + if v.val = 0 then 1 else 0) := by
  have hr := reachable_ringOk hs
  obtain ⟨q, i, hm⟩ := reachable_movesOk hN hs
  refine ⟨?_, fun r ↦ hm.finished, fun hp u ↦ ?_, fun u v hv ↦ ?_⟩
  · conv_rhs => rw [hm.moves, List.length_map, List.length_range]
    exact hm.moves
  · rw [hr.tsd.ready]
    exact hr.first_free hp u
  · have hu := u.isLt
    rcases Nat.lt_or_ge (u.val + 1) N with h | h
    · rw [Nat.mod_eq_of_lt h] at hv
      rw [if_neg (by omega)]
      exact hr.straight u v hv.symm
    · rw [show u.val + 1 = N by omega, Nat.mod_self] at hv
      rw [if_pos hv]
      exact hr.crossed u v (by omega) hv

/-- The moves of three workers in their first round. -/
theorem batten_order_three :
    let s := (system benchmark 3).turns (start 3) (inTurn 3 1)
    let t := (system benchmark 3).turns (start 3) (inTurn 3 26)
    (∀ u : Fin 3, s.locks ((s.ready u).index .us0) = none ↔ u.val = 0) ∧
    (∀ u, t.Finished benchmark u ∧ t.round u = 0) ∧ t.moves.length = (0 + 1) * (3 * 3) ∧
    t.moves = [(0, 0, 0), (0, 0, 1), (0, 0, 2), (0, 1, 0), (0, 1, 1), (0, 1, 2), (0, 2, 0),
      (0, 2, 1), (0, 2, 2)] ∧
    t.moved 1 ≤ t.handed 0 + if (1 : Fin 3).val = 0 then 1 else 0 := by
  intro s t
  have hs := batten_order 3 (by decide) s (System.turns_reachable (A := system benchmark 3) rfl _)
  have ht := batten_order 3 (by decide) t (System.turns_reachable (A := system benchmark 3) rfl _)
  have hpre : ∀ u, s.pos u = 1 := by decide +kernel
  have hend : ∀ u, t.pos u = 12 ∧ t.round u = 0 := by decide +kernel
  clear_value s t
  have hlen := ht.2.1 0 hend
  refine ⟨hs.2.2.1 hpre, hend, hlen, ?_, ht.2.2.2 0 1 rfl⟩
  rw [ht.1, hlen]
  rfl

end LibMicro.Cascade
