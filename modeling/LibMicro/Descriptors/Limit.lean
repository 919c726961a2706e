import LibMicro.Descriptors.Run

namespace LibMicro.Descriptors

open TransitionSystem DescriptorTable Harness

variable {opt : Options} {prog : Program} {ι : Type} {I J : Finset ℕ} {privileged : Bool}
  {faults : ι → Callback → ℕ → ℕ → Bool} {limit lmOptT : ℕ} {rlimit rlimit' : Rlimit}

theorem le_setfdlimit (h : setfdlimit privileged limit rlimit = some rlimit') :
    limit ≤ rlimit'.rlimCur := by
  unfold setfdlimit at h
  split_ifs at h with hcur hmax hpriv
  · cases h
    exact hcur.le
  · cases h
    exact le_rfl
  · cases h
    exact le_rfl

theorem used_inherited (I : Finset ℕ) : (inherited I : Fds lmOptT).used = (I : Set ℕ) := by
  ext j
  by_cases hj : j ∈ I <;> simp [mem_used, inherited, hj]

/-- Besides `T` descriptors for the threads there is room for those that were open before, and
for the `fd` of `dup`. -/
theorem initrun_room {e : Env ι} (hsetsockopt : prog ≠ .setsockopt) (hI : I.card ≤ 9)
    (h : benchmarkInitrun privileged false faults lmOptT rlimit I prog = some (e, J)) :
    lmOptT + J.card ≤ e.limit ∧ e.faults = faults ∧ (prog = .dup → ∃ a ∈ J, e.fd = some a) := by
  cases prog with
  | setsockopt => exact absurd rfl hsetsockopt
  | dup =>
    obtain ⟨r, hr, he⟩ := Option.map_eq_some_iff.mp h
    have hle := le_setfdlimit hr
    simp only [Bool.false_eq_true, if_false] at he
    cases hlow : (inherited I : Fds 0).lowest r.rlimCur with
    | none =>
      have hfull := lowest_none hlow
      rw [used_inherited, Set.encard_coe_eq_coe_finsetCard, Nat.cast_le] at hfull
      omega
    | some fd =>
      rw [hlow] at he
      cases he
      have hcard := Finset.card_insert_le fd I
      refine ⟨?_, rfl, fun _ ↦ ⟨fd, Finset.mem_insert_self fd I, rfl⟩⟩
      change lmOptT + (insert fd I).card ≤ r.rlimCur
      omega
  | openFile | socket | close optb | socketpair =>
    obtain ⟨r, hr, he⟩ := Option.map_eq_some_iff.mp h
    have hle := le_setfdlimit hr
    cases he
    refine ⟨?_, rfl, fun hdup ↦ by cases hdup⟩
    change lmOptT + I.card ≤ r.rlimCur
    omega

theorem need_of_ne (hprog : prog ≠ .socketpair) (T n r : ℕ) : prog.need T n r ≤ n + T := by
  have hpeak : r * prog.leak + prog.peak ≤ 1 := by
    rcases prog with _ | _ | _ | (_ | _) | _ | _
    case socketpair => exact absurd rfl hprog
    all_goals
      simp [Program.leak, Program.peak, Program.before, Program.script, Program.opening,
        benchmarkPre, benchmark, benchmarkPost, net, Stmt.count]
  have := Nat.mul_le_mul_left T hpeak
  rw [mul_one] at this
  exact Nat.add_le_add_left this n

theorem leak_of_ne (hprog : prog ≠ .socketpair) : prog.leak = 0 := by
  rcases prog with _ | _ | _ | (_ | _) | _ | _
  case socketpair => exact absurd rfl hprog
  all_goals rfl

/-- What the threads have opened is closed at the end, and what was open before is open still. -/
theorem Tables.restored {e : Env (WorkerId opt)} {t : Rounds.State (WorkerId opt) (Shared opt) ℕ} {p : Fin opt.lmOptP}
    (h : Tables prog e I t p) (hheld : ∀ i, prog.held (t.worker (p, i)) = 0) {j : ℕ}
    (hj : prog = .close true → j ≠ 1024) : t.shared.table p j = inherited I j := by
  have hnone (i : Fin opt.lmOptT) : t.shared.table p j ≠ some (some i) := by
    intro hown
    have hcount := h.count i
    rw [hheld, Nat.cast_zero, Set.encard_eq_zero] at hcount
    have hmem : j ∈ (t.shared.table p).of (some i) := hown
    rw [hcount] at hmem
    exact hmem
  unfold inherited
  split_ifs with hmem
  · rcases h.kept j hmem with hkept | ⟨hprog, he⟩
    · exact hkept
    · exact absurd he (hj hprog)
  · by_contra hne
    obtain ⟨a, ha⟩ := Option.ne_none_iff_exists'.mp hne
    cases a with
    | none => exact hmem (h.only j ha)
    | some i => exact hnone i ha

/-- `lm_optT + 10` is enough for any number of rounds, if what the benchmark asks for is there: the
file or the address family. -/
theorem setfdlimit_suffices (opt : Options) (prog : Program) (privileged missing : Bool)
    (faults : WorkerId opt → Callback → ℕ → ℕ → Bool) (rlimit : Rlimit) (I J : Finset ℕ)
    (e : Env (WorkerId opt)) (hP : 1 ≤ opt.lmOptP) (hT : 1 ≤ opt.lmOptT)
    (hsetsockopt : prog ≠ .setsockopt) (hsocketpair : prog ≠ .socketpair) (hI : I.card ≤ 9)
    (hmissing : missing = false) (hfaults : ∀ u c r k, faults u c r k = false)
    (hinitrun : benchmarkInitrun privileged missing faults opt.lmOptT rlimit I prog = some (e, J))
    (s : Loaded.State (WorkerId opt) (Shared opt) ℕ) (hs : (system opt prog e J).Reachable s) :
    (∀ p, s.shared.exited p = false) ∧
    ((∀ u, (s.harness.worker u).pc.left) ∨ (system opt prog e J).Enabled (fun a ↦ a.isRun) s) ∧
    ((∀ u, (s.harness.worker u).pc.left) → ∀ p j, (prog = .close true → j ≠ 1024) →
      s.shared.table p j = inherited J j) := by
  have : Nonempty (WorkerId opt) := ⟨⟨0, hP⟩, ⟨0, hT⟩⟩
  subst hmissing
  obtain ⟨hroom, rfl, hdup⟩ := initrun_room hsetsockopt hI hinitrun
  have hopen : prog = .dup → ∀ a, e.fd = some a → a ∈ J := by
    intro hprog a ha
    obtain ⟨b, hb, he⟩ := hdup hprog
    rwa [Option.some.inj (ha.symm.trans he)]
  have hinv := system_inv hT hopen hs
  have hexited (p : Fin opt.lmOptP) : s.shared.exited p = false := by
    by_contra hne
    obtain ⟨i, hlt | ⟨hprog, hnone⟩ | ⟨k, -, hfault⟩⟩ :=
      hinv.failed p (Bool.eq_true_of_not_eq_false hne)
    · have hle := need_of_ne hsocketpair opt.lmOptT J.card ((s.phases.worker (p, i)).calls / 3)
      omega
    · obtain ⟨a, -, ha⟩ := hdup hprog
      cases hnone.symm.trans ha
    · rw [hfaults] at hfault
      cases hfault
  refine ⟨hexited, goes_on hs hexited, fun hleft p j hj ↦ ?_⟩
  refine (hinv.table p (hexited p)).restored (fun i ↦ ?_) hj
  rw [left_held hs (hleft _), leak_of_ne hsocketpair, mul_zero]

def duplicated (n : ℕ) : Loaded.State (WorkerId sixOptions) (Shared sixOptions) ℕ :=
  (system sixOptions .dup ⟨13, some 3, fun _ _ _ _ ↦ false⟩ {3, 0, 1, 2}).turns
    ⟨start sixOptions 0, begun sixOptions {3, 0, 1, 2}, fun _ ↦ none⟩ (inTurn sixOptions n)

set_option maxRecDepth 10000 in
/-- With the limit raised from 10 to 13, while all have duplicated it and at the end. -/
theorem setfdlimit_suffices_six :
    ((∀ i : Fin 3, (duplicated 40).shared.table 0 (4 + i) = some (some i)) ∧
      (duplicated 40).shared.exited 0 = false ∧
      (system sixOptions .dup ⟨13, some 3, fun _ _ _ _ ↦ false⟩ {3, 0, 1, 2}).Enabled
        (fun a ↦ a.isRun) (duplicated 40)) ∧
    (∀ u, ((duplicated 450).harness.worker u).pc = .done ∧
      ((duplicated 450).harness.worker u).rounds = 6) ∧
    ∀ p j, (duplicated 450).shared.table p j = inherited {3, 0, 1, 2} j := by
  have hreach (n : ℕ) : (system sixOptions .dup ⟨13, some 3, fun _ _ _ _ ↦ false⟩
      {3, 0, 1, 2}).Reachable (duplicated n) :=
    System.turns_reachable
      (A := system sixOptions .dup ⟨13, some 3, fun _ _ _ _ ↦ false⟩ {3, 0, 1, 2})
      ⟨0, _, rfl, rfl⟩ _
  have hsuffices (n : ℕ) := setfdlimit_suffices sixOptions .dup false false
    (fun _ _ _ _ ↦ false) ⟨10, 65536⟩ {0, 1, 2} {3, 0, 1, 2} _ (by decide) (by decide) nofun nofun
    (by decide) rfl (fun _ _ _ _ ↦ rfl) rfl _ (hreach n)
  have hin : (∀ i : Fin 3, (duplicated 40).shared.table 0 (4 + i) = some (some i)) ∧
      ¬ ((duplicated 40).harness.worker (0, 0)).pc.left := by decide +kernel
  have hend : ∀ u, ((duplicated 450).harness.worker u).pc = .done ∧
      ((duplicated 450).harness.worker u).rounds = 6 := by decide +kernel
  refine ⟨⟨hin.1, (hsuffices 40).1 0, (hsuffices 40).2.1.resolve_left fun h ↦ hin.2 (h (0, 0))⟩,
    hend, fun p j ↦ ?_⟩
  have hleft : ∀ u, ((duplicated 450).harness.worker u).pc.left := by decide +kernel
  refine (hsuffices 450).2.2 ?_ p j nofun
  assumption

end LibMicro.Descriptors
