import LibMicro.Pipe.Descriptors
import LibMicro.Rounds

namespace LibMicro.Pipe.Descriptors

open TransitionSystem DescriptorTable DescriptorProgram

/-- `close_conns` takes `ts_in` and `ts_out` for the same descriptor with a socket, also in
mode st where they are the two ends. -/
def leftOpen (optm : Mode) (optx : Xport) (once : Bool) : List Var :=
  (if optx = .tcp ∧ once then [.tsLsn] else []) ++
    if optm = .st ∧ (optx = .sock ∨ optx = .tcp) then [.tsOut] else []

def exchange : Mode → List Func
  | .st => [.write, .readall, .write, .readall, .write, .readall]
  | .mt => [.pthreadCreate, .write, .readall, .write, .readall, .write, .readall, .pthreadJoin]
  | .mp => [.fork, .write, .readall, .write, .readall, .write, .readall, .waitpid]

theorem round_eq (optm : Mode) (optx : Xport) (once : Bool) :
    round optm optx once = prepare optm once optx ++
      ((exchange optm).map (Stmt.call · []) ++ closeConns optm optx) := by
  cases optm <;> simp [round, benchmarkPre, benchmark, benchmarkPost, exchange]

theorem sound_pipes (optm : Mode) (once : Bool) (vars : Var → ℕ) :
    Sound (leftOpen optm .pipe once) (round optm .pipe once) vars [] [] := by
  rw [round_eq]
  cases optm with
  | st =>
    apply sound_open_pair
    intro a b hd
    apply sound_assign
    apply sound_assign
    apply sound_calls
    apply sound_closes [Var.tsIn, Var.tsOut] hd
    simp [leftOpen]
  | mt | mp =>
    apply sound_open_pair
    intro a b _
    apply sound_assign
    apply sound_assign
    apply sound_open_pair
    intro c d hd
    apply sound_assign
    apply sound_assign
    apply sound_calls
    apply sound_closes [Var.tsIn, Var.tsOut, Var.tsIn2, Var.tsOut2] hd
    have hp : [b, c, d].Perm [d, c, b] := List.reverse_perm [d, c, b]
    simpa [leftOpen] using hp

theorem sound_socketpair (optm : Mode) (once : Bool) (vars : Var → ℕ) :
    Sound (leftOpen optm .sock once) (round optm .sock once) vars [] [] := by
  rw [round_eq]
  apply sound_open_pair
  intro a b hd
  cases optm with
  | st =>
    apply sound_assign
    apply sound_assign
    apply sound_calls
    apply sound_closes [Var.tsIn] hd
    simp [leftOpen]
  | mt | mp =>
    apply sound_assign
    apply sound_assign
    apply sound_assign
    apply sound_assign
    apply sound_calls
    apply sound_closes [Var.tsIn, Var.tsIn2] hd
    simp [leftOpen]

theorem sound_connection (optm : Mode) (once : Bool) (vars : Var → ℕ) (lsn : List ℕ)
    (hl : lsn = if once then [vars .tsLsn] else []) :
    Sound (leftOpen optm .tcp once) (prepareLocaltcp optm false ++
      ((exchange optm).map (Stmt.call · []) ++ closeConns optm .tcp)) vars lsn [] := by
  apply sound_open
  intro a _
  apply sound_calls [Func.connect]
  apply sound_open
  intro b hd
  apply sound_assign
  apply sound_calls [Func.setsockopt, .setsockopt]
  cases optm with
  | st =>
    apply sound_assign
    apply sound_calls
    apply sound_closes [Var.tsIn] hd
    have hp : (lsn ++ [a] ++ [b]).Perm (b :: (lsn ++ [a])) := List.perm_append_singleton b _
    cases once <;> simpa [leftOpen, hl] using hp
  | mt | mp =>
    apply sound_assign
    apply sound_assign
    apply sound_calls
    apply sound_closes [Var.tsIn, Var.tsIn2] hd
    cases once with
    | false => simp [leftOpen, hl]
    | true =>
      have hp := (List.perm_append_singleton (vars .tsLsn) [a, b]).symm
      simpa [leftOpen, hl] using hp

theorem sound_localtcp (optm : Mode) (once : Bool) (vars : Var → ℕ) :
    Sound (leftOpen optm .tcp once) (round optm .tcp once) vars [] [] := by
  rw [round_eq]
  cases once with
  | false => exact sound_connection optm false vars [] rfl
  | true =>
    apply sound_open
    intro l _
    apply sound_calls [Func.setsockopt, .gethostbyname, .bind, .listen]
    apply sound_connection optm true
    simp

theorem sound_round (optm : Mode) (optx : Xport) (once : Bool) (vars : Var → ℕ) :
    Sound (leftOpen optm optx once) (round optm optx once) vars [] [] := by
  cases optx with
  | pipe => exact sound_pipes optm once vars
  | sock => exact sound_socketpair optm once vars
  | tcp => exact sound_localtcp optm once vars

variable {ι : Type}

/-- What the current round leaves open. The `int` is zero again after `2 ^ 32` rounds. -/
def Worker.left (optm : Mode) (optx : Xport) (u : Worker ι) : List Var :=
  if u.rounds = 0 then [] else leftOpen optm optx (BitVec.ofNat 32 (u.rounds - 1) == 0)

structure Worker.Inv (optm : Mode) (optx : Xport) (t : Files ι) (w : ι) (u : Worker ι) : Prop where
  task : DescriptorProgram.Inv (u.left optm optx) t (some w) u.task
  once : optx = .tcp → u.tsOnce = BitVec.ofNat 32 u.rounds

section Worker

variable {optm : Mode} {optx : Xport} {t : Files ι} {w : ι} {u : Worker ι}

theorem Worker.Inv.start (h : ∀ fd, t fd ≠ some (some w)) :
    Worker.Inv optm optx t w .start where
  task := DescriptorProgram.Inv.start h
  once _ := rfl

theorem Worker.Inv.begin (h : u.Inv optm optx t w) : (u.begin optm optx t).Inv optm optx t w where
  task := by
    have hleft : (u.begin optm optx t).left optm optx = leftOpen optm optx (u.tsOnce == 0) := by
      have hrounds : (u.begin optm optx t).rounds = u.rounds + 1 := rfl
      rw [Worker.left, hrounds, if_neg (Nat.succ_ne_zero _), Nat.add_sub_cancel]
      cases optx with
      | pipe | sock => simp [leftOpen]
      | tcp => rw [h.once rfl]
    rw [hleft]
    exact DescriptorProgram.Inv.begin (sound_round optm optx _ u.task.vars)
  once hx := by
    have honce := h.once hx
    simp only [Worker.begin, if_pos hx, honce]
    exact (BitVec.ofNat_add u.rounds 1).symm

theorem Worker.Inv.clean (h : u.Inv optm optx t w) (htodo : u.task.todo = [])
    (hl : (u.left optm optx).map u.task.vars = u.kept optx) : Clean optx t w u where
  same := hl ▸ h.task.done htodo
  distinct := h.task.tracks.distinct
  closed := hl ▸ h.task.perm htodo

theorem Worker.Inv.length_left (h : u.Inv optm optx t w) (htodo : u.task.todo = [])
    (hc : Clean optx t w u) : (u.left optm optx).length = (u.kept optx).length := by
  have hleft := (h.task.perm htodo).length_eq
  have hkept := hc.closed.length_eq
  rw [List.length_append, List.length_map] at hleft
  rw [List.length_append] at hkept
  omega

theorem left_eq_kept (hm : ¬ (optm = .st ∧ (optx = .sock ∨ optx = .tcp)))
    (hr : optx = .tcp → u.rounds ≤ 2 ^ 32) :
    (u.left optm optx).map u.task.vars = u.kept optx := by
  by_cases hx : optx = .tcp
  · by_cases h₁ : u.rounds = 0
    · simp [Worker.left, Worker.kept, h₁]
    · rw [Worker.left, if_neg h₁, Rounds.counter_eq_zero h₁ (hr hx), leftOpen, if_neg hm, List.append_nil,
        Worker.kept]
      by_cases h₂ : u.rounds = 1
      · simp [hx, h₂]
      · simp [hx, h₂]
  · rw [Worker.left, leftOpen, if_neg hm]
    simp [Worker.kept, hx]

end Worker

section Runs

variable [DecidableEq ι] {optm : Mode} {optx : Xport} {s s' : State ι} {a : Label ι} {w : ι}

theorem step_inv (h : step optm optx s a = some s')
    (hi : (s.worker a.worker).Inv optm optx s.files a.worker) :
    ∃ t u, s' = s.set a.worker t u ∧ u.Inv optm optx t a.worker ∧
      ∀ v ≠ a.worker, ∀ fd, t fd = some (some v) ↔ s.files fd = some (some v) := by
  unfold step at h
  dsimp only at h
  split at h
  · cases h
    exact ⟨_, _, rfl, hi.begin, fun v _ fd ↦ Iff.rfl⟩
  · obtain ⟨⟨t, task⟩, hstep, rfl⟩ := Option.map_eq_some_iff.mp h
    obtain ⟨hinv, hframe⟩ := hi.task.step hstep
    refine ⟨t, _, rfl, ⟨hinv, hi.once⟩, fun v hv ↦ hframe (some v) fun he ↦ ?_⟩
    exact hv (Option.some.inj he)

theorem reachable_inv (h : (system ι optm optx).Reachable s) (w : ι) :
    (s.worker w).Inv optm optx s.files w := by
  apply h.invariant (I := fun s ↦ ∀ w, (s.worker w).Inv optm optx s.files w)
  · intro s hs w
    rw [hs.1 w]
    exact Worker.Inv.start (hs.2 w)
  · intro s a s' _ hi hstep w
    obtain ⟨t, u, rfl, hinv, hframe⟩ := step_inv hstep (hi a.worker)
    by_cases hw : w = a.worker
    · subst hw
      simpa [State.set] using hinv
    · have htask := (hi w).task.frame (hframe w hw)
      simpa [State.set, Function.update_of_ne hw] using Worker.Inv.mk htask (hi w).once

theorem set_worker (s : State ι) (w : ι) (t : Files ι) (u : Worker ι) :
    (s.set w t u).worker w = u := by
  simp [State.set]

theorem exists_finish {todo : List Stmt} (hr : (system ι optm optx).Reachable s)
    (htodo : (s.worker w).task.todo = todo) (hb : ∃ N, s.files.Below N) :
    ∃ s', (system ι optm optx).Reachable s' ∧ (s'.worker w).task.todo = [] ∧
      (s'.worker w).rounds = (s.worker w).rounds ∧ ∃ M, s'.files.Below M := by
  induction todo generalizing s with
  | nil => exact ⟨s, hr, htodo, rfl, hb⟩
  | cons c rest ih =>
    obtain ⟨N, hN⟩ := hb
    obtain ⟨fds, t, task, hstep, hrest, hM⟩ := (reachable_inv hr w).task.exists_step htodo hN
    let u : Worker ι := { s.worker w with task := task }
    have hnext : (system ι optm optx).step s ⟨w, fds⟩ = some (s.set w t u) := by
      simp only [system, step, htodo, hstep, Option.map_some, u]
    have hrest' : ((s.set w t u).worker w).task.todo = rest := by
      rw [set_worker, hrest]
    obtain ⟨s', hr', htodo', hrounds', hb'⟩ := ih (hr.next hnext) hrest' hM
    refine ⟨s', hr', htodo', ?_, hb'⟩
    rw [hrounds', set_worker]

theorem exists_rounds (optm : Mode) (optx : Xport) (w : ι) (n : ℕ) :
    ∃ s, (system ι optm optx).Reachable s ∧ (s.worker w).task.todo = [] ∧
      (s.worker w).rounds = n ∧ ∃ M, s.files.Below M := by
  induction n with
  | zero =>
    refine ⟨⟨fun _ ↦ none, fun _ ↦ .start⟩, .start ⟨fun _ ↦ rfl, fun _ _ ↦ nofun⟩, rfl, rfl, 0, ?_⟩
    intro fd _
    rfl
  | succ n ih =>
    obtain ⟨s, hr, htodo, hrounds, hb⟩ := ih
    have hstep : (system ι optm optx).step s ⟨w, []⟩ =
        some (s.set w s.files ((s.worker w).begin optm optx s.files)) := by
      simp only [system, step, htodo]
    obtain ⟨s', hr', htodo', hrounds', hb'⟩ := exists_finish (hr.next hstep) rfl hb
    refine ⟨s', hr', htodo', ?_, hb'⟩
    rw [hrounds', set_worker, ← hrounds]
    rfl

end Runs

theorem NoLeak.length_left {optm : Mode} {optx : Xport} {rounds n : ℕ}
    (h : NoLeak optm optx rounds) (hn : n ≤ rounds) :
    ∃ u : Worker Unit, u.rounds = n ∧ (u.left optm optx).length = (u.kept optx).length := by
  obtain ⟨s, hr, htodo, hrounds, -⟩ := exists_rounds optm optx () n
  have hclean := (h Unit s hr (fun _ ↦ hrounds.trans_le hn) ()).1 htodo
  exact ⟨s.worker (), hrounds, (reachable_inv hr ()).length_left htodo hclean⟩

/-- Nothing leaks if and only if `close_conns` closes both ends, and the listening socket is
opened once. -/
theorem no_leak_iff (optm : Mode) (optx : Xport) (rounds : ℕ) :
    NoLeak optm optx rounds ↔ rounds = 0 ∨
      ¬ (optm = .st ∧ (optx = .sock ∨ optx = .tcp)) ∧ (optx = .tcp → rounds ≤ 2 ^ 32) := by
  constructor
  · intro h
    by_cases h₀ : rounds = 0
    · exact .inl h₀
    refine .inr ⟨fun hm ↦ ?_, fun hx ↦ ?_⟩
    · obtain ⟨u, hu, hlen⟩ := h.length_left (Nat.one_le_iff_ne_zero.mpr h₀)
      obtain ⟨rfl, rfl | rfl⟩ := hm
      · simp [Worker.left, Worker.kept, leftOpen, hu] at hlen
      · simp [Worker.left, Worker.kept, leftOpen, hu] at hlen
    · by_contra hgt
      obtain ⟨u, hu, hlen⟩ := h.length_left (Nat.lt_of_not_le hgt)
      have hzero : (BitVec.ofNat 32 (u.rounds - 1) == 0) = true := by
        rw [hu]
        rfl
      have hpos : u.rounds ≠ 0 := by omega
      have hne : u.rounds ≠ 1 := by omega
      rw [Worker.left, if_neg hpos, hzero, Worker.kept, if_neg (fun h ↦ hne h.2)] at hlen
      simp [leftOpen, hx] at hlen
  · intro hcond ι _ s hr hle w
    have hi := reachable_inv hr w
    refine ⟨fun htodo ↦ hi.clean htodo ?_, fun x rest htodo ↦ ?_⟩
    · rcases hcond with h₀ | ⟨hm, hx⟩
      · have hu : (s.worker w).rounds = 0 := Nat.le_zero.mp ((hle w).trans_eq h₀)
        simp [Worker.left, Worker.kept, hu]
      · exact left_eq_kept hm fun ht ↦ (hle w).trans (hx ht)
    · obtain ⟨howned, hopened, honce⟩ := hi.task.closable htodo
      exact ⟨howned, hopened, honce⟩

def stSockRound : List (Label Unit) :=
  ⟨(), []⟩ :: ⟨(), [3, 4]⟩ :: List.replicate 9 ⟨(), []⟩

theorem sock_st_leaks :
    (∃ s, (system Unit .st .sock).Reachable s ∧ (s.worker ()).task.todo = [] ∧
      (s.worker ()).rounds = 1 ∧ (s.worker ()).task.opened = [3, 4] ∧
      (s.worker ()).task.closed = [3] ∧ s.files 4 = some (some ())) ∧ ¬ NoLeak .st .sock 1 := by
  let start : State Unit := ⟨fun _ ↦ none, fun _ ↦ .start⟩
  have hinit : (system Unit .st .sock).init start := ⟨fun _ ↦ rfl, fun _ _ ↦ nofun⟩
  obtain ⟨s, hexec, htodo, hrounds, hopened, hclosed, hfile⟩ :
      ∃ s, (system Unit .st .sock).exec start stSockRound = some s ∧
        (s.worker ()).task.todo = [] ∧ (s.worker ()).rounds = 1 ∧
        (s.worker ()).task.opened = [3, 4] ∧ (s.worker ()).task.closed = [3] ∧
        s.files 4 = some (some ()) :=
    ⟨_, rfl, rfl, rfl, rfl, rfl, rfl⟩
  have hr := System.exec_reachable hexec hinit
  refine ⟨⟨s, hr, htodo, hrounds, hopened, hclosed, hfile⟩, fun h ↦ ?_⟩
  have hclean := (h Unit s hr (fun _ ↦ Nat.le_of_eq hrounds) ()).1 htodo
  have hlen := hclean.closed.length_eq
  rw [hopened, hclosed] at hlen
  simp [Worker.kept] at hlen

end LibMicro.Pipe.Descriptors
