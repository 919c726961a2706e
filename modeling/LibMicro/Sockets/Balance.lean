import LibMicro.Rounds
import LibMicro.Sockets.Model

namespace LibMicro.Sockets

open DescriptorGraph DescriptorTable TransitionSystem

/-- What `connection` opens has no use for the number 0. -/
def positive : Program → List Var
  | .connection _ _ => [.result, .tsAcc, .tsConn]
  | _ => []

def untouched : Outline Var Pc
  | .idle => some ⟨[], []⟩
  | _ => none

def socketpairOutline : Outline Var Pc
  | .tsFd | .socketpair => some ⟨[], []⟩
  | .closeFd => some ⟨[.tsFd, .tsFdNext], []⟩
  | .idle => some ⟨[.tsFdNext], []⟩
  | _ => none

def listening (once : Bool) : Option (Facts Var) := if once then some ⟨[.tsLsn], []⟩ else none

def connectionOutline (once : Bool) : Outline Var Pc :=
  let lsn : List Var := if once then [.tsLsn] else []
  fun
  | .lsnSocket => if once then some ⟨[], []⟩ else none
  | .lsnOption | .gethostbyname | .bind | .listen => listening once
  | .connSocket | .idle => some ⟨lsn, []⟩
  | .connOption | .preConnect | .connect | .pollConn | .accept | .closeConn =>
    some ⟨lsn ++ [.tsConn], []⟩
  | .test => some ⟨lsn ++ [.tsConn, .result], []⟩
  | .pollLsn => some ⟨lsn ++ [.tsConn], [.result]⟩
  | .closeAcc => some ⟨lsn ++ [.tsConn, .tsAcc], []⟩
  | _ => none

def initworkerOutline : Outline Var Pc
  | .lsnSocket => some ⟨[], []⟩
  | .lsnOption | .gethostbyname | .bind | .listen | .idle => some ⟨[.tsLsn], []⟩
  | _ => none

def closeTcpOutline : Outline Var Pc
  | .connSocket | .connSocketAgain | .idle => some ⟨[], []⟩
  | .connect | .closeRefused | .connectAgain | .accept | .closeConn => some ⟨[.tsConn], []⟩
  | .store => some ⟨[.tsConn, .result], []⟩
  | .closeAcc => some ⟨[.tsConn, .tsAcc], []⟩
  | _ => none

/-- `once` is whether `ts_once` was zero, in a round. -/
def Program.outline : Program → Option Bool → Outline Var Pc
  | .socketpair, some _ => socketpairOutline
  | .connection _ _, some once => connectionOutline once
  | .closeTcp, some _ => closeTcpOutline
  | .closeTcp, none => initworkerOutline
  | _, none => untouched

theorem socketpairOutline_ok : socketpairOutline.Ok [] socketpair := by
  intro p
  cases p <;> decide

theorem connectionOutline_ok (opta optc once : Bool) :
    (connectionOutline once).Ok (positive (.connection opta optc)) (connection opta optc) := by
  intro p
  revert opta optc once
  cases p <;> decide

theorem initworkerOutline_ok : initworkerOutline.Ok [] closeTcp := by
  intro p
  cases p <;> decide

theorem closeTcpOutline_ok : closeTcpOutline.Ok [] closeTcp := by
  intro p
  cases p <;> decide

theorem untouched_ok (prog : Program) (h : prog.graph .idle = []) :
    untouched.Ok (positive prog) prog.graph := by
  intro p
  cases p with
  | idle =>
    rw [h]
    exact fun e he ↦ absurd he List.not_mem_nil
  | _ => exact True.intro

theorem outline_ok (prog : Program) (once : Option Bool) :
    (prog.outline once).Ok (positive prog) prog.graph := by
  cases once with
  | some once =>
    cases prog with
    | socketpair => exact socketpairOutline_ok
    | connection opta optc => exact connectionOutline_ok opta optc once
    | closeTcp => exact closeTcpOutline_ok
  | none =>
    cases prog with
    | socketpair => exact untouched_ok .socketpair rfl
    | connection opta optc => exact untouched_ok (.connection opta optc) rfl
    | closeTcp => exact initworkerOutline_ok

def Program.first (once : Bool) : Program → Pc
  | .socketpair => if once then .tsFd else .socketpair
  | .connection _ _ => if once then .lsnSocket else .connSocket
  | .closeTcp => .connSocket

theorem outline_first (prog : Program) (once : Bool) :
    prog.outline (some once) (prog.first once) = some ⟨[], []⟩ := by
  cases prog <;> cases once <;> rfl

theorem path_first (prog : Program) (once : Bool) :
    (prog.outline (some once)).Path (positive prog) prog.graph .idle 12 (prog.first once) := by
  cases prog with
  | socketpair | closeTcp => cases once <;> decide
  | connection opta optc =>
    revert opta optc once
    decide

theorem path_initial (prog : Program) :
    (prog.outline none).Path (positive prog) prog.graph .idle 5 prog.initial := by
  cases prog with
  | socketpair => exact .inl rfl
  | connection opta optc => exact .inl rfl
  | closeTcp => decide

theorem connection_closes (opta optc : Bool) (p : Pc) :
    ∀ e ∈ connection opta optc p, e.effect.ClosesIn [.result, .tsAcc, .tsConn] := by
  revert opta optc
  cases p <;> decide

theorem graph_closes {prog : Program} {p : Pc} {e : Edge Var Pc} (h : positive prog ≠ [])
    (he : e ∈ prog.graph p) : e.effect.ClosesIn (positive prog) := by
  cases prog with
  | socketpair | closeTcp => exact absurd rfl h
  | connection opta optc => exact connection_closes opta optc p e he

theorem graph_lsnSocket {prog : Program} {e : Edge Var Pc} (h : positive prog ≠ [])
    (he : e ∈ prog.graph .lsnSocket) : e.effect = .opens [.tsLsn] := by
  cases prog with
  | socketpair | closeTcp => exact absurd rfl h
  | connection opta optc =>
    obtain rfl := List.mem_singleton.mp he
    rfl

theorem tsLsn_not_positive (prog : Program) : .tsLsn ∉ positive prog := by
  cases prog with
  | socketpair | closeTcp => exact List.not_mem_nil
  | connection opta optc => simp [positive]

theorem graph_idle (prog : Program) : prog.graph .idle = [] := by
  cases prog <;> rfl

variable {ι : Type}

/-- Whether `ts_once` was zero, in a round. The `int` is zero again after `2 ^ 32` rounds. -/
def Worker.once (u : Worker ι) : Option Bool :=
  if u.rounds = 0 then none else some (BitVec.ofNat 32 (u.rounds - 1) == 0)

def left : Program → Option Bool → List Var
  | .socketpair, some _ => [.tsFdNext]
  | .connection _ _, some true => [.tsLsn]
  | .closeTcp, none => [.tsLsn]
  | _, _ => []

theorem outline_idle (prog : Program) (once : Option Bool) :
    prog.outline once .idle = some ⟨left prog once, []⟩ := by
  cases prog with
  | socketpair | closeTcp => cases once <;> rfl
  | connection => rcases once with _ | _ | _ <;> rfl

structure Worker.Inv (prog : Program) (t : Files ι) (w : ι) (u : Worker ι) : Prop where
  task : DescriptorGraph.Inv (prog.outline u.once) (positive prog) t (some w) u.task
  tsOnce : prog ≠ .closeTcp → u.tsOnce = BitVec.ofNat 32 u.rounds

/-- A worker that has opened nothing, except that it opens the listening socket next. -/
def Worker.Fresh (u : Worker ι) : Prop := u.task.pc = .lsnSocket ∨ u.task.pc = .idle ∧ u.rounds = 0

section Worker

variable {prog : Program} {t t' : Files ι} {w : ι} {u : Worker ι} {e : Edge Var Pc} {fds : List ℕ}
  {task : Task Var Pc (Option ι)}

theorem Worker.Inv.start (h : ∀ fd, t fd ≠ some (some w)) : Worker.Inv prog t w (.start prog) where
  task := by
    refine ⟨⟨[], []⟩, [], ?_, ⟨rfl, nofun, nofun⟩, ⟨fun fd ↦ ?_, nofun, List.nodup_nil, .refl []⟩⟩
    · cases prog <;> rfl
    · simp [Worker.start, h fd]
  tsOnce _ := rfl

theorem Worker.once_begin : (u.begin prog t).once = some (BitVec.ofNat 32 u.rounds == 0) := rfl

theorem Worker.Inv.entry (h : u.Inv prog t w) :
    prog.entry u.tsOnce = prog.first (BitVec.ofNat 32 u.rounds == 0) := by
  cases prog with
  | closeTcp => rfl
  | socketpair | connection opta optc =>
    have honce := h.tsOnce (by simp)
    rw [← honce]
    simp [Program.entry, Program.first]

theorem Worker.Inv.begin (h : u.Inv prog t w) : (u.begin prog t).Inv prog t w where
  task := by
    apply DescriptorGraph.Inv.begin
    rw [Worker.once_begin, h.entry]
    exact outline_first prog _
  tsOnce hp := by
    have hnext : prog.increment u.tsOnce = u.tsOnce + 1 := by
      cases prog with
      | socketpair | connection => rfl
      | closeTcp => exact absurd rfl hp
    rw [Worker.begin, hnext, h.tsOnce hp]
    exact (BitVec.ofNat_add u.rounds 1).symm

theorem Worker.Inv.begin_fresh (h : u.Inv prog t w) (hp : positive prog ≠ []) (h₀ : u.rounds = 0) :
    (u.begin prog t).Fresh := by
  have hentry := h.entry
  rw [h₀] at hentry
  cases prog with
  | socketpair | closeTcp => exact absurd rfl hp
  | connection opta optc => exact .inl hentry

/-- The first descriptor is for the listening socket. From then on 0 is in use. -/
theorem Worker.Inv.step (h : u.Inv prog t w) (he : e ∈ prog.graph u.task.pc)
    (hused : positive prog ≠ [] → t 0 ≠ none ∨ u.Fresh)
    (hs : u.task.step (some w) fds t e = some (t', task)) :
    Worker.Inv prog t' w { u with task := task } ∧
      (∀ v ≠ some w, ∀ fd, t' fd = some v ↔ t fd = some v) ∧
        (positive prog ≠ [] → t' 0 ≠ none) := by
  have hok := outline_ok prog u.once
  by_cases hp : positive prog = []
  · obtain ⟨htask, hframe⟩ := h.task.step hok he (by simp [hp]) hs
    exact ⟨⟨htask, h.tsOnce⟩, hframe, fun hne ↦ absurd hp hne⟩
  rcases hused hp with hzero | hpc | hpc
  · obtain ⟨htask, hframe, hzero'⟩ := h.task.step_of_zero hok he hzero (graph_closes hp he) hs
    exact ⟨⟨htask, h.tsOnce⟩, hframe, fun _ ↦ hzero'⟩
  · have heffect := graph_lsnSocket hp (hpc ▸ he)
    obtain ⟨htask, hframe⟩ := h.task.step hok he (by simp [heffect, tsLsn_not_positive]) hs
    refine ⟨⟨htask, h.tsOnce⟩, hframe, fun _ ↦ ?_⟩
    have hrun := (step_some hs).2
    rw [heffect] at hrun
    obtain ⟨hlen, hlow, ha, -⟩ := run_opens hrun
    exact hlow.zero ha (List.ne_nil_of_length_eq_add_one hlen)
  · rw [hpc.1, graph_idle] at he
    exact absurd he List.not_mem_nil

theorem Worker.Inv.live (h : u.Inv prog t w) (hpc : u.task.pc = .idle) :
    ∃ live, live.map some = (left prog u.once).map u.task.vars ∧
      (∀ fd, t fd = some (some w) ↔ u.task.before fd = some (some w) ∨ fd ∈ live) ∧
        u.task.opened.Perm (u.task.closed ++ live) := by
  have hidle : prog.outline u.once u.task.pc = some ⟨left prog u.once, []⟩ := by
    rw [hpc]
    exact outline_idle prog u.once
  exact h.task.live hidle

theorem Worker.Inv.clean (h : u.Inv prog t w) (hpc : u.task.pc = .idle)
    (hl : (u.kept prog).map some = (left prog u.once).map u.task.vars) : Clean prog t w u := by
  obtain ⟨live, hlive, hsame, hclosed⟩ := h.live hpc
  have heq : live = u.kept prog := by
    apply (List.map_injective_iff.mpr (Option.some_injective ℕ))
    rw [hlive, hl]
  subst heq
  exact ⟨hsame, hclosed⟩

theorem Worker.Inv.length_left (h : u.Inv prog t w) (hpc : u.task.pc = .idle)
    (hc : Clean prog t w u) : (left prog u.once).length = (u.kept prog).length := by
  obtain ⟨live, hlive, -, hclosed⟩ := h.live hpc
  have hlen := congrArg List.length hlive
  have hopened := hclosed.length_eq
  have hkept := hc.closed.length_eq
  simp only [List.length_map, List.length_append] at hlen hopened hkept
  omega

theorem Worker.Inv.closable (h : u.Inv prog t w) : Closable prog t w u := by
  intro e he htest x hx
  obtain ⟨fd, hfd, howned, -⟩ := h.task.closable (outline_ok prog u.once) he htest hx
  exact ⟨fd, hfd, howned⟩

end Worker

section Runs

variable [DecidableEq ι] {prog : Program} {s s' : State ι} {a : Label ι} {w : ι}

theorem step_cases (h : step prog s a = some s') :
    ((s.worker a.worker).task.pc = .idle ∧
      s' = s.set a.worker s.files ((s.worker a.worker).begin prog s.files)) ∨
    ∃ e ∈ prog.graph (s.worker a.worker).task.pc, ∃ t task,
      (s.worker a.worker).task.step (some a.worker) a.fds s.files e = some (t, task) ∧
        s' = s.set a.worker t { s.worker a.worker with task := task } := by
  unfold step at h
  dsimp only at h
  split at h
  case isTrue hpc =>
    cases h
    exact .inl ⟨hpc, rfl⟩
  case isFalse =>
    obtain ⟨e, he, hrest⟩ := Option.bind_eq_some_iff.mp h
    obtain ⟨⟨t, task⟩, hstep, rfl⟩ := Option.map_eq_some_iff.mp hrest
    exact .inr ⟨e, List.mem_of_getElem? he, t, task, hstep, rfl⟩

theorem set_worker (s : State ι) (w : ι) (t : Files ι) (u : Worker ι) :
    (s.set w t u).worker w = u := by
  simp [State.set]

theorem set_worker_of_ne (s : State ι) {v : ι} (t : Files ι) (u : Worker ι) (h : v ≠ w) :
    (s.set w t u).worker v = s.worker v := by
  simp [State.set, Function.update_of_ne h]

/-- With `connection` the number 0 is in use, or nothing has been opened at all. -/
structure State.Inv (prog : Program) (s : State ι) : Prop where
  worker : ∀ w, (s.worker w).Inv prog s.files w
  used : positive prog ≠ [] → s.files 0 ≠ none ∨ ∀ w, (s.worker w).Fresh

theorem State.Inv.begin (h : s.Inv prog) (hpc : (s.worker w).task.pc = .idle) :
    (s.set w s.files ((s.worker w).begin prog s.files)).Inv prog where
  worker v := by
    by_cases hv : v = w
    · subst hv
      rw [set_worker]
      exact (h.worker v).begin
    · rw [set_worker_of_ne s s.files _ hv]
      exact h.worker v
  used hp := by
    refine (h.used hp).imp_right fun hfresh v ↦ ?_
    by_cases hv : v = w
    · subst hv
      rw [set_worker]
      rcases hfresh v with hlsn | ⟨-, h₀⟩
      · rw [hlsn] at hpc
        cases hpc
      · exact (h.worker v).begin_fresh hp h₀
    · rw [set_worker_of_ne s s.files _ hv]
      exact hfresh v

theorem State.Inv.edge {e : Edge Var Pc} {fds : List ℕ} {t : Files ι} {task : Task Var Pc (Option ι)}
    (h : s.Inv prog) (he : e ∈ prog.graph (s.worker w).task.pc)
    (hs : (s.worker w).task.step (some w) fds s.files e = some (t, task)) :
    (s.set w t { s.worker w with task := task }).Inv prog := by
  obtain ⟨hinv, hframe, hzero⟩ :=
    (h.worker w).step he (fun hp ↦ (h.used hp).imp_right fun hf ↦ hf w) hs
  constructor
  case worker =>
    intro v
    by_cases hv : v = w
    · subst hv
      rw [set_worker]
      exact hinv
    · rw [set_worker_of_ne s t _ hv]
      have hother := hframe (some v) fun heq ↦ hv (Option.some.inj heq)
      exact ⟨(h.worker v).task.frame hother, (h.worker v).tsOnce⟩
  case used => exact fun hp ↦ .inl (hzero hp)

theorem reachable_inv (h : (system ι prog).Reachable s) : s.Inv prog := by
  apply h.invariant
  · intro s hs
    refine ⟨fun w ↦ ?_, fun hp ↦ .inr fun w ↦ ?_⟩
    · rw [hs.1 w]
      exact Worker.Inv.start (hs.2 w)
    · rw [hs.1 w]
      cases prog with
      | socketpair | closeTcp => exact absurd rfl hp
      | connection opta optc => exact .inr ⟨rfl, rfl⟩
  · intro s a s' _ hi hstep
    rcases step_cases hstep with ⟨hpc, rfl⟩ | ⟨e, he, t, task, htask, rfl⟩
    · exact hi.begin hpc
    · exact hi.edge he htask

theorem exists_finish {n : ℕ} (hr : (system ι prog).Reachable s)
    (hp : (prog.outline (s.worker w).once).Path (positive prog) prog.graph .idle n
      (s.worker w).task.pc) (hb : ∃ N, s.files.Below N) :
    ∃ s', (system ι prog).Reachable s' ∧ (s'.worker w).task.pc = .idle ∧
      (s'.worker w).rounds = (s.worker w).rounds ∧ ∃ M, s'.files.Below M := by
  induction n generalizing s with
  | zero => exact ⟨s, hr, hp, rfl, hb⟩
  | succ n ih =>
    by_cases hpc : (s.worker w).task.pc = .idle
    · exact ⟨s, hr, hpc, rfl, hb⟩
    obtain ⟨e, he, hensures, hp⟩ := hp.resolve_left hpc
    obtain ⟨N, hN⟩ := hb
    have hi := (reachable_inv hr).worker w
    obtain ⟨fds, t, task, hstep, htarget, hM⟩ := hi.task.exists_step (outline_ok prog _)
      (List.mem_of_head? he) (hi.task.holds hensures) hN
    let u : Worker ι := { s.worker w with task := task }
    have hnext : (system ι prog).step s ⟨w, 0, fds⟩ = some (s.set w t u) := by
      have hway : (prog.graph (s.worker w).task.pc)[0]? = some e := by
        rw [← List.head?_eq_getElem?]
        exact he
      simp only [system, step, if_neg hpc, hway, Option.bind_some, hstep, Option.map_some, u]
    have hset : (s.set w t u).worker w = u := set_worker s w t u
    obtain ⟨s', hr', hpc', hrounds, hb'⟩ := ih (hr.next hnext) (by rw [hset, htarget]; exact hp) hM
    refine ⟨s', hr', hpc', ?_, hb'⟩
    rw [hrounds, hset]

theorem exists_rounds (prog : Program) (w : ι) (n : ℕ) :
    ∃ s, (system ι prog).Reachable s ∧ (s.worker w).task.pc = .idle ∧
      (s.worker w).rounds = n ∧ ∃ M, s.files.Below M := by
  induction n with
  | zero =>
    have hinit : (system ι prog).init ⟨fun _ ↦ none, fun _ ↦ .start prog⟩ :=
      ⟨fun _ ↦ rfl, fun _ _ ↦ nofun⟩
    exact exists_finish (.start hinit) (path_initial prog) ⟨0, fun _ _ ↦ rfl⟩
  | succ n ih =>
    obtain ⟨s, hr, hpc, hrounds, hb⟩ := ih
    have hstep : (system ι prog).step s ⟨w, 0, []⟩ =
        some (s.set w s.files ((s.worker w).begin prog s.files)) := by
      simp only [system, step, if_pos hpc]
    have hset := set_worker s w s.files ((s.worker w).begin prog s.files)
    have hpath := path_first prog (BitVec.ofNat 32 (s.worker w).rounds == 0)
    rw [← ((reachable_inv hr).worker w).entry] at hpath
    obtain ⟨s', hr', hpc', hrounds', hb'⟩ := exists_finish (hr.next hstep) (by rw [hset]; exact hpath) hb
    refine ⟨s', hr', hpc', ?_, hb'⟩
    rw [hrounds', hset, ← hrounds]
    rfl

end Runs

def Program.Closes (rounds : ℕ) : Program → Prop
  | .socketpair => False
  | .connection _ _ => rounds ≤ 2 ^ 32
  | .closeTcp => True

theorem kept_eq_left {prog : Program} {u : Worker ι} {t : Files ι} {w : ι} (h : u.Inv prog t w)
    (hpc : u.task.pc = .idle) (h₁ : u.rounds ≠ 0) (hc : prog.Closes u.rounds) :
    (u.kept prog).map some = (left prog u.once).map u.task.vars := by
  cases prog with
  | socketpair => exact hc.elim
  | closeTcp => simp [Worker.kept, Worker.once, h₁, left]
  | connection opta optc =>
    rw [Worker.once, if_neg h₁, Rounds.counter_eq_zero h₁ hc]
    by_cases h₂ : u.rounds = 1
    · obtain ⟨live, hlive, -⟩ := h.live hpc
      have honce : u.once = some true := by
        rw [Worker.once, if_neg h₁, Rounds.counter_eq_zero h₁ hc, decide_eq_true h₂]
      rw [honce] at hlive
      obtain ⟨fd, l, -, hfd, -⟩ := List.map_eq_cons_iff.mp hlive
      simp [Worker.kept, h₂, left, ← hfd]
    · simp [Worker.kept, h₂, left]

theorem Balanced.length_left {prog : Program} {rounds n : ℕ} (h : Balanced prog rounds)
    (h₁ : n ≠ 0) (hn : n ≤ rounds) :
    ∃ u : Worker Unit, u.rounds = n ∧ (left prog u.once).length = (u.kept prog).length := by
  obtain ⟨s, hr, hpc, hrounds, -⟩ := exists_rounds prog () n
  have hclean := (h Unit s hr (fun _ ↦ hrounds.trans_le hn) ()).1 hpc (hrounds ▸ h₁)
  exact ⟨s.worker (), hrounds, ((reachable_inv hr).worker ()).length_left hpc hclean⟩

/-- A round of `socketpair` leaves its second descriptor open, and `connection` opens the listening
socket once more when its `int` is zero again. -/
theorem balanced_iff (prog : Program) (rounds : ℕ) :
    Balanced prog rounds ↔ rounds = 0 ∨ prog.Closes rounds := by
  constructor
  · intro h
    by_cases h₀ : rounds = 0
    · exact .inl h₀
    right
    cases prog with
    | closeTcp => trivial
    | socketpair =>
      obtain ⟨u, hu, hlen⟩ := h.length_left one_ne_zero (Nat.one_le_iff_ne_zero.mpr h₀)
      simp [Worker.once, hu, left, Worker.kept] at hlen
    | connection opta optc =>
      by_contra hgt
      obtain ⟨u, hu, hlen⟩ := h.length_left (Nat.succ_ne_zero (2 ^ 32)) (Nat.lt_of_not_le hgt)
      have hzero : u.once = some true := by
        rw [Worker.once, hu]
        rfl
      rw [hzero, Worker.kept, if_neg (by rw [hu]; decide)] at hlen
      cases hlen
  · intro hcond ι _ s hr hle w
    have hi := (reachable_inv hr).worker w
    refine ⟨fun hpc h₁ ↦ hi.clean hpc (kept_eq_left hi hpc h₁ ?_), hi.closable⟩
    rcases hcond with h₀ | hc
    · exact absurd (Nat.le_zero.mp ((hle w).trans_eq h₀)) h₁
    · cases prog with
      | socketpair => exact hc
      | connection opta optc => exact (hle w).trans hc
      | closeTcp => trivial

def socketpairRound : List (Label Unit) := [⟨(), 0, []⟩, ⟨(), 0, []⟩, ⟨(), 0, [3, 4]⟩, ⟨(), 0, []⟩]

theorem socketpair_leaks :
    (∃ s, (system Unit .socketpair).Reachable s ∧ (s.worker ()).task.pc = .idle ∧
      (s.worker ()).rounds = 1 ∧ (s.worker ()).task.opened = [3, 4] ∧
      (s.worker ()).task.closed = [3] ∧ s.files 4 = some (some ())) ∧ ¬ Balanced .socketpair 1 := by
  let start : State Unit := ⟨fun fd ↦ if fd < 3 then some none else none, fun _ ↦ .start .socketpair⟩
  have hinit : (system Unit .socketpair).init start := by
    refine ⟨fun _ ↦ rfl, fun w fd ↦ ?_⟩
    by_cases hfd : fd < 3
    · simp [start, hfd]
    · simp [start, hfd]
  obtain ⟨s, hexec, hpc, hrounds, hopened, hclosed, hfile⟩ :
      ∃ s, (system Unit .socketpair).exec start socketpairRound = some s ∧
        (s.worker ()).task.pc = .idle ∧ (s.worker ()).rounds = 1 ∧
        (s.worker ()).task.opened = [3, 4] ∧ (s.worker ()).task.closed = [3] ∧
        s.files 4 = some (some ()) :=
    ⟨_, rfl, rfl, rfl, rfl, rfl, rfl⟩
  have hr := System.exec_reachable hexec hinit
  refine ⟨⟨s, hr, hpc, hrounds, hopened, hclosed, hfile⟩, fun h ↦ ?_⟩
  have hclean := (h Unit s hr (fun _ ↦ Nat.le_of_eq hrounds) ()).1 hpc (by rw [hrounds]; decide)
  have hlen := hclean.closed.length_eq
  rw [hopened, hclosed] at hlen
  simp [Worker.kept] at hlen

end LibMicro.Sockets
