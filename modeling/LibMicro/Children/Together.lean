import LibMicro.Children.Model

namespace LibMicro.Children

open TransitionSystem Barrier

variable {P T : ℕ} {prog : Program} {s s' : State P T} {a : Act P T} {w v : Fin P × Fin T}
  {k : ℕ} {x y : Party P T} {c : Stmt}

theorem Program.script_length (prog : Program) : prog.script.length = 5 := by cases prog <;> rfl

theorem Program.fork_once (prog : Program) {p : ℕ} (h : prog.script[p]? = some .fork) :
    .fork ∉ prog.script.take p ∧ .queue ∉ prog.script.take p := by
  have hp := (List.getElem?_eq_some_iff.mp h).1
  rw [prog.script_length] at hp
  have hall : ∀ p < 5, prog.script[p]? = some .fork →
      .fork ∉ prog.script.take p ∧ .queue ∉ prog.script.take p := by
    cases prog <;> decide
  exact hall p hp h

theorem Program.mem_script (prog : Program) : .fork ∈ prog.script ∧ .queue ∈ prog.script := by
  cases prog <;> decide

inductive Moves (prog : Program) (s : State P T) : Act P T → State P T → Prop
  | fork (w : Fin P × Fin T) (hq : s.queue w = none) (hc : prog.script[s.pos w]? = some .fork) :
    Moves prog s (.worker w) ((s.setChild w (s.round w) .born).goOn w)
  | sync (w : Fin P × Fin T) (hq : s.queue w = none) (hc : prog.script[s.pos w]? = some .sync) :
    Moves prog s (.worker w) (s.goOn w)
  | call (w : Fin P × Fin T) (hq : s.queue w = none) (hc : prog.script[s.pos w]? = some .queue) :
    Moves prog s (.worker w) { s with queue := Function.update s.queue w (some .lock) }
  | reap (a : Act P T) (w v : Fin P × Fin T) (k : ℕ)
    (hc : prog.script[s.pos w]? = some .waitAny ∨ prog.script[s.pos w]? = some .waitOwn)
    (hz : s.child v k = .zombie) : Moves prog s a ((s.setChild v k .reaped).goOn w)
  | round (w : Fin P × Fin T) (hq : s.queue w = none) (hc : prog.script[s.pos w]? = none) :
    Moves prog s (.worker w) { s with
      round := Function.update s.round w (s.round w + 1)
      pos := Function.update s.pos w 0 }
  | enter (w : Fin P × Fin T) (k : ℕ) (hb : s.child w k = .born) :
    Moves prog s (.enter w k) (s.setChild w k (.queued .lock))
  | queue (x : Party P T) (q : QueuePc) (b : BarrierT (Party P T)) (next : Option QueuePc)
    (hx : s.pc x = some q) (hb : queueStep 0 s.bar x none q = some (b, next)) :
    Moves prog s (.queue x) ({ s with bar := b }.resume next x)
  | exit (w : Fin P × Fin T) (k : ℕ) (he : s.child w k = .exiting) :
    Moves prog s (.exit w k) (s.setChild w k .zombie)
  | spurious (x : Party P T) :
    Moves prog s (.spurious x) { s with bar := { s.bar with baCv := s.bar.baCv.erase x } }

theorem step_moves (h : step prog s a = some s') : Moves prog s a s' := by
  cases a with
  | worker w =>
    simp only [step] at h
    split at h
    case h_1 => cases h
    case h_2 hq hc => cases h; exact .fork w hq hc
    case h_3 hq hc =>
      split_ifs at h
      cases h
      exact .sync w hq hc
    case h_4 hq hc => cases h; exact .call w hq hc
    case h_5 => cases h
    case h_6 hq hc =>
      split_ifs at h with hz
      cases h
      exact .reap _ w w (s.round w) (.inr hc) hz
    case h_7 hq hc => cases h; exact .round w hq hc
  | reap w v k =>
    simp only [step] at h
    split_ifs at h with hr
    cases h
    exact .reap _ w v k (.inl hr.1) hr.2.2
  | enter w k =>
    simp only [step] at h
    split_ifs at h with hb
    cases h
    exact .enter w k hb
  | queue x =>
    simp only [step] at h
    split at h
    case h_1 q hq =>
      obtain ⟨⟨b, next⟩, hb, rfl⟩ := Option.map_eq_some_iff.mp h
      exact .queue x q b next hq hb
    case h_2 => cases h
  | exit w k =>
    simp only [step] at h
    split_ifs at h with he
    cases h
    exact .exit w k he
  | spurious x =>
    simp only [step] at h
    split_ifs at h
    cases h
    exact .spurious x

theorem child_setChild (s : State P T) (w v : Fin P × Fin T) (k i : ℕ) (c : Child) :
    (s.setChild w k c).child v i = if v = w ∧ i = k then c else s.child v i := by
  simp only [State.setChild]
  by_cases hv : v = w
  · subst hv
    by_cases hi : i = k
    · subst hi
      simp
    · simp [hi]
  · simp [hv]

theorem passed_goOn (s : State P T) (w v : Fin P × Fin T) (k : ℕ) (c : Stmt) :
    (s.goOn w).Passed prog v k c ↔
      s.Passed prog v k c ∨ v = w ∧ s.round v = k ∧ prog.script[s.pos v]? = some c := by
  simp only [State.Passed, State.goOn]
  by_cases hv : v = w
  · subst hv
    rw [Function.update_self, List.take_add_one, List.mem_append, Option.mem_toList]
    simp only [true_and]
    tauto
  · rw [Function.update_of_ne hv]
    simp [hv]

theorem passed_round (hc : prog.script[s.pos w]? = none) (hmem : c ∈ prog.script) :
    ({ s with round := Function.update s.round w (s.round w + 1),
              pos := Function.update s.pos w 0 } : State P T).Passed prog v k c ↔
      s.Passed prog v k c := by
  simp only [State.Passed]
  by_cases hv : v = w
  · subst hv
    have htake : prog.script.take (s.pos v) = prog.script :=
      List.take_of_length_le (List.getElem?_eq_none_iff.mp hc)
    simp only [Function.update_self, List.take_zero, htake, hmem, and_true, List.not_mem_nil,
      and_false, or_false]
    omega
  · rw [Function.update_of_ne hv, Function.update_of_ne hv]

/-- What holds whether or not the parties start together. -/
structure Placed (prog : Program) (s : State P T) : Prop where
  queue : ∀ w, s.queue w ≠ none → prog.script[s.pos w]? = some .queue
  unborn : ∀ w k, ¬ s.Passed prog w k .fork → s.child w k = .unborn

theorem Placed.goOn (hp : Placed prog s) (hq : s.queue w = none) : Placed prog (s.goOn w) where
  queue v hv := by
    have hne : v ≠ w := fun h ↦ hv (h ▸ hq)
    simp only [State.goOn, Function.update_of_ne hne]
    exact hp.queue v hv
  unborn v k hv := hp.unborn v k fun h ↦ hv ((passed_goOn s w v k .fork).mpr (.inl h))

theorem Placed.setChild {c : Child} (hp : Placed prog s) (hw : s.Passed prog w k .fork) :
    Placed prog (s.setChild w k c) where
  queue := hp.queue
  unborn v i hv := by
    rw [child_setChild]
    split_ifs with h
    · obtain ⟨rfl, rfl⟩ := h
      exact absurd hw hv
    · exact hp.unborn v i hv

theorem Placed.passed (hp : Placed prog s) (hw : s.child w k ≠ .unborn) :
    s.Passed prog w k .fork := by
  by_contra h
  exact hw (hp.unborn w k h)

theorem Placed.idle (hp : Placed prog s) (hc : prog.script[s.pos w]? ≠ some .queue) :
    s.queue w = none := by
  by_contra h
  exact hc (hp.queue w h)

theorem pc_child {q : QueuePc} (h : s.pc (.child w k) = some q) : s.child w k = .queued q := by
  simp only [State.pc] at h
  split at h
  case h_1 hc => cases h; exact hc
  all_goals cases h

theorem Placed.bar (hp : Placed prog s) (b : BarrierT (Party P T)) : Placed prog { s with bar := b } :=
  ⟨hp.queue, hp.unborn⟩

theorem Placed.update {q : Option QueuePc} (hp : Placed prog s)
    (hq : q ≠ none → prog.script[s.pos w]? = some .queue) :
    Placed prog { s with queue := Function.update s.queue w q } where
  queue v hv := by
    simp only at hv ⊢
    by_cases he : v = w
    · subst he
      rw [Function.update_self] at hv
      exact hq hv
    · rw [Function.update_of_ne he] at hv
      exact hp.queue v hv
  unborn := hp.unborn

theorem Placed.resume {q : QueuePc} (hp : Placed prog s) (hx : s.pc x = some q)
    (next : Option QueuePc) : Placed prog (s.resume next x) := by
  cases x with
  | worker w =>
    have hc := hp.queue w (by rw [show s.queue w = some q from hx]; exact Option.some_ne_none q)
    cases next with
    | some q' => exact hp.update fun _ ↦ hc
    | none => exact (hp.update fun h ↦ absurd rfl h).goOn (Function.update_self _ _ _)
  | child w k =>
    have hw := hp.passed (w := w) (k := k) (by rw [pc_child hx]; nofun)
    cases next with
    | some q' => exact hp.setChild hw
    | none => exact hp.setChild hw

theorem Placed.step (hp : Placed prog s) (h : Moves prog s a s') : Placed prog s' := by
  cases h with
  | fork w hq hc =>
    exact (hp.goOn hq).setChild ((passed_goOn s w w _ .fork).mpr (.inr ⟨rfl, rfl, hc⟩))
  | sync w hq hc => exact hp.goOn hq
  | call w hq hc => exact hp.update fun _ ↦ hc
  | reap _ w v k hc hz =>
    have hq : s.queue w = none := hp.idle (by rcases hc with hc | hc <;> rw [hc] <;> nofun)
    exact (hp.setChild (hp.passed (by rw [hz]; nofun))).goOn hq
  | round w hq hc =>
    refine ⟨fun v hv ↦ ?_, fun v k hv ↦ hp.unborn v k fun h ↦ hv ?_⟩
    · have hne : v ≠ w := fun h ↦ hv (h ▸ hq)
      simp only [Function.update_of_ne hne]
      exact hp.queue v hv
    · exact (passed_round hc prog.mem_script.1).mpr h
  | enter w k hb => exact hp.setChild (hp.passed (by rw [hb]; nofun))
  | queue x q b next hx hb => exact (hp.bar b).resume hx next
  | exit w k he => exact hp.setChild (hp.passed (by rw [he]; nofun))
  | spurious x => exact hp.bar _

theorem entered_goOn (he : s.Entered prog v k) (w : Fin P × Fin T) :
    (s.goOn w).Entered prog v k :=
  ⟨he.1.imp_left fun h ↦ (passed_goOn s w v k .queue).mpr (.inl h), he.2⟩

theorem entered_setChild {c : Child} {i : ℕ} (he : s.Entered prog v k)
    (hc : v = w ∧ k = i → c ≠ .unborn ∧ c ≠ .born) : (s.setChild w i c).Entered prog v k := by
  refine ⟨he.1, ?_⟩
  rw [child_setChild]
  split_ifs with h
  · exact hc h
  · exact he.2

theorem entered_resume (hp : Placed prog s) (he : s.Entered prog v k) (next : Option QueuePc)
    (x : Party P T) : (s.resume next x).Entered prog v k := by
  cases x with
  | worker w =>
    cases next with
    | some q =>
      refine ⟨he.1.imp_right fun h ↦ ⟨h.1, ?_⟩, he.2⟩
      simp only [State.resume]
      by_cases hv : v = w
      · simp [hv]
      · rw [Function.update_of_ne hv]
        exact h.2
    | none =>
      refine ⟨?_, he.2⟩
      rcases he.1 with h | ⟨hk, hq⟩
      · exact .inl ((passed_goOn _ w v k .queue).mpr (.inl h))
      · by_cases hv : v = w
        · exact .inl ((passed_goOn _ w v k .queue).mpr (.inr ⟨hv, hk, hp.queue v hq⟩))
        · refine .inr ⟨hk, ?_⟩
          simpa only [State.resume, State.goOn, Function.update_of_ne hv] using hq
  | child w i =>
    cases next with
    | some q => exact entered_setChild he fun _ ↦ ⟨nofun, nofun⟩
    | none => exact entered_setChild he fun _ ↦ ⟨nofun, nofun⟩

theorem entered_mono (hp : Placed prog s) (h : Moves prog s a s') (he : s.Entered prog v k) :
    s'.Entered prog v k := by
  cases h with
  | fork w hq hc =>
    refine entered_goOn (entered_setChild he fun hvk ↦ ?_) w
    obtain ⟨rfl, rfl⟩ := hvk
    rcases he.1 with (hlt | ⟨-, hmem⟩) | ⟨-, hne⟩
    · exact absurd hlt (lt_irrefl _)
    · exact absurd hmem (prog.fork_once hc).2
    · exact absurd hq hne
  | sync w hq hc => exact entered_goOn he w
  | call w hq hc => exact entered_resume (x := .worker w) hp he (some .lock)
  | reap _ w v k hc hz =>
    exact entered_goOn (entered_setChild (c := .reaped) he fun _ ↦ ⟨nofun, nofun⟩) w
  | round w hq hc =>
    refine ⟨he.1.imp (passed_round hc prog.mem_script.2).mpr fun h ↦ ?_, he.2⟩
    have hv : v ≠ w := fun hv ↦ h.2 (hv ▸ hq)
    exact ⟨(Function.update_of_ne hv _ _).trans h.1, h.2⟩
  | enter w k hb => exact entered_setChild he fun _ ↦ ⟨nofun, nofun⟩
  | queue x q b next hx hb => exact entered_resume (s := { s with bar := b }) (hp.bar b) he next x
  | exit w k he' => exact entered_setChild he fun _ ↦ ⟨nofun, nofun⟩
  | spurious x => exact he

theorem returned_goOn (hc : prog.script[s.pos w]? ≠ some .queue)
    (hr : (s.goOn w).Returned prog v k) : s.Returned prog v k := by
  refine hr.imp_left fun h ↦ ?_
  rcases (passed_goOn s w v k .queue).mp h with h | ⟨rfl, -, h⟩
  · exact h
  · exact absurd h hc

theorem returned_setChild {c : Child} {i : ℕ} (hr : (s.setChild w i c).Returned prog v k)
    (hc : c = .exiting ∨ c = .zombie ∨ c = .reaped →
      s.child w i = .exiting ∨ s.child w i = .zombie ∨ s.child w i = .reaped) :
    s.Returned prog v k := by
  refine hr.imp_right fun h ↦ ?_
  rw [child_setChild] at h
  split_ifs at h with hvk
  · rw [hvk.1, hvk.2]
    exact hc h
  · exact h

theorem returned_resume {q : QueuePc} (hx : s.pc x = some q) {next : Option QueuePc}
    (hr : (s.resume next x).Returned prog v k) :
    s.Returned prog v k ∨ next = none ∧ k = s.roundOf x := by
  cases x with
  | worker w =>
    cases next with
    | some q' => exact .inl hr
    | none =>
      rcases hr with h | h
      · rcases (passed_goOn _ w v k .queue).mp h with h | ⟨rfl, h, -⟩
        · exact .inl (.inl h)
        · exact .inr ⟨rfl, h.symm⟩
      · exact .inl (.inr h)
  | child w i =>
    cases next with
    | some q' => exact .inl (returned_setChild hr nofun)
    | none =>
      by_cases hvk : v = w ∧ k = i
      · exact .inr ⟨rfl, hvk.2⟩
      · refine .inl (hr.imp_right fun h ↦ ?_)
        simp only [State.resume, child_setChild, if_neg hvk] at h
        exact h

theorem pc_goOn (s : State P T) (w : Fin P × Fin T) (x : Party P T) : (s.goOn w).pc x = s.pc x := by
  cases x <;> rfl

theorem pc_setChild {c : Child} {i : ℕ} {q : QueuePc} (h : (s.setChild w i c).pc x = some q) :
    c = .queued q ∨ s.pc x = some q := by
  cases x with
  | worker v => exact .inr h
  | child v k =>
    have hc := pc_child h
    rw [child_setChild] at hc
    split_ifs at hc with hvk
    · exact .inl hc
    · right
      simp only [State.pc, hc]

theorem pc_update {q q' : QueuePc}
    (h : ({ s with queue := Function.update s.queue w (some q) } : State P T).pc x = some q') :
    q' = q ∨ s.pc x = some q' := by
  cases x with
  | worker v =>
    simp only [State.pc] at h
    by_cases hv : v = w
    · subst hv
      rw [Function.update_self] at h
      exact .inl (Option.some.inj h).symm
    · rw [Function.update_of_ne hv] at h
      exact .inr h
  | child v k => exact .inr h

theorem Moves.frame (h : Moves prog s a s') :
    (∃ x q b next, a = .queue x ∧ s.pc x = some q ∧ queueStep 0 s.bar x none q = some (b, next) ∧
      s' = { s with bar := b }.resume next x) ∨
    s'.bar.baPhase = s.bar.baPhase ∧
      (∀ x q, s'.pc x = some q → q = .lock ∨ s.pc x = some q ∧ s'.roundOf x = s.roundOf x) ∧
      ∀ v k, s'.Returned prog v k → s.Returned prog v k := by
  have same {x : Party P T} (t : State P T) (ht : t.round = s.round) : t.roundOf x = s.roundOf x := by
    cases x <;> simp [State.roundOf, ht]
  cases h with
  | fork w hq hc =>
    refine .inr ⟨rfl, fun x q hx ↦ ?_, fun v k hr ↦ ?_⟩
    · rw [pc_goOn] at hx
      exact .inr ⟨(pc_setChild hx).resolve_left nofun, same _ rfl⟩
    · exact returned_setChild (returned_goOn (fun h ↦ nomatch hc.symm.trans h) hr) nofun
  | sync w hq hc =>
    exact .inr ⟨rfl, fun x q hx ↦ .inr ⟨hx, same _ rfl⟩,
      fun v k hr ↦ returned_goOn (by rw [hc]; nofun) hr⟩
  | call w hq hc =>
    exact .inr ⟨rfl, fun x q hx ↦ (pc_update hx).imp_right fun h ↦ ⟨h, same _ rfl⟩,
      fun v k hr ↦ hr⟩
  | reap _ w v k hc hz =>
    refine .inr ⟨rfl, fun x q hx ↦ ?_, fun v' k' hr ↦ ?_⟩
    · rw [pc_goOn] at hx
      exact .inr ⟨(pc_setChild hx).resolve_left nofun, same _ rfl⟩
    · refine returned_setChild (returned_goOn ?_ hr) fun _ ↦ .inr (.inl hz)
      rcases hc with hc | hc <;> exact fun h ↦ nomatch hc.symm.trans h
  | round w hq hc =>
    refine .inr ⟨rfl, fun x q hx ↦ .inr ⟨hx, ?_⟩, fun v k hr ↦ ?_⟩
    · cases x with
      | worker v =>
        have hv : v ≠ w := fun hv ↦ nomatch (hv ▸ hq).symm.trans hx
        exact Function.update_of_ne hv _ _
      | child v k => rfl
    · exact hr.imp_left (passed_round hc prog.mem_script.2).mp
  | enter w k hb =>
    refine .inr ⟨rfl, fun x q hx ↦ ?_, fun v k hr ↦ returned_setChild hr nofun⟩
    rcases pc_setChild hx with h | h
    · exact .inl (Child.queued.inj h).symm
    · exact .inr ⟨h, same _ rfl⟩
  | queue x q b next hx hb => exact .inl ⟨x, q, b, next, rfl, hx, hb, rfl⟩
  | exit w k he =>
    refine .inr ⟨rfl, fun x q hx ↦ ?_, fun v k hr ↦ returned_setChild hr fun _ ↦ .inl he⟩
    exact .inr ⟨(pc_setChild hx).resolve_left nofun, same _ rfl⟩
  | spurious x => exact .inr ⟨rfl, fun x q hx ↦ .inr ⟨hx, same _ rfl⟩, fun v k hr ↦ hr⟩

def State.Assembled (prog : Program) (s : State P T) (x : Party P T) : Prop :=
  ∀ v, s.Entered prog v (s.roundOf x)

/-- Who has seen a phase change, and who has returned, did so in a round that
all have entered. -/
structure Ok (prog : Program) (s : State P T) : Prop where
  placed : Placed prog s
  saved : ∀ x q p, s.pc x = some q → q.saved = some p → p = s.bar.baPhase ∨ s.Assembled prog x
  unlock : ∀ x p, s.pc x = some (.unlock p) → s.Assembled prog x
  together : s.Together prog

theorem pc_resume {q : QueuePc} (hx : s.pc x = some q) (next : Option QueuePc) (y : Party P T) :
    (s.resume next x).pc y = if y = x then next else s.pc y := by
  by_cases hy : y = x
  · rw [if_pos hy, hy]
    cases x with
    | worker w => cases next <;> simp [State.resume, State.goOn, State.pc]
    | child w k => cases next <;> simp [State.resume, State.setChild, State.pc]
  · rw [if_neg hy]
    cases x with
    | worker w =>
      cases y with
      | worker v =>
        have hv : v ≠ w := fun h ↦ hy (congrArg Party.worker h)
        cases next <;> simp [State.resume, State.goOn, State.pc, hv]
      | child v k => cases next <;> rfl
    | child w k =>
      cases y with
      | worker v => cases next <;> rfl
      | child v i =>
        have hv : ¬ (v = w ∧ i = k) := fun h ↦ hy (by rw [h.1, h.2])
        cases next <;> simp only [State.resume, State.pc, child_setChild, if_neg hv]

theorem roundOf_resume (s : State P T) (next : Option QueuePc) (x y : Party P T) :
    (s.resume next x).roundOf y = s.roundOf y := by
  cases x <;> cases next <;> cases y <;> rfl

/-- Only the last arrival changes the phase. The others see the change in their
test, and return after it. -/
theorem queueStep_phase {b b' : BarrierT (Party P T)} {q : QueuePc} {next : Option QueuePc}
    (h : queueStep 0 b x none q = some (b', next)) :
    q = .arrive ∧ b.baHwm = b.baWaiters + 1 ∧ next ≠ none ∨
    b'.baPhase = b.baPhase ∧
      (∀ q' p, next = some q' → q'.saved = some p → q.saved = some p ∨ p = b.baPhase) ∧
      (∀ p, next = some (.unlock p) → q = .test p ∧ p ≠ b.baPhase) ∧
      (next = none → ∃ p, q = .unlock p) := by
  cases q with
  | lock | wait p =>
    simp only [queueStep] at h
    split_ifs at h
    cases h
    exact .inr ⟨rfl, by rintro q' p ⟨⟩ hp; exact .inl hp, nofun, nofun⟩
  | record | addSample r | broadcast p =>
    simp only [queueStep] at h
    cases h
    exact .inr ⟨rfl, by rintro q' p ⟨⟩ hp; exact .inl hp, nofun, nofun⟩
  | arrive =>
    simp only [queueStep] at h
    split_ifs at h with hl
    · cases h
      exact .inl ⟨rfl, hl, nofun⟩
    · cases h
      exact .inr ⟨rfl, by rintro q' p ⟨⟩ hp; exact .inr (Option.some.inj hp).symm, nofun, nofun⟩
  | test p =>
    simp only [queueStep] at h
    split_ifs at h with hp
    · cases h
      exact .inr ⟨rfl, by rintro q' p' ⟨⟩ hp'; exact .inl hp', nofun, nofun⟩
    · cases h
      refine .inr ⟨rfl, by rintro q' p' ⟨⟩ hp'; exact .inl hp', ?_, nofun⟩
      rintro p' ⟨⟩
      exact ⟨rfl, Ne.symm hp⟩
  | unlock p =>
    simp only [queueStep] at h
    cases h
    exact .inr ⟨rfl, nofun, nofun, fun _ ↦ ⟨p, rfl⟩⟩

theorem Ok.step (ho : Ok prog s) (hg : Assembled prog s a) (hst : step prog s a = some s') :
    Ok prog s' := by
  have h := step_moves hst
  have hmono {v : Fin P × Fin T} {k : ℕ} : s.Entered prog v k → s'.Entered prog v k :=
    entered_mono ho.placed h
  have hplaced := ho.placed.step h
  rcases h.frame with ⟨x, q, b, next, rfl, hx, hb, rfl⟩ | ⟨hphase, hpc, hret⟩
  · have hkeep {y : Party P T} (hy : s.Assembled prog y) :
        ({ s with bar := b }.resume next x).Assembled prog y := fun v ↦ by
      rw [roundOf_resume]
      exact hmono (hy v)
    have hbar : ({ s with bar := b }.resume next x).bar = b := by
      cases x <;> cases next <;> rfl
    have hpc := pc_resume (s := { s with bar := b }) hx next
    have hin {y : Party P T} {q' : QueuePc} (hy : ({ s with bar := b }.resume next x).pc y = some q') :
        y = x ∧ next = some q' ∨ s.pc y = some q' := by
      rw [hpc] at hy
      split_ifs at hy with hyx
      · exact .inl ⟨hyx, hy⟩
      · exact .inr hy
    rcases queueStep_phase hb with ⟨rfl, hl, hne⟩ | ⟨hphase, hsaved, hunlock, hnone⟩
    · have hall {y : Party P T} {q' : QueuePc}
          (hy : ({ s with bar := b }.resume next x).pc y = some q') :
          ({ s with bar := b }.resume next x).Assembled prog y := by
        refine hkeep (hg hx hl y ?_)
        rcases hin hy with ⟨rfl, -⟩ | hy
        · exact fun h ↦ nomatch h.symm.trans hx
        · exact fun h ↦ nomatch h.symm.trans hy
      refine ⟨hplaced, fun y q' p hy _ ↦ .inr (hall hy), fun y p hy ↦ hall hy, ?_⟩
      intro k w hr v
      rcases returned_resume (s := { s with bar := b }) hx hr with hr | ⟨hn, -⟩
      · exact hmono (ho.together k w hr v)
      · exact absurd hn hne
    · refine ⟨hplaced, fun y q' p hy hp ↦ ?_, fun y p hy ↦ ?_, fun k w hr v ↦ ?_⟩
      · rw [hbar, hphase]
        rcases hin hy with ⟨rfl, hn⟩ | hy
        · rcases hsaved q' p hn hp with hp | hp
          · exact (ho.saved y q p hx hp).imp_right hkeep
          · exact .inl hp
        · exact (ho.saved y q' p hy hp).imp_right hkeep
      · rcases hin hy with ⟨rfl, hn⟩ | hy
        · obtain ⟨rfl, hne⟩ := hunlock p hn
          exact hkeep ((ho.saved y _ p hx rfl).resolve_left hne)
        · exact hkeep (ho.unlock y p hy)
      · rcases returned_resume (s := { s with bar := b }) hx hr with hr | ⟨hn, rfl⟩
        · exact hmono (ho.together k w hr v)
        · obtain ⟨p, rfl⟩ := hnone hn
          exact hmono (ho.unlock x p hx v)
  · have hkeep {y : Party P T} (hr : s'.roundOf y = s.roundOf y) (hy : s.Assembled prog y) :
        s'.Assembled prog y := fun v ↦ by
      rw [hr]
      exact hmono (hy v)
    refine ⟨hplaced, fun y q p hy hp ↦ ?_, fun y p hy ↦ ?_, fun k w hr v ↦ ?_⟩
    · rcases hpc y q hy with rfl | ⟨hy, hr⟩
      · cases hp
      · rw [hphase]
        exact (ho.saved y q p hy hp).imp_right (hkeep hr)
    · rcases hpc y _ hy with h | ⟨hy, hr⟩
      · cases h
      · exact hkeep hr (ho.unlock y p hy)
    · exact hmono (ho.together k w (hret w k hr) v)

theorem start_ok (prog : Program) (P T : ℕ) : Ok prog (start P T) where
  placed := ⟨fun w h ↦ absurd rfl h, fun w k _ ↦ rfl⟩
  saved x q p hx := by cases x <;> cases hx
  unlock x p hx := by cases x <;> cases hx
  together k w hr := by
    rcases hr with (h | ⟨-, h⟩) | h
    · exact absurd h (Nat.not_lt_zero k)
    · exact absurd h List.not_mem_nil
    · simp [start] at h

theorem reachable_together (hs : (system prog P T).ReachableBy (Assembled prog) s) :
    s.Together prog := by
  have ho : Ok prog s := hs.invariant (fun _ h ↦ h ▸ start_ok prog P T)
    (fun _ _ _ _ ho hg hst ↦ ho.step hg hst)
  exact ho.together

def State.withChild (s : State P T) (w : Fin P × Fin T) (b : BarrierT (Party P T)) (c : Child) :
    State P T := { s with bar := b }.setChild w 0 c

theorem withChild_withChild (s : State P T) (b b' : BarrierT (Party P T)) (c c' : Child) :
    (s.withChild w b c).withChild w b' c' = s.withChild w b' c' := by
  simp only [State.withChild, State.setChild, Function.update_self, Function.update_idem]

theorem child_withChild (s : State P T) (b : BarrierT (Party P T)) (c : Child) :
    (s.withChild w b c).child w 0 = c := by
  simp [State.withChild, State.setChild]

theorem child_run {b b' : BarrierT (Party P T)} {q : QueuePc} {next : Option QueuePc}
    (h : queueStep 0 b (.child w 0) none q = some (b', next)) :
    (system prog P T).Run (s.withChild w b (.queued q)) [.queue (.child w 0)]
      (s.withChild w b' (next.elim .exiting .queued)) := by
  refine System.Run.one ?_
  have hpc : (s.withChild w b (.queued q)).pc (.child w 0) = some q := by
    simp only [State.pc, child_withChild]
  simp only [system, step, hpc]
  rw [show (s.withChild w b (.queued q)).bar = b from rfl, h, Option.map_some, Option.some.injEq]
  refine Eq.trans ?_ (withChild_withChild s b b' (.queued q) _)
  cases next <;> rfl

def arrivalLabels (w : Fin P × Fin T) : List (Act P T) :=
  [.enter w 0, .queue (.child w 0), .queue (.child w 0), .queue (.child w 0)]

theorem arrival_run (hb : s.child w 0 = .born) (hl : s.bar.baLock = none) {b : BarrierT (Party P T)}
    {q : QueuePc}
    (h : queueStep 0 { s.bar with baLock := some (.child w 0) } (.child w 0) none .arrive =
      some (b, some q)) :
    (system prog P T).Run s (arrivalLabels w) (s.withChild w b (.queued q)) := by
  have h₀ : (system prog P T).Run s [.enter w 0] (s.withChild w s.bar (.queued .lock)) :=
    System.Run.one (if_pos hb)
  have h₁ : queueStep 0 s.bar (.child w 0) none .lock =
      some ({ s.bar with baLock := some (.child w 0) }, some .record) := if_pos hl
  exact ((h₀.trans (child_run h₁)).trans (child_run rfl)).trans (child_run h)

/-- Only the first children of the workers in `l` have arrived, and they wait.
No worker has come to the barrier. -/
structure Gathered (prog : Program) (s : State P T) (l : List (Fin P × Fin T)) : Prop where
  reachable : (system prog P T).Reachable s
  hwm : s.bar.baHwm = P * T
  waiters : s.bar.baWaiters = l.length
  lock : s.bar.baLock = none
  outside : ∀ w, s.round w = 0 ∧ s.queue w = none ∧ s.pos w ≤ 2
  fresh : ∀ w, w ∉ l → s.pos w = 0

theorem start_gathered (prog : Program) (P T : ℕ) : Gathered prog (start P T) [] where
  reachable := .start rfl
  hwm := Int.mul_one _
  waiters := rfl
  lock := rfl
  outside _ := ⟨rfl, rfl, Nat.zero_le 2⟩
  fresh _ _ := rfl

theorem Gathered.bear {l : List (Fin P × Fin T)} (hg : Gathered prog s l) (hw : w ∉ l) :
    ∃ t, (system prog P T).Reachable t ∧ t.bar = s.bar ∧ t.child w 0 = .born ∧
      (∀ v, t.round v = 0 ∧ t.queue v = none ∧ t.pos v ≤ 2) ∧ ∀ v ≠ w, t.pos v = s.pos v := by
  obtain ⟨hround, hqueue, -⟩ := hg.outside w
  have hpos := hg.fresh w hw
  have hfork (t : State P T) (hr : (system prog P T).Reachable t) (hb : t.bar = s.bar)
      (hc : prog.script[t.pos w]? = some .fork) (hp : t.pos w ≤ 1)
      (ho : ∀ v, t.round v = 0 ∧ t.queue v = none ∧ t.pos v ≤ 2) (hv : ∀ v ≠ w, t.pos v = s.pos v) :
      ∃ t, (system prog P T).Reachable t ∧ t.bar = s.bar ∧ t.child w 0 = .born ∧
        (∀ v, t.round v = 0 ∧ t.queue v = none ∧ t.pos v ≤ 2) ∧ ∀ v ≠ w, t.pos v = s.pos v := by
    refine ⟨(t.setChild w 0 .born).goOn w, hr.next (a := .worker w) ?_, hb, ?_, fun v ↦ ?_, fun v hv' ↦ ?_⟩
    · simp only [system, step, hc, (ho w).2.1, (ho w).1]
    · exact (child_setChild t w w 0 0 .born).trans (if_pos ⟨rfl, rfl⟩)
    · refine ⟨(ho v).1, (ho v).2.1, ?_⟩
      simp only [State.goOn, State.setChild, Function.update_apply]
      split_ifs
      · omega
      · exact (ho v).2.2
    · simp only [State.goOn, State.setChild, Function.update_of_ne hv']
      exact hv v hv'
  cases prog with
  | exit => exact hfork s hg.reachable rfl (by rw [hpos]; rfl) (by omega) hg.outside fun v _ ↦ rfl
  | fork =>
    refine hfork (s.goOn w) (hg.reachable.next (a := .worker w) ?_) rfl ?_ ?_ (fun v ↦ ?_) fun v hv ↦ ?_
    · have hall : s.AllAt w (s.pos w) := fun v ↦
        .inr ⟨by rw [(hg.outside v).1, hround], by rw [hpos]; exact Nat.zero_le _⟩
      have hc : Program.fork.script[s.pos w]? = some .sync := by rw [hpos]; rfl
      simp only [system, step, hqueue, hc, if_pos hall]
    · simp only [State.goOn, Function.update_self, hpos]
      rfl
    · simp only [State.goOn, Function.update_self, hpos]
      omega
    · refine ⟨(hg.outside v).1, (hg.outside v).2.1, ?_⟩
      simp only [State.goOn, Function.update_apply]
      have := (hg.outside v).2.2
      split_ifs <;> omega
    · exact Function.update_of_ne hv _ _

theorem gather (prog : Program) {l : List (Fin P × Fin T)} (hl : l.Nodup) (hlen : l.length < P * T) :
    ∃ s : State P T, Gathered prog s l := by
  induction l with
  | nil => exact ⟨_, start_gathered prog P T⟩
  | cons w l ih =>
    obtain ⟨hw, hl⟩ := List.nodup_cons.mp hl
    rw [List.length_cons] at hlen
    obtain ⟨s, hg⟩ := ih hl (Nat.lt_of_succ_lt hlen)
    obtain ⟨t, hr, hb, hc, ho, hv⟩ := hg.bear hw
    have hlock : t.bar.baLock = none := hb ▸ hg.lock
    have hne : ¬ t.bar.baHwm = t.bar.baWaiters + 1 := by
      rw [hb, hg.hwm, hg.waiters]
      omega
    have harrive : (system prog P T).Run _ (arrivalLabels w) _ :=
      arrival_run hc hlock (if_neg hne)
    have hrun := harrive.trans (child_run (if_pos rfl))
    refine ⟨_, hrun.reachable hr, ?_, ?_, rfl, ho, fun v hvl ↦ ?_⟩
    · exact hb ▸ hg.hwm
    · show t.bar.baWaiters + 1 = _
      rw [hb, hg.waiters]
      rfl
    · rw [List.mem_cons, not_or] at hvl
      exact (hv v hvl.1).trans (hg.fresh v hvl.2)

theorem leave_run {b : BarrierT (Party P T)} {p : BitVec 32} (hp : b.baPhase ≠ p) :
    ∃ l b', (system prog P T).Run (s.withChild w b (.queued (.broadcast p))) l
      (s.withChild w b' .exiting) := by
  have h₁ : queueStep 0 b (.child w 0) none (.broadcast p) =
      some ({ b with baCv := ∅ }, some (.test p)) := rfl
  have h₂ : queueStep 0 { b with baCv := ∅ } (.child w 0) none (.test p) =
      some ({ b with baCv := ∅ }, some (.unlock p)) := if_neg hp
  have h₃ : queueStep 0 { b with baCv := ∅ } (.child w 0) none (.unlock p) =
      some ({ b with baCv := ∅, baLock := none }, none) := rfl
  exact ⟨_, _, ((child_run h₁).trans (child_run h₂)).trans (child_run h₃)⟩

theorem last_run (hb : s.child w 0 = .born) (hl : s.bar.baLock = none)
    (hlast : s.bar.baHwm = s.bar.baWaiters + 1) :
    ∃ l b, (system prog P T).Run s l (s.withChild w b .exiting) := by
  let released : BarrierT (Party P T) :=
    { s.bar with baLock := some (.child w 0), baWaiters := 0, baPhase := s.bar.baPhase + 1 }
  have hrun : (system prog P T).Run s (arrivalLabels w)
      (s.withChild w released (.queued (.broadcast s.bar.baPhase))) :=
    arrival_run hb hl (if_pos hlast)
  obtain ⟨l, b, hleave⟩ : ∃ l b', (system prog P T).Run
      (s.withChild w released (.queued (.broadcast s.bar.baPhase))) l (s.withChild w b' .exiting) :=
    leave_run
    (fun h ↦ absurd (BitVec.add_right_eq_self.mp h) (by decide))
  exact ⟨_, b, hrun.trans hleave⟩

/-- The last child to come lets all children go before any worker has come. -/
theorem exists_apart (prog : Program) (hP : 1 ≤ P) (hT : 1 ≤ T) :
    ∃ s : State P T, (system prog P T).Reachable s ∧ ∃ w, s.child w 0 = .exiting ∧
      ∀ v, ¬ s.Passed prog v 0 .queue ∧ s.queue v = none := by
  obtain ⟨w, l, hu⟩ : ∃ w l, (Finset.univ : Finset (Fin P × Fin T)).toList = w :: l := by
    refine List.exists_cons_of_ne_nil fun h ↦ ?_
    have := Finset.toList_eq_nil.mp h
    exact absurd (Finset.mem_univ (⟨⟨0, hP⟩, ⟨0, hT⟩⟩ : Fin P × Fin T)) (by simp [this])
  have hcard : l.length + 1 = P * T := by
    have := congrArg List.length hu
    rw [Finset.length_toList, Finset.card_univ, Fintype.card_prod, Fintype.card_fin,
      Fintype.card_fin] at this
    exact this.symm
  obtain ⟨hw, hl⟩ := List.nodup_cons.mp (hu ▸ Finset.nodup_toList _)
  obtain ⟨s, hg⟩ := gather prog hl (by omega)
  obtain ⟨t, hr, hb, hc, ho, -⟩ := hg.bear hw
  have hlast : t.bar.baHwm = t.bar.baWaiters + 1 := by
    rw [hb, hg.hwm, hg.waiters]
    omega
  obtain ⟨labels, b, hrun⟩ : ∃ l b, (system prog P T).Run _ l (_ : State P T) :=
    last_run hc (hb ▸ hg.lock) hlast
  refine ⟨_, hrun.reachable hr, w, child_withChild _ _ _, fun v ↦ ⟨?_, (ho v).2.1⟩⟩
  intro hpassed
  have h : t.Passed prog v 0 .queue := hpassed
  rcases h with h | ⟨-, h⟩
  · exact absurd h (Nat.not_lt.mpr (ho v).1.le)
  · have hmem := List.take_subset_take_left _ (ho v).2.2 h
    cases prog <;> revert hmem <;> decide

/-- The barrier has half as many places as a round has parties. Only where the
last arrival of each phase happens to find everybody inside do they start together. -/
theorem never_together (prog : Program) (P T : ℕ) (hP : 1 ≤ P) (hT : 1 ≤ T) :
    ¬ StartsTogether prog P T ∧
      ∀ s, (system prog P T).ReachableBy (Assembled prog) s → s.Together prog := by
  refine ⟨fun h ↦ ?_, fun s ↦ reachable_together⟩
  obtain ⟨s, hs, w, hw, hout⟩ := exists_apart prog hP hT
  have hin := h s hs 0 w (.inr (.inl hw)) w
  rcases hin.1 with hp | ⟨-, hq⟩
  · exact (hout w).1 hp
  · exact hq (hout w).2

theorem never_together_two : ¬ StartsTogether .fork 1 2 ∧
    ∀ s, (system .fork 1 2).ReachableBy (Assembled .fork) s → s.Together .fork :=
  never_together .fork 1 2 (by decide) (by decide)

/-- The only child of the only worker exits before the worker has begun its `benchmark`. -/
theorem child_exits_early : ¬ StartsTogether .exit 1 1 := by
  have h : ((system .exit 1 1).exec (start 1 1)
      (.worker (0, 0) :: .enter (0, 0) 0 :: List.replicate 6 (.queue (.child (0, 0) 0)))).map
      (fun s ↦ (s.child (0, 0) 0, s.round (0, 0), s.pos (0, 0), s.queue (0, 0))) =
      some (.exiting, 0, 1, none) := by
    decide +kernel
  obtain ⟨s, hs, he⟩ := Option.map_eq_some_iff.mp h
  simp only [Prod.mk.injEq] at he
  obtain ⟨hc, hround, hpos, hq⟩ := he
  intro hall
  have hin := hall s (System.exec_reachable hs rfl) 0 (0, 0) (.inr (.inl hc)) (0, 0)
  rcases hin.1 with (hlt | ⟨-, hmem⟩) | ⟨-, hne⟩
  · rw [hround] at hlt
    exact absurd hlt (lt_irrefl 0)
  · rw [hpos] at hmem
    exact absurd hmem (by decide)
  · exact hne hq

end LibMicro.Children
