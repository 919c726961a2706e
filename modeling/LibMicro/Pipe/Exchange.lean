import LibMicro.Pipe.Model

namespace LibMicro.Pipe

open TransitionSystem ByteStream

variable {optm : Mode} {optx : Xport} {capacity opts : ℕ} {wbuf : Side → ℕ → Fin opts → UInt8}
  {s s' : State} {a : Act} {d e : Side} {x : Call}

def Side.link : Side → ℕ
  | .worker => 1
  | .loopback => 0

theorem Side.other_other (d : Side) : d.other.other = d := by cases d <;> rfl

theorem Side.other_ne (d : Side) : d.other ≠ d := by cases d <;> decide

theorem Side.eq_or_other (d e : Side) : e = d ∨ e = d.other := by cases d <;> cases e <;> decide

theorem Side.link_ne (d : Side) : d.other.link ≠ d.link := by cases d <;> decide

/-- What one side writes the other one reads, over all transports. -/
theorem wired (optx : Xport) (d : Side) :
    (d.out (prepare optx)).sink = some d.link ∧ (d.in (prepare optx)).source = some d.other.link := by
  cases optx <;> cases d <;> decide

theorem check_eq {w width : ℕ} (hw : width = w + 1) : s.check optm width opts d =
    if opts < 2 ^ w then s.goOn d else s.lmErr optm d := by
  subst hw
  have hpow : ((2 ^ (w + 1) : ℕ) : ℤ) = 2 * (2 ^ w : ℕ) := by rw [pow_succ, Nat.mul_comm]; rfl
  refine if_congr ⟨fun h ↦ ?_, fun h ↦ ?_⟩ rfl rfl
  · have hlt := Int.bmod_lt (x := opts) (m := 2 ^ (w + 1)) (Nat.two_pow_pos _)
    rw [h, hpow] at hlt
    omega
  · exact Int.bmod_eq_of_le (by rw [hpow]; omega) (by rw [hpow]; omega)

inductive Moves (optm : Mode) (capacity opts : ℕ) (wbuf : Side → ℕ → Fin opts → UInt8) (s : State)
    (d : Side) : State → Prop
  | begin (hc : (d.script optm)[s.pos d]? = some .write) (hi : s.io d = .idle) :
    Moves optm capacity opts wbuf s d { s with
      io := Function.update s.io d (.writing (List.ofFn (wbuf d (s.begun d))))
      begun := Function.update s.begun d (s.begun d + 1) }
  | written (hc : (d.script optm)[s.pos d]? = some .write) (hi : s.io d = .writing []) :
    Moves optm capacity opts wbuf s d (s.goOn d)
  | accept {rest : List UInt8} {n : ℕ} {c : Channel UInt8}
    (hc : (d.script optm)[s.pos d]? = some .write) (hi : s.io d = .writing rest)
    (hn : 1 ≤ n ∧ n ≤ rest.length)
    (hw : (s.channel d.link).write capacity (rest.take n) = some c) :
    Moves optm capacity opts wbuf s d { s with
      channel := Function.update s.channel d.link c
      io := Function.update s.io d (.writing (rest.drop n)) }
  | ask (hc : (d.script optm)[s.pos d]? = some .readall) (hi : s.io d = .idle) :
    Moves optm capacity opts wbuf s d { s with io := Function.update s.io d (.reading []) }
  | read {buf : List UInt8} {n : ℕ} (hc : (d.script optm)[s.pos d]? = some .readall)
    (hi : s.io d = .reading buf)
    (hn : 1 ≤ n ∧ n ≤ (s.channel d.other.link).content.length ∧ n + buf.length < opts) :
    Moves optm capacity opts wbuf s d { s with
      channel := Function.update s.channel d.other.link ((s.channel d.other.link).read n)
      io := Function.update s.io d
        (.reading (buf ++ (s.channel d.other.link).content.take n)) }
  | readall {buf : List UInt8} {n : ℕ} (hc : (d.script optm)[s.pos d]? = some .readall)
    (hi : s.io d = .reading buf)
    (hn : 1 ≤ n ∧ n ≤ (s.channel d.other.link).content.length ∧ n + buf.length = opts)
    (hint : opts < 2 ^ 31) : Moves optm capacity opts wbuf s d { s with
      channel := Function.update s.channel d.other.link ((s.channel d.other.link).read n)
      pos := Function.update s.pos d (s.pos d + 1)
      io := Function.update s.io d .idle
      got := Function.update s.got d
        (s.got d ++ [buf ++ (s.channel d.other.link).content.take n]) }
  | finish (hc : (d.script optm)[s.pos d]? = some .ret ∨ (d.script optm)[s.pos d]? = some .exit ∨
      ((d.script optm)[s.pos d]? = some .pthreadJoin ∨ (d.script optm)[s.pos d]? = some .waitpid) ∧
        (s.Finished optm d.other ∨ s.exited d.other))
    (hi : s.io d = .idle) : Moves optm capacity opts wbuf s d (s.goOn d)
  | fail {t : State} (hint : 2 ^ 31 ≤ opts) (hpos : t.pos = s.pos)
    (hio : t.io d.other = s.io d.other) (hexited : t.exited = s.exited) :
    Moves optm capacity opts wbuf s d (t.lmErr optm d)

theorem step_moves (h : step optm (prepare optx) capacity opts wbuf s a = some s') :
    s.exited a.side = false ∧ Moves optm capacity opts wbuf s a.side s' := by
  obtain ⟨hout, hin⟩ := wired optx a.side
  unfold step at h
  by_cases hlive : s.exited a.side = true
  · rw [if_pos hlive] at h
    cases h
  simp only [if_neg hlive] at h
  refine ⟨Bool.eq_false_of_not_eq_true hlive, ?_⟩
  split at h
  case h_1 hc hi => cases h; exact .begin hc hi
  case h_2 hc hi =>
    rw [← Option.some.inj h, check_eq (w := 63) rfl]
    split_ifs with hint
    · exact .written hc hi
    · exact .fail (by omega) rfl rfl rfl
  case h_3 rest _ hc hi =>
    split_ifs at h with hn
    rw [hout, Option.bind_some] at h
    obtain ⟨c, hw, rfl⟩ := Option.map_eq_some_iff.mp h
    exact .accept hc hi hn hw
  case h_4 hc hi => cases h; exact .ask hc hi
  case h_5 buf hc hi =>
    rw [hin, Option.bind_some] at h
    split_ifs at h with hn hlen
    · rw [List.length_append, List.length_take_of_le hn.2.1] at hlen
      rw [← Option.some.inj h, check_eq (w := 31) rfl]
      split_ifs with hint
      · simp only [State.goOn, Function.update_idem]
        exact .readall hc hi ⟨hn.1, hn.2.1, by omega⟩ hint
      · exact .fail (by omega) rfl (Function.update_of_ne a.side.other_ne _ _) rfl
    · cases h
      rw [List.length_append, List.length_take_of_le hn.2.1] at hlen
      exact .read hc hi ⟨hn.1, hn.2.1, by omega⟩
  case h_6 hc hi =>
    split_ifs at h with hf
    cases h
    exact .finish (.inr (.inr ⟨.inl hc, .inl hf⟩)) hi
  case h_7 hc hi =>
    split_ifs at h with hf
    cases h
    exact .finish (.inr (.inr ⟨.inr hc, hf⟩)) hi
  case h_8 hc hi => cases h; exact .finish (.inl hc) hi
  case h_9 hc hi => cases h; exact .finish (.inr (.inl hc)) hi
  case h_10 => cases h

def Io.pending : Io → List UInt8
  | .writing rest => rest
  | .idle | .reading _ => []

def Io.part : Io → List UInt8
  | .reading buf => buf
  | .idle | .writing _ => []

def frames (wbuf : Side → ℕ → Fin opts → UInt8) (d : Side) (n : ℕ) : List (List UInt8) :=
  (List.range n).map fun k ↦ List.ofFn (wbuf d k)

theorem frames_succ (wbuf : Side → ℕ → Fin opts → UInt8) (d : Side) (n : ℕ) :
    frames wbuf d (n + 1) = frames wbuf d n ++ [List.ofFn (wbuf d n)] := by
  simp [frames, List.range_succ]

theorem length_of_mem_frames {n : ℕ} {x : List UInt8} (h : x ∈ frames wbuf d n) :
    x.length = opts := by
  obtain ⟨k, -, rfl⟩ := List.mem_map.mp h
  exact List.length_ofFn

theorem flatten_length {xs : List (List UInt8)} (h : ∀ x ∈ xs, x.length = opts) :
    xs.flatten.length = xs.length * opts := by
  induction xs with
  | nil => simp
  | cons x xs ih =>
    rw [List.flatten_cons, List.length_append, h x List.mem_cons_self,
      ih fun y hy ↦ h y (List.mem_cons_of_mem _ hy), List.length_cons, Nat.succ_mul, Nat.add_comm]

def State.past (optm : Mode) (s : State) (d : Side) (c : Call) : ℕ :=
  ((d.script optm).take (s.pos d)).count c

/-- What a side has sent and received, by its place in the script. -/
structure SideOk (optm : Mode) (opts : ℕ) (wbuf : Side → ℕ → Fin opts → UInt8) (s : State)
    (d : Side) : Prop where
  sent : (s.channel d.link).sent ++ (s.io d).pending = (frames wbuf d (s.begun d)).flatten
  received : (s.channel d.other.link).received = (s.got d).flatten ++ (s.io d).part
  frame : ∀ x ∈ s.got d, x.length = opts
  place : match s.io d with
    | .idle => s.begun d = s.past optm d .write
    | .writing _ => (d.script optm)[s.pos d]? = some .write ∧ s.begun d = s.past optm d .write + 1
    | .reading buf => (d.script optm)[s.pos d]? = some .readall ∧
        s.begun d = s.past optm d .write ∧ buf.length < opts
  reads : (s.got d).length = s.past optm d .readall
  live : s.exited d = false
  bound : s.pos d ≤ (d.script optm).length

theorem past_succ (hc : (d.script optm)[s.pos d]? = some x) (c : Call) :
    ((d.script optm).take (s.pos d + 1)).count c =
      s.past optm d c + if x = c then 1 else 0 := by
  rw [List.take_add_one, hc, Option.toList_some, List.count_append, State.past]
  by_cases h : x = c <;> simp [h]

theorem SideOk.congr (h : SideOk optm opts wbuf s e)
    (hs : (s'.channel e.link).sent = (s.channel e.link).sent)
    (hr : (s'.channel e.other.link).received = (s.channel e.other.link).received)
    (hio : s'.io e = s.io e) (hpos : s'.pos e = s.pos e) (hbegun : s'.begun e = s.begun e)
    (hgot : s'.got e = s.got e) (hlive : s'.exited e = s.exited e) : SideOk optm opts wbuf s' e where
  sent := by rw [hs, hio, hbegun]; exact h.sent
  received := by rw [hr, hio, hgot]; exact h.received
  frame := by rw [hgot]; exact h.frame
  place := by
    simp only [State.past, hio, hpos, hbegun]
    exact h.place
  reads := by rw [hgot, State.past, hpos]; exact h.reads
  live := hlive.trans h.live
  bound := hpos ▸ h.bound

theorem Moves.other (h : Moves optm capacity opts wbuf s d s') (hint : opts < 2 ^ 31)
    (ho : SideOk optm opts wbuf s d.other) : SideOk optm opts wbuf s' d.other := by
  have hne := d.other_ne
  cases h with
  | begin hc hi | ask hc hi =>
    exact ho.congr rfl rfl (Function.update_of_ne hne _ _) rfl (by simp [hne]) rfl rfl
  | written hc hi | finish hc hi =>
    exact ho.congr rfl rfl (Function.update_of_ne hne _ _) (Function.update_of_ne hne _ _) rfl rfl
      rfl
  | accept hc hi hn hw =>
    obtain ⟨-, hr⟩ := Channel.write_eq hw
    refine ho.congr ?_ ?_ (Function.update_of_ne hne _ _) rfl rfl rfl rfl
    · simp [d.link_ne]
    · simp only [d.other_other, Function.update_self, hr]
  | read hc hi hn =>
    refine ho.congr ?_ ?_ (Function.update_of_ne hne _ _) rfl rfl rfl rfl
    · simp only [Function.update_self, Channel.read]
    · simp [d.other_other, d.link_ne.symm]
  | readall hc hi hn =>
    refine ho.congr ?_ ?_ (Function.update_of_ne hne _ _) (Function.update_of_ne hne _ _) rfl
      (Function.update_of_ne hne _ _) rfl
    · simp only [Function.update_self, Channel.read]
    · simp [d.other_other, d.link_ne.symm]
  | fail hbig => exact absurd hint hbig.not_gt

theorem SideOk.goOn (ho : SideOk optm opts wbuf s d) (hc : (d.script optm)[s.pos d]? = some x)
    (hpending : (s.io d).pending = []) (hpart : (s.io d).part = [])
    (hbegun : s.begun d = s.past optm d .write + if x = .write then 1 else 0)
    (hx : x ≠ .readall) : SideOk optm opts wbuf (s.goOn d) d where
  sent := by
    have hsent := ho.sent
    rw [hpending] at hsent
    simp only [State.goOn, Function.update_self, Io.pending]
    exact hsent
  received := by
    have hreceived := ho.received
    rw [hpart] at hreceived
    simp only [State.goOn, Function.update_self, Io.part]
    exact hreceived
  frame := ho.frame
  place := by
    simp only [State.goOn, State.past, Function.update_self, past_succ hc]
    exact hbegun
  reads := by
    simp only [State.goOn, State.past, Function.update_self, past_succ hc, if_neg hx]
    exact ho.reads
  live := ho.live
  bound := by
    simp only [State.goOn, Function.update_self]
    exact (List.getElem?_eq_some_iff.mp hc).1

theorem Moves.self (h : Moves optm capacity opts wbuf s d s') (hopts : 1 ≤ opts)
    (hint : opts < 2 ^ 31) (ho : SideOk optm opts wbuf s d) : SideOk optm opts wbuf s' d := by
  have hplace := ho.place
  have hsent := ho.sent
  have hreceived := ho.received
  cases h with
  | begin hc hi =>
    simp only [hi, Io.pending, Io.part, List.append_nil] at hplace hsent hreceived
    refine ⟨?_, ?_, ho.frame, ?_, ho.reads, ho.live, ho.bound⟩
    · simp only [Function.update_self, Io.pending, frames_succ, List.flatten_append, hsent]
      simp
    · simp only [Function.update_self, Io.part, List.append_nil]
      exact hreceived
    · simp only [Function.update_self]
      exact ⟨hc, congrArg (· + 1) hplace⟩
  | written hc hi =>
    simp only [hi] at hplace
    exact ho.goOn hc (by rw [hi]; rfl) (by rw [hi]; rfl) hplace.2 (by decide)
  | accept hc hi hn hw =>
    obtain ⟨hs, -⟩ := Channel.write_eq hw
    simp only [hi, Io.pending, Io.part, List.append_nil] at hplace hsent hreceived
    refine ⟨?_, ?_, ho.frame, ?_, ho.reads, ho.live, ho.bound⟩
    · simp only [Function.update_self, Io.pending, hs, List.append_assoc, List.take_append_drop]
      exact hsent
    · simp only [Function.update_self, Function.update_of_ne d.link_ne, Io.part, List.append_nil]
      exact hreceived
    · simp only [Function.update_self]
      exact hplace
  | ask hc hi =>
    simp only [hi, Io.pending, Io.part, List.append_nil] at hplace hsent hreceived
    refine ⟨?_, ?_, ho.frame, ?_, ho.reads, ho.live, ho.bound⟩
    · simp only [Function.update_self, Io.pending, List.append_nil]
      exact hsent
    · simp only [Function.update_self, Io.part, List.append_nil]
      exact hreceived
    · simp only [Function.update_self]
      exact ⟨hc, hplace, hopts⟩
  | read hc hi hn =>
    simp only [hi, Io.pending, Io.part, List.append_nil] at hplace hsent hreceived
    refine ⟨?_, ?_, ho.frame, ?_, ho.reads, ho.live, ho.bound⟩
    · simp only [Function.update_self, Function.update_of_ne d.link_ne.symm, Io.pending,
        List.append_nil]
      exact hsent
    · simp only [Function.update_self, Io.part, Channel.read, hreceived, List.append_assoc]
    · simp only [Function.update_self]
      refine ⟨hc, hplace.2.1, ?_⟩
      rw [List.length_append, List.length_take_of_le hn.2.1]
      omega
  | readall hc hi hn =>
    simp only [hi, Io.pending, Io.part, List.append_nil] at hplace hsent hreceived
    refine ⟨?_, ?_, ?_, ?_, ?_, ho.live, ?_⟩
    · simp only [Function.update_self, Function.update_of_ne d.link_ne.symm, Io.pending,
        List.append_nil]
      exact hsent
    · simp only [Function.update_self, Io.part, Channel.read, hreceived, List.append_assoc,
        List.flatten_append]
      simp
    · simp only [Function.update_self, List.mem_append, List.mem_singleton]
      rintro x (hx | rfl)
      · exact ho.frame x hx
      · rw [List.length_append, List.length_take_of_le hn.2.1, Nat.add_comm]
        exact hn.2.2
    · simp only [State.past, Function.update_self, past_succ hc]
      exact hplace.2.1
    · simp only [State.past, Function.update_self, past_succ hc, List.length_append, ho.reads]
      rfl
    · simp only [Function.update_self]
      exact (List.getElem?_eq_some_iff.mp hc).1
  | finish hc hi =>
    simp only [hi] at hplace
    obtain ⟨c, hc, hw, hr⟩ : ∃ c, (d.script optm)[s.pos d]? = some c ∧ c ≠ .write ∧ c ≠ .readall := by
      rcases hc with hc | hc | ⟨hc | hc, -⟩ <;> exact ⟨_, hc, by decide, by decide⟩
    exact ho.goOn hc (by rw [hi]; rfl) (by rw [hi]; rfl) (by rw [if_neg hw]; exact hplace) hr
  | fail hbig => exact absurd hint hbig.not_gt

theorem start_ok (optm : Mode) (wbuf : Side → ℕ → Fin opts → UInt8) (d : Side) :
    SideOk optm opts wbuf start d where
  sent := rfl
  received := rfl
  frame _ h := absurd h List.not_mem_nil
  place := rfl
  reads := rfl
  live := rfl
  bound := Nat.zero_le _

theorem reachable_ok (hopts : 1 ≤ opts) (hint : opts < 2 ^ 31)
    (hs : (system optm optx capacity opts wbuf).Reachable s) (d : Side) :
    SideOk optm opts wbuf s d := by
  refine System.Reachable.invariant (I := fun s ↦ ∀ d, SideOk optm opts wbuf s d) hs
    (fun s h d ↦ h ▸ start_ok optm wbuf d) (fun s a s' _ ho hst e ↦ ?_) d
  obtain ⟨-, h⟩ := step_moves hst
  rcases Side.eq_or_other a.side e with rfl | rfl
  · exact h.self hopts hint (ho _)
  · exact h.other hint (ho _)

theorem got_frames (hopts : 1 ≤ opts) (h : SideOk optm opts wbuf s d)
    (ho : SideOk optm opts wbuf s d.other) :
    s.got d = frames wbuf d.other (s.got d).length := by
  have hpre : (s.got d).flatten <+: (frames wbuf d.other (s.begun d.other)).flatten := by
    have h₁ : (s.got d).flatten <+: (s.channel d.other.link).received := ⟨_, h.received.symm⟩
    have h₂ := (s.channel d.other.link).received_of_sent
    have h₃ : (s.channel d.other.link).sent <+: (frames wbuf d.other (s.begun d.other)).flatten :=
      ⟨_, ho.sent⟩
    exact (h₁.trans h₂).trans h₃
  have hframes := frames_of_sent hopts (fun x hx ↦ length_of_mem_frames hx) h.frame hpre
  have hle : (s.got d).length ≤ s.begun d.other := by
    have := hframes.length_le
    rwa [frames, List.length_map, List.length_range] at this
  refine (List.prefix_iff_eq_take.mp hframes).trans ?_
  rw [frames, frames, ← List.map_take, List.take_range, min_eq_left hle]

theorem SideOk.lengths (h : SideOk optm opts wbuf s d) :
    (s.channel d.link).sent.length + (s.io d).pending.length = s.begun d * opts ∧
      (s.channel d.other.link).received.length =
        s.past optm d .readall * opts + (s.io d).part.length := by
  constructor
  · have := congrArg List.length h.sent
    rwa [List.length_append, flatten_length fun x hx ↦ length_of_mem_frames hx, frames,
      List.length_map, List.length_range] at this
  · rw [h.received, List.length_append, flatten_length h.frame, h.reads]

theorem SideOk.blocked (h : SideOk optm opts wbuf s d) (hcap : 1 ≤ capacity)
    (hb : ∀ n, step optm (prepare optx) capacity opts wbuf s ⟨d, n⟩ = none) :
    (∃ rest, s.io d = .writing rest ∧ 1 ≤ rest.length ∧
        1 ≤ (s.channel d.link).content.length) ∨
      (∃ buf, s.io d = .reading buf ∧ (s.channel d.other.link).content.length = 0) ∨
      s.io d = .idle ∧ ((d.script optm)[s.pos d]? = some .pthreadJoin ∨
        (d.script optm)[s.pos d]? = some .waitpid) ∧ ¬ s.Finished optm d.other ∨
      s.io d = .idle ∧ s.Finished optm d := by
  obtain ⟨hout, hin⟩ := wired optx d
  have hplace := h.place
  cases hio : s.io d with
  | idle =>
    refine .inr (.inr ?_)
    cases hc : (d.script optm)[s.pos d]? with
    | none => exact .inr ⟨rfl, List.getElem?_eq_none_iff.mp hc⟩
    | some c =>
      have hb := hb 0
      cases c with
      | write | readall | ret | exit => simp [step, h.live, hc, hio] at hb
      | pthreadJoin =>
        simp only [step, h.live, Bool.false_eq_true, if_false, hc, hio, ite_eq_right_iff] at hb
        exact .inl ⟨rfl, .inl rfl, fun hf ↦ nomatch hb hf⟩
      | waitpid =>
        simp only [step, h.live, Bool.false_eq_true, if_false, hc, hio, ite_eq_right_iff] at hb
        exact .inl ⟨rfl, .inr rfl, fun hf ↦ nomatch hb (.inl hf)⟩
  | writing rest =>
    simp only [hio] at hplace
    have hb := hb 1
    cases rest with
    | nil => simp [step, h.live, hplace.1, hio] at hb
    | cons x rest =>
      refine .inl ⟨x :: rest, rfl, Nat.le_add_left 1 _, ?_⟩
      by_contra hfull
      obtain ⟨c, hw⟩ : ∃ c, (s.channel d.link).write capacity [x] = some c :=
        Channel.write_room (by rw [List.length_singleton]; omega)
      simp [step, h.live, hplace.1, hio, hout, hw] at hb
  | reading buf =>
    simp only [hio] at hplace
    refine .inr (.inl ⟨buf, rfl, ?_⟩)
    by_contra hne
    have hb := hb 1
    have hroom : 1 ≤ (s.channel d.other.link).content.length ∧ 1 ≤ opts - buf.length := by omega
    simp only [step, h.live, Bool.false_eq_true, if_false, hplace.1, hio, hin, Option.bind_some,
      le_refl, true_and, if_pos hroom] at hb
    split_ifs at hb

theorem worker_counts (optm : Mode) (p : ℕ) (hp : p ≤ (Side.worker.script optm).length) :
    let writes := ((Side.worker.script optm).take p).count .write
    let reads := ((Side.worker.script optm).take p).count .readall
    ((Side.worker.script optm)[p]? = some .write → writes = reads ∧ reads ≤ 2) ∧
      ((Side.worker.script optm)[p]? = some .readall → writes = reads + 1 ∧ reads ≤ 2) ∧
      ((Side.worker.script optm)[p]? ≠ some .write → (Side.worker.script optm)[p]? ≠ some .readall →
        writes = 3 ∧ reads = 3) := by
  have hlen : (Side.worker.script optm).length = 7 := by cases optm <;> rfl
  rw [hlen] at hp
  revert p
  cases optm <;> decide

theorem loopback_counts (optm : Mode) (q : ℕ) (hq : q ≤ (Side.loopback.script optm).length) :
    let writes := ((Side.loopback.script optm).take q).count .write
    let reads := ((Side.loopback.script optm).take q).count .readall
    ((Side.loopback.script optm)[q]? = some .readall → writes = reads ∧ reads ≤ 2) ∧
      ((Side.loopback.script optm)[q]? = some .write → reads = writes + 1 ∧ writes ≤ 2) ∧
      ((Side.loopback.script optm)[q]? ≠ some .write →
        (Side.loopback.script optm)[q]? ≠ some .readall → writes = 3 ∧ reads = 3) ∧
      (Side.loopback.script optm)[q]? ≠ some .pthreadJoin ∧
      (Side.loopback.script optm)[q]? ≠ some .waitpid := by
  have hlen : (Side.loopback.script optm).length = 7 := by cases optm <;> rfl
  rw [hlen] at hq
  revert q
  cases optm <;> decide

/-- What is known of a worker that cannot move: how many messages it has begun to
write and has read, how many bytes of them are missing, and what it waits for. -/
theorem SideOk.worker_blocked (h : SideOk optm opts wbuf s .worker) (hcap : 1 ≤ capacity)
    (hb : ∀ n, step optm (prepare optx) capacity opts wbuf s ⟨.worker, n⟩ = none) :
    ∃ x pend part, (s.channel Side.worker.link).sent.length + pend = s.begun .worker * opts ∧
      (s.channel Side.loopback.link).received.length = x * opts + part ∧
      (s.begun .worker = x + 1 ∧ x ≤ 2 ∧ (1 ≤ pend ∧ part = 0 ∧
          1 ≤ (s.channel Side.worker.link).content.length ∨
        pend = 0 ∧ part < opts ∧ (s.channel Side.loopback.link).content.length = 0) ∨
      s.begun .worker = 3 ∧ x = 3 ∧ pend = 0 ∧ part = 0 ∧
        (¬ s.Finished optm .loopback ∨ s.Finished optm .worker)) := by
  obtain ⟨hsent, hreceived⟩ := h.lengths
  obtain ⟨hcw, hcr, hcn⟩ := worker_counts optm (s.pos .worker) h.bound
  have hplace := h.place
  refine ⟨_, _, _, hsent, hreceived, ?_⟩
  rcases h.blocked hcap hb with ⟨rest, hio, hrest, hc⟩ | ⟨buf, hio, hc⟩ | ⟨hio, hj, hf⟩ | ⟨hio, hf⟩
  · simp only [hio] at hplace ⊢
    obtain ⟨he, hle⟩ := hcw hplace.1
    exact .inl ⟨hplace.2.trans (congrArg (· + 1) he), hle, .inl ⟨hrest, rfl, hc⟩⟩
  · simp only [hio] at hplace ⊢
    obtain ⟨he, hle⟩ := hcr hplace.1
    exact .inl ⟨hplace.2.1.trans he, hle, .inr ⟨rfl, hplace.2.2, hc⟩⟩
  · simp only [hio] at hplace ⊢
    obtain ⟨he, hle⟩ := hcn (by rcases hj with hj | hj <;> rw [hj] <;> decide)
      (by rcases hj with hj | hj <;> rw [hj] <;> decide)
    exact .inr ⟨hplace.trans he, hle, rfl, rfl, .inl hf⟩
  · simp only [hio] at hplace ⊢
    have hc := List.getElem?_eq_none_iff.mpr hf
    obtain ⟨he, hle⟩ := hcn (by rw [hc]; nofun) (by rw [hc]; nofun)
    exact .inr ⟨hplace.trans he, hle, rfl, rfl, .inr hf⟩

theorem SideOk.loopback_blocked (h : SideOk optm opts wbuf s .loopback) (hcap : 1 ≤ capacity)
    (hb : ∀ n, step optm (prepare optx) capacity opts wbuf s ⟨.loopback, n⟩ = none) :
    ∃ y pend part, (s.channel Side.loopback.link).sent.length + pend = y * opts ∧
      (s.channel Side.worker.link).received.length = y * opts + part ∧
      (y ≤ 3 ∧ 1 ≤ pend ∧ part = 0 ∧ 1 ≤ (s.channel Side.loopback.link).content.length ∨
      y ≤ 2 ∧ pend = 0 ∧ part < opts ∧ (s.channel Side.worker.link).content.length = 0 ∨
      y = 3 ∧ pend = 0 ∧ part = 0 ∧ s.Finished optm .loopback) := by
  obtain ⟨hsent, hreceived⟩ := h.lengths
  obtain ⟨hcr, hcw, hcn, hnj, hnp⟩ := loopback_counts optm (s.pos .loopback) h.bound
  have hplace := h.place
  have key : s.begun .loopback = s.past optm .loopback .readall ∧
      (s.past optm .loopback .readall ≤ 3 ∧ 1 ≤ (s.io .loopback).pending.length ∧
          (s.io .loopback).part.length = 0 ∧ 1 ≤ (s.channel Side.loopback.link).content.length ∨
        s.past optm .loopback .readall ≤ 2 ∧ (s.io .loopback).pending.length = 0 ∧
          (s.io .loopback).part.length < opts ∧ (s.channel Side.worker.link).content.length = 0 ∨
        s.past optm .loopback .readall = 3 ∧ (s.io .loopback).pending.length = 0 ∧
          (s.io .loopback).part.length = 0 ∧ s.Finished optm .loopback) := by
    rcases h.blocked hcap hb with ⟨rest, hio, hrest, hc⟩ | ⟨buf, hio, hc⟩ | ⟨-, hj, -⟩ | ⟨hio, hf⟩
    · simp only [hio] at hplace ⊢
      obtain ⟨he, hle⟩ := hcw hplace.1
      exact ⟨hplace.2.trans he.symm, .inl ⟨he.trans_le (Nat.succ_le_succ hle), hrest, rfl, hc⟩⟩
    · simp only [hio] at hplace ⊢
      obtain ⟨he, hle⟩ := hcr hplace.1
      exact ⟨hplace.2.1.trans he, .inr (.inl ⟨hle, rfl, hplace.2.2, hc⟩)⟩
    · exact absurd hj (not_or.mpr ⟨hnj, hnp⟩)
    · simp only [hio] at hplace ⊢
      have hc := List.getElem?_eq_none_iff.mpr hf
      obtain ⟨he, hle⟩ := hcn (by rw [hc]; nofun) (by rw [hc]; nofun)
      exact ⟨hplace.trans (he.trans hle.symm), .inr (.inr ⟨hle, rfl, rfl, hf⟩)⟩
  exact ⟨_, _, _, key.1 ▸ hsent, hreceived, key.2⟩

/-- While the exchange goes on, one of the sides can move. The worker is at most
one message ahead, so the bytes in flight are those that the other side waits for. -/
theorem progress (hcap : 1 ≤ capacity) (hw : SideOk optm opts wbuf s .worker)
    (hl : SideOk optm opts wbuf s .loopback) (hrun : ∃ d, ¬ s.Finished optm d) :
    ∃ a s', step optm (prepare optx) capacity opts wbuf s a = some s' := by
  by_contra hstuck
  have hnone (d n) : step optm (prepare optx) capacity opts wbuf s ⟨d, n⟩ = none := by
    rw [Option.eq_none_iff_forall_ne_some]
    exact fun s' h ↦ hstuck ⟨_, s', h⟩
  obtain ⟨x, pend, part, hsw, hrw, hbw⟩ := hw.worker_blocked hcap (hnone .worker)
  obtain ⟨y, pend', part', hsl, hrl, hbl⟩ := hl.loopback_blocked hcap (hnone .loopback)
  have hA := (s.channel Side.worker.link).sent_length
  have hB := (s.channel Side.loopback.link).sent_length
  have hmul {i j : ℕ} (h : i ≤ j) : i * opts ≤ j * opts := Nat.mul_le_mul_right opts h
  have hsucc (i : ℕ) : (i + 1) * opts = i * opts + opts := Nat.succ_mul i opts
  rcases hbw with ⟨hbegun, hx, hbw⟩ | ⟨hbegun, rfl, rfl, rfl, hfw⟩
  · rw [hbegun, hsucc] at hsw
    have hx3 := hmul (Nat.succ_le_succ hx)
    rw [hsucc] at hx3
    rcases Nat.lt_or_ge x y with hxy | hxy
    · have hle := hmul hxy
      rw [hsucc] at hle
      rcases hbw with hbw | hbw <;> rcases hbl with hbl | hbl | ⟨rfl, hbl⟩ <;> omega
    · have hle := hmul hxy
      rcases hbw with hbw | hbw <;> rcases hbl with hbl | hbl | ⟨rfl, hbl⟩ <;> omega
  · rcases hbl with ⟨hy, hbl⟩ | ⟨hy, hbl⟩ | ⟨-, -, -, hfl⟩
    · have hle := hmul hy
      omega
    · have hle := hmul (Nat.succ_le_succ hy)
      rw [hsucc] at hle
      omega
    · obtain ⟨d, hd⟩ := hrun
      cases d with
      | worker => exact hd (hfw.resolve_left fun h ↦ h hfl)
      | loopback => exact hd hfl

def Io.left (opts : ℕ) : Io → ℕ
  | .idle => opts + 2
  | .writing rest => rest.length + 1
  | .reading buf => opts - buf.length + 1

/-- What a side has still to do. After an exit that is nothing. -/
def State.left (optm : Mode) (opts : ℕ) (s : State) (d : Side) : ℕ :=
  if s.exited d then 0
  else ((d.script optm).length - s.pos d) * (opts + 3) + (s.io d).left opts

theorem Io.left_pos (opts : ℕ) (i : Io) : 1 ≤ i.left opts := by cases i <;> simp [Io.left]

theorem State.left_live (h : s.exited d = false) : s.left optm opts d =
    ((d.script optm).length - s.pos d) * (opts + 3) + (s.io d).left opts := by
  rw [State.left, h, if_neg Bool.false_ne_true]

theorem Moves.left_other (h : Moves optm capacity opts wbuf s d s') :
    s'.left optm opts d.other ≤ s.left optm opts d.other := by
  cases h with
  | begin | written | accept | ask | read | readall | finish =>
    simp [State.left, State.goOn, d.other_ne]
  | fail hint hpos hio hexited =>
    cases optm with
    | mt => exact Nat.zero_le _
    | mp => simp [State.left, State.lmErr, d.other_ne, hpos, hio, hexited]

theorem left_next (opts : ℕ) {c : Call} (hlive : s.exited d = false)
    (hc : (d.script optm)[s.pos d]? = some c) :
    ((d.script optm).length - (s.pos d + 1)) * (opts + 3) + Io.idle.left opts <
      s.left optm opts d := by
  have hlt := (List.getElem?_eq_some_iff.mp hc).1
  have hpos := (s.io d).left_pos opts
  obtain ⟨k, hk⟩ := Nat.exists_eq_add_of_lt hlt
  rw [State.left_live hlive, hk, show s.pos d + k + 1 - (s.pos d + 1) = k by omega,
    show s.pos d + k + 1 - s.pos d = k + 1 by omega, Nat.succ_mul]
  simp only [Io.left] at hpos ⊢
  omega

theorem Moves.left_self (h : Moves optm capacity opts wbuf s d s') (hlive : s.exited d = false) :
    s'.left optm opts d < s.left optm opts d := by
  cases h with
  | begin hc hi | ask hc hi => simp [State.left, hlive, hi, Io.left]
  | accept hc hi hn hw =>
    simp only [State.left, hlive, Bool.false_eq_true, if_false, hi, Io.left, Function.update_self,
      List.length_drop]
    omega
  | read hc hi hn =>
    simp only [State.left, hlive, Bool.false_eq_true, if_false, hi, Io.left, Function.update_self,
      List.length_append, List.length_take_of_le hn.2.1]
    omega
  | written hc hi | readall hc hi hn hint =>
    have hnext := left_next opts hlive hc
    simp only [State.left, State.goOn, hlive, Bool.false_eq_true, if_false,
      Function.update_self] at hnext ⊢
    exact hnext
  | finish hc hi =>
    obtain ⟨c, hc⟩ : ∃ c, (d.script optm)[s.pos d]? = some c := by
      rcases hc with hc | hc | ⟨hc | hc, -⟩ <;> exact ⟨_, hc⟩
    have hnext := left_next opts hlive hc
    simp only [State.left, State.goOn, hlive, Bool.false_eq_true, if_false,
      Function.update_self] at hnext ⊢
    exact hnext
  | fail hint hpos hio hexited =>
    have hzero {t : State} : (t.lmErr optm d).left optm opts d = 0 := by
      cases optm <;> simp [State.left, State.lmErr]
    rw [hzero, State.left_live hlive]
    exact Nat.lt_of_lt_of_le ((s.io d).left_pos opts) (Nat.le_add_left _ _)

theorem left_lt (h : step optm (prepare optx) capacity opts wbuf s a = some s') :
    s'.left optm opts .worker + s'.left optm opts .loopback <
      s.left optm opts .worker + s.left optm opts .loopback := by
  obtain ⟨hlive, hm⟩ := step_moves h
  have hs := hm.left_self hlive
  have ho := hm.left_other
  cases hd : a.side <;> rw [hd] at hs ho <;> simp only [Side.other] at ho <;> omega

theorem run_bounded {l : List Act} (h : (system optm optx capacity opts wbuf).Run start l s) :
    l.length ≤ 16 * opts + 46 := by
  have hle := h.countP_le (I := fun _ ↦ True) (p := fun _ ↦ true)
    (fun s ↦ s.left optm opts .worker + s.left optm opts .loopback) 0
    (fun s a s' _ hst ↦ ⟨trivial, by rw [if_pos rfl]; exact left_lt hst⟩) trivial
  have hlen (d : Side) : (d.script optm).length = 7 := by cases d <;> cases optm <;> rfl
  simp only [List.countP_true, Nat.zero_mul, Nat.add_zero, State.left, start, hlen, Io.left,
    Bool.false_eq_true, if_false] at hle
  omega

theorem SideOk.ended (h : SideOk optm opts wbuf s d)
    (hw : (d.script optm)[s.pos d]? ≠ some .write) (hr : (d.script optm)[s.pos d]? ≠ some .readall) :
    (s.got d).length = 3 ∧ (s.channel d.link).sent.length = 3 * opts ∧
      (s.channel d.other.link).received.length = 3 * opts := by
  obtain ⟨hsent, hreceived⟩ := h.lengths
  have hplace := h.place
  have hpast : s.past optm d .write = 3 ∧ s.past optm d .readall = 3 := by
    cases d with
    | worker => exact (worker_counts optm _ h.bound).2.2 hw hr
    | loopback => exact (loopback_counts optm _ h.bound).2.2.1 hw hr
  cases hio : s.io d with
  | idle =>
    simp only [hio] at hplace
    rw [hplace, hpast.1, hio] at hsent
    rw [hpast.2, hio] at hreceived
    exact ⟨h.reads.trans hpast.2, hsent, hreceived⟩
  | writing rest =>
    simp only [hio] at hplace
    exact absurd hplace.1 hw
  | reading buf =>
    simp only [hio] at hplace
    exact absurd hplace.1 hr

/-- The exchange comes to its end in every run, with every message read as it
was written, and leaves nothing in the channels when the loopback is joined. -/
structure Completes (optm : Mode) (optx : Xport) (capacity opts : ℕ)
    (wbuf : Side → ℕ → Fin opts → UInt8) : Prop where
  goesOn : ∀ l s, (system optm optx capacity opts wbuf).Run start l s →
    (∃ d, ¬ s.Finished optm d) →
      ∃ a s', step optm (prepare optx) capacity opts wbuf s a = some s'
  bounded : ∀ l s, (system optm optx capacity opts wbuf).Run start l s → l.length ≤ 16 * opts + 46
  exact : ∀ l s, (system optm optx capacity opts wbuf).Run start l s →
    ∀ d k buf, (s.got d)[k]? = some buf → buf = List.ofFn (wbuf d.other k)
  emptied : ∀ l s, (system optm optx capacity opts wbuf).Run start l s →
    (Side.worker.script optm).length ≤ s.pos .worker + 1 → s.Finished optm .loopback →
      ∀ d, (s.got d).length = 3 ∧
        ∀ i, (d.out (prepare optx)).sink = some i → (s.channel i).content = []

theorem joined (hw : SideOk optm opts wbuf s .worker) (hl : SideOk optm opts wbuf s .loopback)
    (hjoin : (Side.worker.script optm).length ≤ s.pos .worker + 1)
    (hend : s.Finished optm .loopback) (d : Side) :
    (s.got d).length = 3 ∧
      ∀ i, (d.out (prepare optx)).sink = some i → (s.channel i).content = [] := by
  have hlast : (Side.worker.script optm)[s.pos .worker]? ≠ some .write ∧
      (Side.worker.script optm)[s.pos .worker]? ≠ some .readall := by
    have hlen : (Side.worker.script optm).length = 7 := by cases optm <;> rfl
    have hb := hw.bound
    rw [hlen] at hjoin hb
    have hp : s.pos .worker = 6 ∨ s.pos .worker = 7 := by omega
    rcases hp with hp | hp <;> rw [hp] <;> cases optm <;> decide
  have hnone := List.getElem?_eq_none_iff.mpr hend
  have hended : ∀ d, (s.got d).length = 3 ∧ (s.channel d.link).sent.length = 3 * opts ∧
      (s.channel d.other.link).received.length = 3 * opts
    | .worker => hw.ended hlast.1 hlast.2
    | .loopback => hl.ended (by rw [hnone]; nofun) (by rw [hnone]; nofun)
  refine ⟨(hended d).1, fun i hi ↦ ?_⟩
  obtain rfl : d.link = i := Option.some.inj ((wired optx d).1.symm.trans hi)
  have hlen := (s.channel d.link).sent_length
  have hrec := (hended d.other).2.2
  rw [d.other_other] at hrec
  rw [(hended d).2.1, hrec] at hlen
  exact List.eq_nil_of_length_eq_zero (by omega)

theorem completes (hcap : 1 ≤ capacity) (hopts : 1 ≤ opts) (hint : opts < 2 ^ 31) :
    Completes optm optx capacity opts wbuf := by
  have hok (l s) (hs : (system optm optx capacity opts wbuf).Run start l s) (d) :
      SideOk optm opts wbuf s d :=
    reachable_ok hopts hint (hs.reachable (.start rfl)) d
  refine ⟨fun l s hs ↦ progress hcap (hok l s hs _) (hok l s hs _), fun l s hs ↦ run_bounded hs,
    fun l s hs d k buf hk ↦ ?_, fun l s hs hw hl ↦ joined (hok l s hs _) (hok l s hs _) hw hl⟩
  rw [got_frames hopts (hok l s hs d) (hok l s hs d.other), frames, List.getElem?_map] at hk
  obtain ⟨j, hj, rfl⟩ := Option.map_eq_some_iff.mp hk
  obtain ⟨hlt, rfl⟩ := List.getElem?_eq_some_iff.mp hj
  rw [List.getElem_range]

/-- Where the number of bytes is no `int`, the loopback never gets past its first `readall`. -/
theorem first_readall (hint : 2 ^ 31 ≤ opts) (hpos : s.pos .loopback = 0)
    (h : step optm (prepare optx) capacity opts wbuf s a = some s') : s'.pos .loopback = 0 := by
  obtain ⟨-, hm⟩ := step_moves h
  have hfirst : (Side.loopback.script optm)[0]? = some .readall := by cases optm <;> rfl
  have hat (c : Call) (hc : (a.side.script optm)[s.pos a.side]? = some c) (hne : c ≠ .readall) :
      Side.loopback ≠ a.side := by
    intro hd
    rw [← hd, hpos, hfirst] at hc
    exact hne (Option.some.inj hc).symm
  cases hm with
  | begin | accept | ask | read => exact hpos
  | written hc => exact (Function.update_of_ne (hat _ hc (by decide)) _ _).trans hpos
  | finish hc =>
    refine (Function.update_of_ne ?_ _ _).trans hpos
    rcases hc with hc | hc | ⟨hc | hc, -⟩ <;> exact hat _ hc (by decide)
  | readall _ _ _ hlt => exact absurd hlt hint.not_gt
  | fail _ heq => exact (congrFun heq _).trans hpos

theorem overflow_stuck (hint : 2 ^ 31 ≤ opts) :
    ∃ l s, (system optm optx capacity opts wbuf).Run start l s ∧ ¬ s.Finished optm .loopback ∧
      ∀ a, step optm (prepare optx) capacity opts wbuf s a = none := by
  obtain ⟨l, s, -, hs, hpos, hstuck⟩ :=
    System.exists_stuck (A := system optm optx capacity opts wbuf) (P := fun _ ↦ True)
      (I := fun s ↦ s.pos .loopback = 0)
      (fun s ↦ s.left optm opts .worker + s.left optm opts .loopback)
      (fun s a s' hpos _ hst ↦ ⟨first_readall hint hpos hst, left_lt hst⟩) (s := start) rfl
  refine ⟨l, s, hs, ?_, fun a ↦ ?_⟩
  · rw [State.Finished, hpos]
    cases optm <;> decide
  · rw [Option.eq_none_iff_forall_ne_some]
    exact fun s' h ↦ hstuck ⟨a, s', trivial, h⟩

theorem not_completes (hint : 2 ^ 31 ≤ opts) : ¬ Completes optm optx capacity opts wbuf := by
  intro h
  obtain ⟨l, s, hs, hf, hstuck⟩ := overflow_stuck hint
  obtain ⟨a, s', hst⟩ := h.goesOn l s hs ⟨_, hf⟩
  rw [hstuck a] at hst
  cases hst

/-- The exchange completes over every transport, except that `readall` returns
the number of its bytes as an `int`. -/
theorem exchange_completes_iff (optm : Mode) (optx : Xport) (capacity opts : ℕ)
    (hcap : 1 ≤ capacity) (hopts : 1 ≤ opts) (wbuf : Side → ℕ → Fin opts → UInt8) :
    Completes optm optx capacity opts wbuf ↔ opts < 2 ^ 31 :=
  ⟨fun h ↦ not_le.mp fun hint ↦ not_completes hint h, completes hcap hopts⟩

def threeBytes (d : Side) (k : ℕ) (i : Fin 3) : UInt8 :=
  match d with
  | .worker => 10 * k.toUInt8 + i.val.toUInt8
  | .loopback => 100 + 10 * k.toUInt8 + i.val.toUInt8

def exchanged : State :=
  (system .mp .pipe 2 3 threeBytes).turns start
    (List.replicate 40 [⟨.worker, 1⟩, ⟨.loopback, 2⟩, ⟨.loopback, 1⟩]).flatten

theorem exchange_completes_three :
    exchanged.Finished .mp .worker ∧ exchanged.Finished .mp .loopback ∧
      exchanged.got .loopback = [[0, 1, 2], [10, 11, 12], [20, 21, 22]] ∧
      (exchanged.got .worker)[2]? = some [120, 121, 122] ∧
      [120, 121, 122] = List.ofFn (threeBytes .loopback 2) ∧
      (exchanged.channel 0).content = [] ∧ (exchanged.channel 1).content = [] := by
  have h := (exchange_completes_iff .mp .pipe 2 3 (by decide) (by decide) threeBytes).mpr (by decide)
  obtain ⟨l, hrun⟩ : ∃ l, (system .mp .pipe 2 3 threeBytes).Run start l exchanged :=
    ⟨_, System.turns_run _ _⟩
  have hw : exchanged.Finished .mp .worker := (by decide +kernel : 7 ≤ exchanged.pos .worker)
  have hl : exchanged.Finished .mp .loopback := (by decide +kernel : 7 ≤ exchanged.pos .loopback)
  have hgot : (exchanged.got .worker)[2]? = some [120, 121, 122] := by decide +kernel
  have hjoin : (Side.worker.script .mp).length ≤ exchanged.pos .worker + 1 :=
    hw.trans (Nat.le_add_right (exchanged.pos .worker) 1)
  have hempty := h.emptied l exchanged hrun hjoin hl
  exact ⟨hw, hl, by decide +kernel, hgot, h.exact l exchanged hrun .worker 2 _ hgot,
    (hempty .loopback).2 0 rfl, (hempty .worker).2 1 rfl⟩

/-- With `-s 2g` the first `readall` returns a negative number. -/
theorem two_gigabytes_stop : ¬ ∀ (optm : Mode) (optx : Xport) (capacity opts : ℕ), 1 ≤ capacity →
    1 ≤ opts → ∀ wbuf : Side → ℕ → Fin opts → UInt8, Completes optm optx capacity opts wbuf :=
  fun h ↦ not_completes le_rfl (h .mt .pipe 65536 (2 ^ 31) (by decide) (by decide) fun _ _ _ ↦ 0)

end LibMicro.Pipe
