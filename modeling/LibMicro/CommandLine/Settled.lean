import LibMicro.CommandLine.Model

namespace LibMicro.CommandLine

open Getopt Sizes

variable {σ : Type} {m : Module σ} {argv0 : List Char} {permute : Bool}

def flagged (os : List Opt) (c : Char) : Bool := os.any fun p ↦ p.1 = c

def lastOf (os : List Opt) (c : Char) : Option (List Char) :=
  (os.reverse.find? fun p ↦ p.1 = c).bind Prod.snd

def lastNumber (os : List Opt) (c : Char) : Option ℤ := (lastOf os c).bind sizetoint

def settled (m : Module σ) (argv0 : List Char) (os : List Opt) : Opts where
  lmOpt1 := m.lmDef.lmDef1 || flagged os '1'
  lmOptA := flagged os 'A'
  lmOptC := (lastNumber os 'C').elim 100 (BitVec.ofInt 32)
  lmOptD := (lastNumber os 'D').getD m.lmDef.lmDefD
  lmOptE := flagged os 'E'
  lmOptH := m.lmDef.lmDefH || flagged os 'H'
  lmOptL := flagged os 'L'
  lmOptM := flagged os 'M'
  lmOptN := (lastOf os 'N').getD (m.lmDef.lmDefN.getD (lmProcname argv0))
  lmOptP := (lastNumber os 'P').getD m.lmDef.lmDefP
  lmOptS := m.lmDef.lmDefS || flagged os 'S'
  lmOptT := (lastNumber os 'T').getD m.lmDef.lmDefT

def cases : List Char := ['1', 'A', 'C', 'D', 'E', 'H', 'L', 'M', 'N', 'P', 'S', 'T', 'V', '?']

def numbers : List Char := ['C', 'D', 'P', 'T']

def own (m : Module σ) : List Opt → σ → Option σ
  | [], x => some x
  | p :: os, x =>
    if p.1 ∈ cases then own m os x else (m.benchmarkOptswitch p.1 p.2 x).bind (own m os)

/-- An option with which the loop goes on, if the benchmark does not reject it. -/
structure Ordinary (p : Opt) : Prop where
  version : p.1 ≠ 'V'
  usage : p.1 ≠ '?'
  number : p.1 ∈ numbers → (p.2.bind sizetoint).isSome

section Snoc

variable {os : List Opt} {p : Opt} {c : Char}

theorem flagged_snoc (os : List Opt) (p : Opt) (c : Char) :
    flagged (os ++ [p]) c = (flagged os c || decide (p.1 = c)) := by
  simp [flagged]

theorem lastOf_snoc (os : List Opt) (p : Opt) (c : Char) :
    lastOf (os ++ [p]) c = if p.1 = c then p.2 else lastOf os c := by
  unfold lastOf
  rw [List.reverse_append, List.reverse_singleton, List.singleton_append, List.find?_cons]
  by_cases h : p.1 = c <;> simp [h]

theorem lastNumber_snoc (os : List Opt) (p : Opt) (c : Char) :
    lastNumber (os ++ [p]) c = if p.1 = c then p.2.bind sizetoint else lastNumber os c := by
  unfold lastNumber
  rw [lastOf_snoc]
  split_ifs <;> rfl

end Snoc

theorem settled_nil (m : Module σ) (argv0 : List Char) : settled m argv0 [] = initial m argv0 := by
  simp [settled, initial, flagged, lastNumber, lastOf]

theorem number_map {α : Type} {v : Option (List Char)} {f : ℤ → α} {s : α} :
    (number v).map f = .ok s ↔ ∃ z, v.bind sizetoint = some z ∧ f z = s := by
  unfold number
  cases v.bind sizetoint with
  | none => simp [Except.map]
  | some z => simp [Except.map]

theorem settled_other {os : List Opt} {p : Opt} (h : p.1 ∉ cases) :
    settled m argv0 (os ++ [p]) = settled m argv0 os := by
  have hne (c : Char) (hc : c ∈ cases) : p.1 ≠ c := fun he ↦ h (he ▸ hc)
  simp only [cases, List.mem_cons, List.not_mem_nil, or_false, forall_eq_or_imp, forall_eq] at hne
  simp [settled, flagged_snoc, lastNumber_snoc, lastOf_snoc, hne]

section Cases

variable {os : List Opt} {x : σ} {c : Char} {v : Option (List Char)} {s : Opts × σ}

theorem own_case (hc : c ∈ cases) (x : σ) : own m [(c, v)] x = some x := if_pos hc

theorem flag_case {o : Opts} (hswitch : switch m (settled m argv0 os, x) (c, v) = .ok (o, x))
    (hsettled : settled m argv0 (os ++ [(c, v)]) = o) (hc : c ∈ cases) (hnumber : c ∉ numbers)
    (hversion : c ≠ 'V') (husage : c ≠ '?') :
    switch m (settled m argv0 os, x) (c, v) = .ok s ↔
      Ordinary (c, v) ∧ ∃ y, own m [(c, v)] x = some y ∧
        (settled m argv0 (os ++ [(c, v)]), y) = s := by
  have hordinary : Ordinary (c, v) := ⟨hversion, husage, fun h ↦ absurd h hnumber⟩
  rw [hswitch, hsettled, own_case hc]
  simp [hordinary]

theorem number_case {f : ℤ → Opts}
    (hswitch : switch m (settled m argv0 os, x) (c, v) = (number v).map fun z ↦ (f z, x))
    (hsettled : ∀ z, v.bind sizetoint = some z → settled m argv0 (os ++ [(c, v)]) = f z)
    (hc : c ∈ cases) (hversion : c ≠ 'V') (husage : c ≠ '?') (hnumber : c ∈ numbers) :
    switch m (settled m argv0 os, x) (c, v) = .ok s ↔
      Ordinary (c, v) ∧ ∃ y, own m [(c, v)] x = some y ∧
        (settled m argv0 (os ++ [(c, v)]), y) = s := by
  rw [hswitch, number_map, own_case hc]
  constructor
  · rintro ⟨z, hz, rfl⟩
    refine ⟨⟨hversion, husage, fun _ ↦ by rw [hz]; rfl⟩, x, rfl, ?_⟩
    rw [hsettled z hz]
  · rintro ⟨hordinary, y, hy, rfl⟩
    cases hy
    obtain ⟨z, hz⟩ := Option.isSome_iff_exists.mp (hordinary.number hnumber)
    exact ⟨z, hz, by rw [hsettled z hz]⟩

theorem exit_case {e : Exit} (hswitch : switch m (settled m argv0 os, x) (c, v) = .error e)
    (hexit : c = 'V' ∨ c = '?') :
    switch m (settled m argv0 os, x) (c, v) = .ok s ↔
      Ordinary (c, v) ∧ ∃ y, own m [(c, v)] x = some y ∧
        (settled m argv0 (os ++ [(c, v)]), y) = s := by
  rw [hswitch]
  refine ⟨fun h ↦ (by cases h), fun h ↦ ?_⟩
  rcases hexit with hc | hc
  · exact absurd hc h.1.version
  · exact absurd hc h.1.usage

theorem other_case (hc : c ∉ cases) :
    switch m (settled m argv0 os, x) (c, v) = .ok s ↔
      Ordinary (c, v) ∧ ∃ y, own m [(c, v)] x = some y ∧
        (settled m argv0 (os ++ [(c, v)]), y) = s := by
  have hne (d : Char) (hd : d ∈ cases) : c ≠ d := fun he ↦ hc (he ▸ hd)
  have hordinary : Ordinary (c, v) := by
    refine ⟨hne _ (by decide), hne _ (by decide), fun h ↦ absurd ?_ hc⟩
    simp only [numbers, cases, List.mem_cons, List.not_mem_nil, or_false] at h ⊢
    tauto
  simp only [cases, List.mem_cons, List.not_mem_nil, or_false, forall_eq_or_imp, forall_eq] at hne
  have hown : own m [(c, v)] x = m.benchmarkOptswitch c v x := by
    rw [own, if_neg hc]
    cases m.benchmarkOptswitch c v x <;> rfl
  rw [settled_other hc, hown]
  simp only [switch, hne, if_false]
  cases m.benchmarkOptswitch c v x with
  | none => simp
  | some y => simp [hordinary]

end Cases

/-- One option takes what the options before it come to to what they come to with it. -/
theorem switch_eq (os : List Opt) (x : σ) (p : Opt) (harg : p.1 = 'N' → p.2.isSome)
    (s : Opts × σ) :
    switch m (settled m argv0 os, x) p = .ok s ↔
      Ordinary p ∧ ∃ y, own m [p] x = some y ∧ (settled m argv0 (os ++ [p]), y) = s := by
  obtain ⟨c, v⟩ := p
  by_cases hc : c ∈ cases
  case neg => exact other_case hc
  have hcases := hc
  simp only [cases, List.mem_cons, List.not_mem_nil, or_false] at hcases
  rcases hcases with rfl | rfl | rfl | rfl | rfl | rfl | rfl | rfl | rfl | rfl | rfl | rfl | rfl | rfl
  · exact flag_case rfl (by simp [settled, flagged_snoc, lastNumber_snoc, lastOf_snoc]) hc (by decide)
      (by decide) (by decide)
  · exact flag_case rfl (by simp [settled, flagged_snoc, lastNumber_snoc, lastOf_snoc]) hc (by decide)
      (by decide) (by decide)
  · refine number_case rfl (fun z hz ↦ ?_) hc (by decide) (by decide) (by decide)
    simp [settled, flagged_snoc, lastNumber_snoc, lastOf_snoc, hz]
  · refine number_case rfl (fun z hz ↦ ?_) hc (by decide) (by decide) (by decide)
    simp [settled, flagged_snoc, lastNumber_snoc, lastOf_snoc, hz]
  · exact flag_case rfl (by simp [settled, flagged_snoc, lastNumber_snoc, lastOf_snoc]) hc (by decide)
      (by decide) (by decide)
  · exact flag_case rfl (by simp [settled, flagged_snoc, lastNumber_snoc, lastOf_snoc]) hc (by decide)
      (by decide) (by decide)
  · exact flag_case rfl (by simp [settled, flagged_snoc, lastNumber_snoc, lastOf_snoc]) hc (by decide)
      (by decide) (by decide)
  · exact flag_case rfl (by simp [settled, flagged_snoc, lastNumber_snoc, lastOf_snoc]) hc (by decide)
      (by decide) (by decide)
  · obtain ⟨n, rfl⟩ := Option.isSome_iff_exists.mp (harg rfl)
    exact flag_case rfl (by simp [settled, flagged_snoc, lastNumber_snoc, lastOf_snoc]) hc (by decide)
      (by decide) (by decide)
  · refine number_case rfl (fun z hz ↦ ?_) hc (by decide) (by decide) (by decide)
    simp [settled, flagged_snoc, lastNumber_snoc, lastOf_snoc, hz]
  · exact flag_case rfl (by simp [settled, flagged_snoc, lastNumber_snoc, lastOf_snoc]) hc (by decide)
      (by decide) (by decide)
  · refine number_case rfl (fun z hz ↦ ?_) hc (by decide) (by decide) (by decide)
    simp [settled, flagged_snoc, lastNumber_snoc, lastOf_snoc, hz]
  · exact exit_case rfl (.inl rfl)
  · exact exit_case rfl (.inr rfl)

theorem loop_some {ps : List (Option Opt)} {s s' : Opts × σ} (h : loop m ps s = .ok s') :
    ∃ os : List Opt, ps = os.map some := by
  induction ps generalizing s with
  | nil => exact ⟨[], rfl⟩
  | cons p ps ih =>
    cases p with
    | none => cases h
    | some p =>
      rw [loop] at h
      cases hp : switch m s p with
      | error e =>
        rw [Option.getD_some, hp] at h
        cases h
      | ok s₁ =>
        rw [Option.getD_some, hp] at h
        obtain ⟨os, rfl⟩ := ih h
        exact ⟨p :: os, rfl⟩

theorem own_cons (p : Opt) (os : List Opt) (x : σ) :
    own m (p :: os) x = (own m [p] x).bind (own m os) := by
  simp only [own]
  split_ifs
  · rfl
  · cases m.benchmarkOptswitch p.1 p.2 x <;> rfl

theorem loop_eq (os' os : List Opt) (x : σ) (harg : ∀ p ∈ os, p.1 = 'N' → p.2.isSome)
    (s : Opts × σ) :
    loop m (os.map some) (settled m argv0 os', x) = .ok s ↔
      (∀ p ∈ os, Ordinary p) ∧ ∃ y, own m os x = some y ∧ (settled m argv0 (os' ++ os), y) = s := by
  induction os generalizing os' x with
  | nil => simp [loop, own]
  | cons p os ih =>
    have hstep := @switch_eq σ m argv0 os' x p (harg p List.mem_cons_self)
    have hrest := fun y ↦ ih (os' ++ [p]) y fun q hq ↦ harg q (List.mem_cons_of_mem p hq)
    simp only [List.append_assoc, List.singleton_append] at hrest
    rw [List.map_cons, loop, Option.getD_some, List.forall_mem_cons, own_cons]
    constructor
    · intro h
      cases hp : switch m (settled m argv0 os', x) p with
      | error e =>
        rw [hp] at h
        cases h
      | ok s₁ =>
        rw [hp] at h
        obtain ⟨hordinary, y, hy, rfl⟩ := (hstep s₁).mp hp
        obtain ⟨hall, z, hz, hs⟩ := (hrest y).mp h
        exact ⟨⟨hordinary, hall⟩, z, by rw [hy, Option.bind_some, hz], hs⟩
    · rintro ⟨⟨hordinary, hall⟩, z, hz, hs⟩
      obtain ⟨y, hy, hz⟩ := Option.bind_eq_some_iff.mp hz
      have hp := (hstep _).mpr ⟨hordinary, y, hy, rfl⟩
      rw [hp]
      exact (hrest y).mpr ⟨hall, z, hz, hs⟩

theorem takes_name (m : Module σ) : takes (optstr m) 'N' = some true := rfl

theorem line_arguments {spec : Char → Option Bool} {args : List (List Char)} {os : List Opt}
    {operands : List (List Char)} (h : Line permute spec args os operands) :
    ∀ p ∈ os, spec p.1 = some p.2.isSome := by
  induction h with
  | nil | stop | rest => simp
  | operand hpermute ha h ih => exact ih
  | @word w args os operands hw h ih =>
    intro p hp
    rcases List.mem_append.mp hp with hp | hp
    · cases w with
      | flags cs =>
        obtain ⟨c, hc, rfl⟩ := List.mem_map.mp hp
        exact hw.1 c hc
      | attached cs c v | separate cs c v =>
        rcases List.mem_append.mp hp with hp | hp
        · obtain ⟨c, hc, rfl⟩ := List.mem_map.mp hp
          exact hw.1 c hc
        · obtain rfl := List.mem_singleton.mp hp
          exact hw.2.1
    · exact ih p hp

theorem commandLine_ok (permute : Bool) (m : Module σ) (argv0 : List Char)
    (args : List (List Char)) (r : Settings σ) :
    commandLine permute m argv0 args = .ok r ↔
      ∃ os, Line permute (takes (optstr m)) args os r.operands ∧ (∀ p ∈ os, Ordinary p) ∧
        own m os m.statics = some r.statics ∧
        override (settled m argv0 os) = (r.opts, r.warned) := by
  have hname {os : List Opt} {operands : List (List Char)}
      (h : Line permute (takes (optstr m)) args os operands) :
      ∀ p ∈ os, p.1 = 'N' → p.2.isSome := by
    intro p hp he
    have harg := line_arguments h p hp
    rw [he, takes_name] at harg
    exact (Option.some.inj harg).symm
  have hloop (os : List Opt) := @loop_eq σ m argv0 [] os m.statics
  simp only [settled_nil, List.nil_append] at hloop
  unfold commandLine
  rcases hget : getopt permute (takes (optstr m)) args with ⟨ps, operands⟩
  constructor
  · intro h
    cases hps : loop m ps (initial m argv0, m.statics) with
    | error e =>
      simp only [hps] at h
      cases h
    | ok s =>
      simp only [hps] at h
      cases h
      obtain ⟨os, rfl⟩ := loop_some hps
      have hline := (getopt_iff args os operands).mp hget
      obtain ⟨hall, y, hy, rfl⟩ := (hloop os (hname hline) s).mp hps
      exact ⟨os, hline, hall, hy, rfl⟩
  · rintro ⟨os, hline, hall, hown, hsettled⟩
    obtain ⟨rfl, rfl⟩ := Prod.mk.inj (hget.symm.trans ((getopt_iff args os r.operands).mpr hline))
    have hps := (hloop os (hname hline) _).mpr ⟨hall, _, hown, rfl⟩
    simp only [hps]
    obtain ⟨opts, warned, statics, operands⟩ := r
    simp only at hsettled
    simp [Except.map, hsettled]

section Order

variable {os os' : List Opt}

theorem flagged_filter (os : List Opt) (c : Char) :
    flagged os c = flagged (os.filter fun p ↦ p.1 = c) c := by
  induction os with
  | nil => rfl
  | cons p os ih =>
    by_cases hp : p.1 = c
    · simp [flagged, hp]
    · rw [List.filter_cons_of_neg (by simpa using hp), ← ih]
      simp [flagged, hp]

theorem lastOf_filter (os : List Opt) (c : Char) :
    lastOf os c = lastOf (os.filter fun p ↦ p.1 = c) c := by
  unfold lastOf
  rw [← List.filter_reverse, List.find?_filter]
  simp

theorem own_filter (os : List Opt) (x : σ) :
    own m os x = own m (os.filter fun p ↦ p.1 ∉ cases) x := by
  induction os generalizing x with
  | nil => rfl
  | cons p os ih =>
    by_cases hp : p.1 ∈ cases
    · rw [own, if_pos hp, List.filter_cons_of_neg (by simpa using hp), ih]
    · rw [own, if_neg hp, List.filter_cons_of_pos (by simpa using hp), own, if_neg hp]
      exact congrArg _ (funext ih)

/-- The same options, those of each letter in their order, and so those of the benchmark. -/
structure SameOrder (os os' : List Opt) : Prop where
  letter : ∀ c ∈ cases, (os.filter fun p ↦ p.1 = c) = os'.filter fun p ↦ p.1 = c
  others : (os.filter fun p ↦ p.1 ∉ cases) = os'.filter fun p ↦ p.1 ∉ cases

theorem SameOrder.settled_eq (h : SameOrder os os') : settled m argv0 os = settled m argv0 os' := by
  have hflag (c : Char) (hc : c ∈ cases) : flagged os c = flagged os' c := by
    rw [flagged_filter, h.letter c hc, ← flagged_filter]
  have hlast (c : Char) (hc : c ∈ cases) : lastOf os c = lastOf os' c := by
    rw [lastOf_filter, h.letter c hc, ← lastOf_filter]
  simp only [cases, List.mem_cons, List.not_mem_nil, or_false, forall_eq_or_imp, forall_eq]
    at hflag hlast
  simp only [settled, lastNumber, hflag, hlast]

theorem SameOrder.mem (h : SameOrder os os') {p : Opt} (hp : p ∈ os) : p ∈ os' := by
  by_cases hc : p.1 ∈ cases
  · have hmem : p ∈ os.filter fun q ↦ q.1 = p.1 := List.mem_filter.mpr ⟨hp, by simp⟩
    rw [h.letter _ hc] at hmem
    exact (List.mem_filter.mp hmem).1
  · have hmem : p ∈ os.filter fun q ↦ q.1 ∉ cases := List.mem_filter.mpr ⟨hp, by simpa using hc⟩
    rw [h.others] at hmem
    exact (List.mem_filter.mp hmem).1

theorem SameOrder.commandLine {args args' operands : List (List Char)} (h : SameOrder os os')
    (hline : Line permute (takes (optstr m)) args os operands)
    (hline' : Line permute (takes (optstr m)) args' os' operands) {r : Settings σ}
    (hr : commandLine permute m argv0 args = .ok r) :
    CommandLine.commandLine permute m argv0 args' = .ok r := by
  obtain ⟨os₁, hline₁, hall, hown, hsettled⟩ := (commandLine_ok permute m argv0 args r).mp hr
  have hget := hline.scan_eq.symm.trans hline₁.scan_eq
  obtain ⟨hos, hoperands⟩ := Prod.mk.inj hget
  obtain rfl := List.map_injective_iff.mpr (fun _ _ ↦ Option.some.inj) hos
  have h' : SameOrder os' os := ⟨fun c hc ↦ (h.letter c hc).symm, h.others.symm⟩
  refine (commandLine_ok permute m argv0 args' r).mpr ⟨os', hoperands ▸ hline', ?_, ?_, ?_⟩
  · exact fun p hp ↦ hall p (h'.mem hp)
  · rw [own_filter, ← h.others, ← own_filter]
    exact hown
  · rw [← h.settled_eq]
    exact hsettled

end Order

end LibMicro.CommandLine
