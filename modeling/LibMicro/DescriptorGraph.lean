import LibMicro.DescriptorTable
import Mathlib.Data.List.Perm.Basic
import Mathlib.Data.Nat.Find

namespace LibMicro.DescriptorGraph

open DescriptorTable

/-- What the variables for descriptors hold. It is -1 where there is none. -/
abbrev Vars (V : Type) := V → Option ℕ

inductive Test (V : Type)
  | always
  | positive (x : V)
  | notPositive (x : V)
  | notFailed (x : V)

inductive Effect (V : Type)
  | other
  | opens (xs : List V)
  | closes (x : V)
  | assigns (x y : V)
  | fails (x : V)

structure Edge (V P : Type) where
  test : Test V
  effect : Effect V
  target : P

namespace Edge

variable {V P : Type}

def goto (p : P) : Edge V P := ⟨.always, .other, p⟩

def opens (xs : List V) (p : P) : Edge V P := ⟨.always, .opens xs, p⟩

def closes (x : V) (p : P) : Edge V P := ⟨.always, .closes x, p⟩

def fails (x : V) (p : P) : Edge V P := ⟨.always, .fails x, p⟩

end Edge

abbrev Flow (V P : Type) := P → List (Edge V P)

/-- A program on its way. The last three are history: the table when the round began, and the
descriptors that it has opened and closed since. -/
structure Task (V P α : Type) where
  vars : Vars V
  pc : P
  before : Table α
  opened : List ℕ
  closed : List ℕ

variable {V P α : Type}

def Test.holds (vars : Vars V) : Test V → Bool
  | always => true
  | positive x => (vars x).any (0 < ·)
  | notPositive x => !(vars x).any (0 < ·)
  | notFailed x => (vars x).isSome

section Steps

variable [DecidableEq V]

def setAll (vars : Vars V) : List V → List ℕ → Vars V
  | x :: xs, fd :: fds => setAll (Function.update vars x (some fd)) xs fds
  | _, _ => vars

/-- The kernel gives out the least numbers that are free. -/
def Lowest (t : Table α) (fds : List ℕ) : Prop := ∀ fd ∈ fds, ∀ i < fd, t i = none → i ∈ fds

instance (t : Table α) (fds : List ℕ) : Decidable (Lowest t fds) := by
  unfold Lowest
  infer_instance

namespace Task

def begin (s : Task V P α) (t : Table α) (p : P) : Task V P α := ⟨s.vars, p, t, [], []⟩

def opens (s : Task V P α) (xs : List V) (fds : List ℕ) (p : P) : Task V P α :=
  { s with vars := setAll s.vars xs fds, pc := p, opened := s.opened ++ fds }

def closes (s : Task V P α) (fd : ℕ) (p : P) : Task V P α :=
  { s with pc := p, closed := s.closed ++ [fd] }

def sets (s : Task V P α) (x : V) (v : Option ℕ) (p : P) : Task V P α :=
  { s with vars := Function.update s.vars x v, pc := p }

/-- The effect of a call by `u` that opens `fds`. -/
def run (u : α) (fds : List ℕ) (t : Table α) (s : Task V P α) (p : P) :
    Effect V → Option (Table α × Task V P α)
  | .other => some (t, { s with pc := p })
  | .opens xs =>
    if fds.length = xs.length ∧ Lowest t fds then (t.allot u fds).map (·, s.opens xs fds p) else none
  | .closes x => (s.vars x).bind fun fd ↦ (t.close fd).map (·, s.closes fd p)
  | .assigns x y => some (t, s.sets x (s.vars y) p)
  | .fails x => some (t, s.sets x none p)

def step (u : α) (fds : List ℕ) (t : Table α) (s : Task V P α) (e : Edge V P) :
    Option (Table α × Task V P α) :=
  if e.test.holds s.vars then s.run u fds t e.target e.effect else none

end Task

end Steps

/-- At a point: the variables with the descriptors that have been opened in this round and not
closed, and those that hold -1. -/
structure Facts (V : Type) where
  held : List V
  failed : List V

structure Facts.Hold (f : Facts V) (positive : List V) (vars : Vars V) (live : List ℕ) : Prop where
  held : live.map some = f.held.map vars
  failed : ∀ x ∈ f.failed, vars x = none
  positive : ∀ x ∈ f.held, x ∈ positive → vars x ≠ some 0

theorem Facts.Hold.isSome {f : Facts V} {positive : List V} {vars : Vars V} {live : List ℕ} {x : V}
    (h : f.Hold positive vars live) (hx : x ∈ f.held) : ∃ fd ∈ live, vars x = some fd := by
  have hmem : vars x ∈ live.map some := by
    rw [h.held]
    exact List.mem_map_of_mem hx
  obtain ⟨fd, hfd, he⟩ := List.mem_map.mp hmem
  exact ⟨fd, hfd, he.symm⟩

def Facts.Excludes (f : Facts V) (positive : List V) : Test V → Prop
  | .always => False
  | .positive x | .notFailed x => x ∈ f.failed
  | .notPositive x => x ∈ f.held ∧ x ∈ positive

theorem Facts.Hold.not_excludes {f : Facts V} {positive : List V} {vars : Vars V} {live : List ℕ}
    {c : Test V} (h : f.Hold positive vars live) (hc : c.holds vars) :
    ¬ f.Excludes positive c := by
  intro he
  cases c with
  | always => exact he
  | positive x | notFailed x =>
    have hnone := h.failed x he
    simp [Test.holds, hnone] at hc
  | notPositive x =>
    obtain ⟨hx, hpos⟩ := he
    obtain ⟨fd, -, hfd⟩ := h.isSome hx
    have hne := h.positive x hx hpos
    rw [hfd] at hne
    have hlt : 0 < fd := Nat.pos_of_ne_zero fun hzero ↦ hne (by rw [hzero])
    simp [Test.holds, hfd, hlt] at hc

def Facts.Ensures (f : Facts V) (positive : List V) : Test V → Prop
  | .always => True
  | .positive x => x ∈ f.held ∧ x ∈ positive
  | .notPositive x => x ∈ f.failed
  | .notFailed x => x ∈ f.held

theorem Facts.Hold.holds {f : Facts V} {positive : List V} {vars : Vars V} {live : List ℕ}
    {c : Test V} (h : f.Hold positive vars live) (hc : f.Ensures positive c) : c.holds vars := by
  cases c with
  | always => rfl
  | positive x =>
    obtain ⟨hx, hpos⟩ := hc
    obtain ⟨fd, -, hfd⟩ := h.isSome hx
    have hne : fd ≠ 0 := fun hzero ↦ h.positive x hx hpos (by rw [hfd, hzero])
    simp [Test.holds, hfd, Nat.pos_of_ne_zero hne]
  | notPositive x =>
    have hnone := h.failed x hc
    simp [Test.holds, hnone]
  | notFailed x =>
    obtain ⟨fd, -, hfd⟩ := h.isSome hc
    simp [Test.holds, hfd]

def Effect.Leads [DecidableEq V] (positive : List V) (f f' : Facts V) : Effect V → Prop
  | .other => f'.held = f.held ∧ ∀ z ∈ f'.failed, z ∈ f.failed
  | .opens xs => f'.held = f.held ++ xs ∧ xs.Nodup ∧ (∀ x ∈ xs, x ∉ f.held) ∧
      ∀ z ∈ f'.failed, z ∈ f.failed ∧ z ∉ xs
  | .closes x => x ∈ f.held ∧ f'.held = f.held.erase x ∧ ∀ z ∈ f'.failed, z ∈ f.failed
  | .assigns x y => f.held = f.held.dropLast ++ [y] ∧ f'.held = f.held.dropLast ++ [x] ∧
      x ∉ f.held.dropLast ∧ (x ∈ positive → y ∈ positive) ∧ ∀ z ∈ f'.failed, z ∈ f.failed ∧ z ≠ x
  | .fails x => f'.held = f.held ∧ x ∉ f.held ∧ ∀ z ∈ f'.failed, z = x ∨ z ∈ f.failed

def Effect.ClosesIn (xs : List V) : Effect V → Prop
  | .closes x => x ∈ xs
  | _ => True

/-- The facts at each point that can be reached. -/
abbrev Outline (V P : Type) := P → Option (Facts V)

section Check

variable [DecidableEq V]

def Effect.LeadsTo (positive : List V) (f : Facts V) (e : Effect V) : Option (Facts V) → Prop
  | some f' => e.Leads positive f f'
  | none => False

def Outline.EdgeOk (o : Outline V P) (positive : List V) (f : Facts V) (e : Edge V P) : Prop :=
  f.Excludes positive e.test ∨ e.effect.LeadsTo positive f (o e.target)

def PointOk (o : Outline V P) (positive : List V) (edges : List (Edge V P)) :
    Option (Facts V) → Prop
  | some f => ∀ e ∈ edges, o.EdgeOk positive f e
  | none => True

def Outline.Ok (o : Outline V P) (positive : List V) (graph : Flow V P) : Prop :=
  ∀ p, PointOk o positive (graph p) (o p)

def Outline.Ensures (o : Outline V P) (positive : List V) (p : P) (c : Test V) : Prop :=
  ∃ f ∈ o p, f.Ensures positive c

/-- The first ways on lead from a point to `q` in at most so many steps. -/
def Outline.Path (o : Outline V P) (positive : List V) (graph : Flow V P) (q : P) : ℕ → P → Prop
  | 0, p => p = q
  | n + 1, p => p = q ∨
      ∃ e ∈ (graph p).head?, o.Ensures positive p e.test ∧ o.Path positive graph q n e.target

variable (o : Outline V P) (positive : List V) (graph : Flow V P) (f f' : Facts V)

instance : ∀ c : Test V, Decidable (f.Excludes positive c)
  | .always => inferInstanceAs (Decidable False)
  | .positive x | .notFailed x => inferInstanceAs (Decidable (x ∈ f.failed))
  | .notPositive x => inferInstanceAs (Decidable (x ∈ f.held ∧ x ∈ positive))

instance : ∀ e : Effect V, Decidable (e.ClosesIn positive)
  | .closes x => inferInstanceAs (Decidable (x ∈ positive))
  | .other | .opens _ | .assigns _ _ | .fails _ => inferInstanceAs (Decidable True)

instance (e : Effect V) : Decidable (e.Leads positive f f') :=
  match e with
  | .other => inferInstanceAs (Decidable (_ ∧ _))
  | .opens _ => inferInstanceAs (Decidable (_ ∧ _))
  | .closes _ => inferInstanceAs (Decidable (_ ∧ _))
  | .assigns _ _ => inferInstanceAs (Decidable (_ ∧ _))
  | .fails _ => inferInstanceAs (Decidable (_ ∧ _))

instance (e : Effect V) : ∀ g, Decidable (e.LeadsTo positive f g)
  | some f' => inferInstanceAs (Decidable (e.Leads positive f f'))
  | none => inferInstanceAs (Decidable False)

instance (e : Edge V P) : Decidable (o.EdgeOk positive f e) :=
  inferInstanceAs (Decidable (_ ∨ _))

instance : ∀ c : Test V, Decidable (f.Ensures positive c)
  | .always => inferInstanceAs (Decidable True)
  | .positive x => inferInstanceAs (Decidable (x ∈ f.held ∧ x ∈ positive))
  | .notPositive x => inferInstanceAs (Decidable (x ∈ f.failed))
  | .notFailed x => inferInstanceAs (Decidable (x ∈ f.held))

instance (p : P) (c : Test V) : Decidable (o.Ensures positive p c) :=
  inferInstanceAs (Decidable (∃ _ ∈ _, _))

instance Outline.decidablePath [DecidableEq P] (q : P) :
    ∀ n p, Decidable (o.Path positive graph q n p)
  | 0, p => inferInstanceAs (Decidable (p = q))
  | n + 1, p =>
    have := Outline.decidablePath q n
    inferInstanceAs (Decidable (p = q ∨ ∃ _ ∈ _, _ ∧ _))

instance (edges : List (Edge V P)) : ∀ g, Decidable (PointOk o positive edges g)
  | some f => inferInstanceAs (Decidable (∀ e ∈ edges, o.EdgeOk positive f e))
  | none => inferInstanceAs (Decidable True)

end Check

section Values

variable [DecidableEq V] {vars : Vars V} {xs : List V} {fds live : List ℕ} {x y : V} {positive : List V}
  {f f' : Facts V}

theorem setAll_of_not_mem (h : x ∉ xs) : setAll vars xs fds x = vars x := by
  induction xs generalizing vars fds with
  | nil => rfl
  | cons z xs ih =>
    cases fds with
    | nil => rfl
    | cons fd fds =>
      rw [List.mem_cons, not_or] at h
      rw [setAll, ih h.2, Function.update_of_ne h.1]

theorem map_setAll (hd : xs.Nodup) (hlen : fds.length = xs.length) :
    xs.map (setAll vars xs fds) = fds.map some := by
  induction xs generalizing vars fds with
  | nil =>
    rw [List.eq_nil_of_length_eq_zero hlen]
    rfl
  | cons z xs ih =>
    cases fds with
    | nil => cases hlen
    | cons fd fds =>
      obtain ⟨hz, hd⟩ := List.nodup_cons.mp hd
      have hfirst : setAll (Function.update vars z (some fd)) xs fds z = some fd := by
        rw [setAll_of_not_mem hz, Function.update_self]
      rw [setAll, List.map_cons, hfirst, ih hd (Nat.succ.inj hlen), List.map_cons]

theorem map_setAll_of_disjoint {ys : List V} (h : ∀ x ∈ xs, x ∉ ys) :
    ys.map (setAll vars xs fds) = ys.map vars := by
  apply List.map_congr_left
  intro y hy
  exact setAll_of_not_mem fun hmem ↦ h y hmem hy

theorem map_update_of_not_mem {ys : List V} {v : Option ℕ} (h : x ∉ ys) :
    ys.map (Function.update vars x v) = ys.map vars := by
  apply List.map_congr_left
  intro y hy
  exact Function.update_of_ne (ne_of_mem_of_not_mem hy h) _ _

namespace Facts.Hold

theorem other (h : f.Hold positive vars live) (he : Effect.other.Leads positive f f') :
    f'.Hold positive vars live where
  held := by
    rw [he.1]
    exact h.held
  failed z hz := h.failed z (he.2 z hz)
  positive := by
    rw [he.1]
    exact h.positive

theorem closes (h : f.Hold positive vars live) (he : (Effect.closes x).Leads positive f f') :
    ∃ l fd, live.Perm (fd :: l) ∧ vars x = some fd ∧ (x ∈ positive → fd ≠ 0) ∧
      f'.Hold positive vars l := by
  obtain ⟨hx, hheld, hfailed⟩ := he
  obtain ⟨h₁, h₂, -, hsplit, herase⟩ := List.exists_erase_eq hx
  have hmap := h.held
  rw [hsplit, List.map_append, List.map_cons] at hmap
  obtain ⟨l₁, rest, rfl, hl₁, hrest⟩ := List.map_eq_append_iff.mp hmap
  obtain ⟨fd, l₂, rfl, hfd, hl₂⟩ := List.map_eq_cons_iff.mp hrest
  refine ⟨l₁ ++ l₂, fd, List.perm_middle, hfd.symm, fun hpos hzero ↦ ?_, ?_⟩
  · exact h.positive x hx hpos (by rw [← hfd, hzero])
  constructor
  case held => rw [hheld, herase, List.map_append, List.map_append, hl₁, hl₂]
  case failed => exact fun z hz ↦ h.failed z (hfailed z hz)
  case positive =>
    intro z hz
    exact h.positive z (List.mem_of_mem_erase (hheld ▸ hz))

theorem opens (h : f.Hold positive vars live) (he : (Effect.opens xs).Leads positive f f')
    (hlen : fds.length = xs.length) (hzero : ∀ x ∈ xs, x ∈ positive → 0 ∉ fds) :
    f'.Hold positive (setAll vars xs fds) (live ++ fds) := by
  obtain ⟨hheld, hd, hnew, hfailed⟩ := he
  have hold : f.held.map (setAll vars xs fds) = f.held.map vars := map_setAll_of_disjoint hnew
  have hxs : xs.map (setAll vars xs fds) = fds.map some := map_setAll hd hlen
  constructor
  case held => rw [hheld, List.map_append, List.map_append, hold, hxs, h.held]
  case failed =>
    intro z hz
    rw [setAll_of_not_mem (hfailed z hz).2]
    exact h.failed z (hfailed z hz).1
  case positive =>
    intro x hx hpos
    rw [hheld, List.mem_append] at hx
    rcases hx with hx | hx
    · rw [setAll_of_not_mem fun hmem ↦ hnew x hmem hx]
      exact h.positive x hx hpos
    · intro hsome
      have hmem : some 0 ∈ fds.map some := by
        rw [← hxs, ← hsome]
        exact List.mem_map_of_mem hx
      obtain ⟨fd, hfd, hfd₀⟩ := List.mem_map.mp hmem
      obtain rfl := Option.some.inj hfd₀
      exact hzero x hx hpos hfd

theorem assigns (h : f.Hold positive vars live)
    (he : (Effect.assigns x y).Leads positive f f') :
    f'.Hold positive (Function.update vars x (vars y)) live := by
  obtain ⟨hheld, hheld', hx, hpos, hfailed⟩ := he
  have hy : y ∈ f.held := by
    rw [hheld]
    exact List.mem_append_right _ (List.mem_singleton_self y)
  constructor
  case held =>
    rw [hheld', List.map_append, map_update_of_not_mem hx, h.held, hheld, List.map_append]
    simp
  case failed =>
    intro z hz
    rw [Function.update_of_ne (hfailed z hz).2]
    exact h.failed z (hfailed z hz).1
  case positive =>
    intro z hz hzp
    rw [hheld', List.mem_append, List.mem_singleton] at hz
    rcases hz with hz | rfl
    · rw [Function.update_of_ne (ne_of_mem_of_not_mem hz hx)]
      exact h.positive z (List.dropLast_subset f.held hz) hzp
    · rw [Function.update_self]
      exact h.positive y hy (hpos hzp)

theorem fails (h : f.Hold positive vars live) (he : (Effect.fails x).Leads positive f f') :
    f'.Hold positive (Function.update vars x none) live := by
  obtain ⟨hheld, hx, hfailed⟩ := he
  constructor
  case held => rw [hheld, map_update_of_not_mem hx, h.held]
  case failed =>
    intro z hz
    by_cases hzx : z = x
    · rw [hzx, Function.update_self]
    · rw [Function.update_of_ne hzx]
      exact h.failed z ((hfailed z hz).resolve_left hzx)
  case positive =>
    intro z hz hzp
    rw [hheld] at hz
    rw [Function.update_of_ne (ne_of_mem_of_not_mem hz hx)]
    exact h.positive z hz hzp

end Facts.Hold

end Values

/-- `u` has open what it had before and the descriptors in `live`. All others that it has opened
it has closed, as often as it has opened them. -/
structure Tracks (t : Table α) (u : α) (s : Task V P α) (live : List ℕ) : Prop where
  owned : ∀ fd, t fd = some u ↔ s.before fd = some u ∨ fd ∈ live
  fresh : ∀ fd ∈ live, s.before fd ≠ some u
  distinct : live.Nodup
  once : s.opened.Perm (s.closed ++ live)

namespace Tracks

variable {t t' : Table α} {u : α} {s : Task V P α} {live fds l : List ℕ} {fd : ℕ} {p : P}

theorem opens [DecidableEq V] (h : Tracks t u s live) (ha : t.allot u fds = some t') (xs : List V) :
    Tracks t' u (s.opens xs fds p) (live ++ fds) := by
  constructor
  case owned =>
    intro fd
    have howned := h.owned fd
    rw [allot_owner ha, List.mem_append]
    simp only [Task.opens]
    tauto
  case fresh =>
    intro fd hfd hb
    rcases List.mem_append.mp hfd with hfd | hfd
    · exact h.fresh fd hfd hb
    · exact allot_new ha hfd ((h.owned fd).mpr (.inl hb))
  case distinct =>
    exact allot_nodup ha h.distinct fun fd hfd _ ↦ (h.owned fd).mpr (.inr hfd)
  case once =>
    have hperm := h.once.append_right fds
    rw [List.append_assoc] at hperm
    exact hperm

theorem closes (h : Tracks t u s live) (hl : live.Perm (fd :: l)) (hc : t.close fd = some t') :
    Tracks t' u (s.closes fd p) l := by
  obtain ⟨hnot, hnodup⟩ := List.nodup_cons.mp (hl.nodup h.distinct)
  have hmem (i : ℕ) : i ∈ live ↔ i = fd ∨ i ∈ l := hl.mem_iff.trans List.mem_cons
  constructor
  case owned =>
    intro i
    have howned := h.owned i
    have hfresh := h.fresh fd ((hmem fd).mpr (.inl rfl))
    rw [hmem] at howned
    rw [close_owner hc]
    by_cases hi : i = fd
    · subst hi
      simp [Task.closes, hfresh, hnot]
    · simp [Task.closes, hi, howned]
  case fresh =>
    intro i hi
    exact h.fresh i ((hmem i).mpr (.inr hi))
  case distinct => exact hnodup
  case once =>
    have hall := h.once.trans (hl.append_left s.closed)
    rw [List.append_cons] at hall
    exact hall

end Tracks

def Inv (o : Outline V P) (positive : List V) (t : Table α) (u : α) (s : Task V P α) : Prop :=
  ∃ f live, o s.pc = some f ∧ f.Hold positive s.vars live ∧ Tracks t u s live

section Programs

variable {o : Outline V P} {positive : List V} {graph : Flow V P} {t t' : Table α} {u v : α}
  {s s' : Task V P α} {e : Edge V P} {f : Facts V} {fds : List ℕ} {x : V} {p : P} {N : ℕ}

theorem Inv.begin (hf : o p = some ⟨[], []⟩) : Inv o positive t u (s.begin t p) := by
  refine ⟨⟨[], []⟩, [], hf, ⟨rfl, nofun, nofun⟩, ⟨fun fd ↦ ?_, nofun, List.nodup_nil, .refl []⟩⟩
  simp [Task.begin]

theorem Inv.frame (h : Inv o positive t u s) (hf : ∀ fd, t' fd = some u ↔ t fd = some u) :
    Inv o positive t' u s := by
  obtain ⟨f, live, ho, hold, htracks⟩ := h
  exact ⟨f, live, ho, hold, fun fd ↦ (hf fd).trans (htracks.owned fd), htracks.fresh,
    htracks.distinct, htracks.once⟩

theorem Inv.live (h : Inv o positive t u s) (hf : o s.pc = some f) :
    ∃ live, live.map some = f.held.map s.vars ∧
      (∀ fd, t fd = some u ↔ s.before fd = some u ∨ fd ∈ live) ∧
        s.opened.Perm (s.closed ++ live) := by
  obtain ⟨f', live, hf', hold, htracks⟩ := h
  obtain rfl := Option.some.inj (hf'.symm.trans hf)
  exact ⟨live, hold.held, htracks.owned, htracks.once⟩

theorem Inv.holds {c : Test V} (h : Inv o positive t u s) (hc : o.Ensures positive s.pc c) :
    c.holds s.vars := by
  obtain ⟨f, live, hf, hold, -⟩ := h
  obtain ⟨f', hf', hensures⟩ := hc
  obtain rfl := Option.some.inj (hf'.symm.trans hf)
  exact hold.holds hensures

variable [DecidableEq V]

theorem Outline.Ok.leads (h : o.Ok positive graph) (he : e ∈ graph p) {f : Facts V} (hf : o p = some f)
    {live : List ℕ} {vars : Vars V} (hold : f.Hold positive vars live)
    (htest : e.test.holds vars) : ∃ f', o e.target = some f' ∧ e.effect.Leads positive f f' := by
  have hpoint := h p
  rw [hf] at hpoint
  rcases hpoint e he with hex | hleads
  · exact absurd hex (hold.not_excludes htest)
  · cases htarget : o e.target with
    | none =>
      rw [htarget] at hleads
      exact hleads.elim
    | some f' =>
      rw [htarget] at hleads
      exact ⟨f', rfl, hleads⟩

theorem step_some (hs : s.step u fds t e = some (t', s')) :
    e.test.holds s.vars ∧ s.run u fds t e.target e.effect = some (t', s') := by
  unfold Task.step at hs
  split at hs
  case isTrue htest => exact ⟨htest, hs⟩
  case isFalse => cases hs

theorem run_opens {xs : List V} (hs : s.run u fds t p (.opens xs) = some (t', s')) :
    fds.length = xs.length ∧ Lowest t fds ∧ t.allot u fds = some t' ∧ s' = s.opens xs fds p := by
  by_cases hfds : fds.length = xs.length ∧ Lowest t fds
  · rw [Task.run, if_pos hfds] at hs
    obtain ⟨t', ha, hpair⟩ := Option.map_eq_some_iff.mp hs
    cases hpair
    exact ⟨hfds.1, hfds.2, ha, rfl⟩
  · rw [Task.run, if_neg hfds] at hs
    cases hs

theorem run_closes (hs : s.run u fds t p (.closes x) = some (t', s')) :
    ∃ fd, s.vars x = some fd ∧ t.close fd = some t' ∧ s' = s.closes fd p := by
  obtain ⟨fd, hfd, hrest⟩ := Option.bind_eq_some_iff.mp hs
  obtain ⟨t', hc, hpair⟩ := Option.map_eq_some_iff.mp hrest
  cases hpair
  exact ⟨fd, hfd, hc, rfl⟩

theorem Inv.closable (h : Inv o positive t u s) (ho : o.Ok positive graph) (he : e ∈ graph s.pc)
    (htest : e.test.holds s.vars) (hx : e.effect = .closes x) :
    ∃ fd, s.vars x = some fd ∧ t fd = some u ∧ (x ∈ positive → fd ≠ 0) := by
  obtain ⟨f, live, hf, hold, htracks⟩ := h
  obtain ⟨f', -, hleads⟩ := ho.leads he hf hold htest
  rw [hx] at hleads
  obtain ⟨l, fd, hl, hfd, hpos, -⟩ := hold.closes hleads
  exact ⟨fd, hfd, (htracks.owned fd).mpr (.inr (hl.mem_iff.mpr List.mem_cons_self)), hpos⟩

/-- A step keeps the invariant, and what the others have open. The numbers that a test of the
program takes for success must not be 0. -/
theorem Inv.step (h : Inv o positive t u s) (ho : o.Ok positive graph) (he : e ∈ graph s.pc)
    (hzero : ∀ xs, e.effect = .opens xs → ∀ x ∈ xs, x ∈ positive → 0 ∉ fds)
    (hs : s.step u fds t e = some (t', s')) :
    Inv o positive t' u s' ∧ ∀ v ≠ u, ∀ fd, t' fd = some v ↔ t fd = some v := by
  obtain ⟨htest, hrun⟩ := step_some hs
  obtain ⟨f, live, hf, hold, htracks⟩ := h
  obtain ⟨f', hf', hleads⟩ := ho.leads he hf hold htest
  cases heffect : e.effect with
  | other =>
    rw [heffect] at hrun hleads
    cases hrun
    exact ⟨⟨f', live, hf', hold.other hleads, ⟨htracks.1, htracks.2, htracks.3, htracks.4⟩⟩,
      fun v _ fd ↦ Iff.rfl⟩
  | opens xs =>
    rw [heffect] at hrun hleads
    obtain ⟨hlen, -, ha, rfl⟩ := run_opens hrun
    exact ⟨⟨f', live ++ fds, hf', hold.opens hleads hlen (hzero xs heffect), htracks.opens ha xs⟩,
      fun v hv fd ↦ allot_other ha hv fd⟩
  | closes x =>
    rw [heffect] at hrun hleads
    obtain ⟨fd, hfd, hc, rfl⟩ := run_closes hrun
    obtain ⟨l, last, hl, hlast, -, hold'⟩ := hold.closes hleads
    obtain rfl := Option.some.inj (hfd.symm.trans hlast)
    have howned := (htracks.owned fd).mpr (.inr (hl.mem_iff.mpr List.mem_cons_self))
    exact ⟨⟨f', l, hf', hold', htracks.closes hl hc⟩, fun v hv fd ↦ close_other hc howned hv fd⟩
  | assigns x y =>
    rw [heffect] at hrun hleads
    cases hrun
    exact ⟨⟨f', live, hf', hold.assigns hleads, ⟨htracks.1, htracks.2, htracks.3, htracks.4⟩⟩,
      fun v _ fd ↦ Iff.rfl⟩
  | fails x =>
    rw [heffect] at hrun hleads
    cases hrun
    exact ⟨⟨f', live, hf', hold.fails hleads, ⟨htracks.1, htracks.2, htracks.3, htracks.4⟩⟩,
      fun v _ fd ↦ Iff.rfl⟩

theorem Lowest.zero (h : Lowest t fds) (ha : t.allot u fds = some t') (hne : fds ≠ []) :
    t' 0 ≠ none := by
  obtain ⟨fd, hfd⟩ := List.exists_mem_of_ne_nil fds hne
  rw [allot_apply ha]
  by_cases hmem : 0 ∈ fds
  · rw [if_pos hmem]
    exact nofun
  · rw [if_neg hmem]
    intro hzero
    have hpos : 0 < fd := Nat.pos_of_ne_zero fun h₀ ↦ hmem (h₀ ▸ hfd)
    exact hmem (h fd hfd 0 hpos hzero)

theorem step_zero (hs : s.step u fds t e = some (t', s')) (h : t 0 ≠ none)
    (hc : ∀ x, e.effect = .closes x → s.vars x ≠ some 0) : t' 0 ≠ none := by
  obtain ⟨-, hrun⟩ := step_some hs
  cases heffect : e.effect with
  | other | assigns x y | fails x =>
    rw [heffect] at hrun
    cases hrun
    exact h
  | opens xs =>
    rw [heffect] at hrun
    obtain ⟨-, -, ha, -⟩ := run_opens hrun
    rw [allot_apply ha]
    split
    · exact nofun
    · exact h
  | closes x =>
    rw [heffect] at hrun
    obtain ⟨fd, hfd, hclose, -⟩ := run_closes hrun
    have hne : 0 ≠ fd := by
      rintro rfl
      exact hc x heffect hfd
    rw [close_apply hclose, if_neg hne]
    exact h

theorem Inv.step_of_zero (h : Inv o positive t u s) (ho : o.Ok positive graph) (he : e ∈ graph s.pc)
    (hzero : t 0 ≠ none) (hc : e.effect.ClosesIn positive)
    (hs : s.step u fds t e = some (t', s')) :
    Inv o positive t' u s' ∧ (∀ v ≠ u, ∀ fd, t' fd = some v ↔ t fd = some v) ∧ t' 0 ≠ none := by
  obtain ⟨htest, hrun⟩ := step_some hs
  have hnot : ∀ xs, e.effect = .opens xs → ∀ x ∈ xs, x ∈ positive → 0 ∉ fds := by
    intro xs heffect _ _ _ hmem
    rw [heffect] at hrun
    obtain ⟨-, -, ha, -⟩ := run_opens hrun
    exact hzero ((allot_fresh ha).2 0 hmem)
  obtain ⟨hinv, hframe⟩ := h.step ho he hnot hs
  refine ⟨hinv, hframe, step_zero hs hzero fun x hx hvar ↦ ?_⟩
  obtain ⟨fd, hfd, -, hpos⟩ := h.closable ho he htest hx
  rw [hx] at hc
  exact hpos hc (Option.some.inj (hfd.symm.trans hvar))

theorem exists_bound (fds : List ℕ) : ∃ M, ∀ fd ∈ fds, fd < M := by
  induction fds with
  | nil => exact ⟨0, nofun⟩
  | cons fd fds ih =>
    obtain ⟨M, hM⟩ := ih
    refine ⟨max (fd + 1) M, List.forall_mem_cons.mpr ⟨by omega, fun i hi ↦ ?_⟩⟩
    have := hM i hi
    omega

theorem exists_lowest (hb : t.Below N) (n : ℕ) :
    ∃ fds, fds.length = n ∧ Lowest t fds ∧ fds.Nodup ∧ ∀ fd ∈ fds, t fd = none := by
  induction n with
  | zero => exact ⟨[], rfl, nofun, List.nodup_nil, nofun⟩
  | succ n ih =>
    obtain ⟨fds, hlen, hlow, hnodup, hfree⟩ := ih
    obtain ⟨M, hM⟩ := exists_bound fds
    have hsome : ∃ i, t i = none ∧ i ∉ fds :=
      ⟨max N M, hb _ (Nat.le_max_left N M), fun hi ↦ by have := hM _ hi; omega⟩
    obtain ⟨hnone, hnew⟩ := Nat.find_spec hsome
    refine ⟨fds ++ [Nat.find hsome], by rw [List.length_append, hlen]; rfl, ?_, ?_, ?_⟩
    · intro fd hfd i hi hti
      rcases List.mem_append.mp hfd with hfd | hfd
      · exact List.mem_append_left _ (hlow fd hfd i hi hti)
      · rw [List.mem_singleton] at hfd
        have hmin := Nat.find_min hsome (hfd ▸ hi)
        push Not at hmin
        exact List.mem_append_left _ (hmin hti)
    · exact (List.perm_append_singleton _ fds).nodup_iff.mpr (List.nodup_cons.mpr ⟨hnew, hnodup⟩)
    · intro fd hfd
      rcases List.mem_append.mp hfd with hfd | hfd
      · exact hfree fd hfd
      · rw [List.mem_singleton.mp hfd]
        exact hnone

theorem Inv.exists_step (h : Inv o positive t u s) (ho : o.Ok positive graph) (he : e ∈ graph s.pc)
    (htest : e.test.holds s.vars) (hb : t.Below N) :
    ∃ fds t' s', s.step u fds t e = some (t', s') ∧ s'.pc = e.target ∧ ∃ M, t'.Below M := by
  simp only [Task.step, htest, if_true]
  cases heffect : e.effect with
  | other => exact ⟨[], t, _, rfl, rfl, N, hb⟩
  | opens xs =>
    obtain ⟨fds, hlen, hlow, hnodup, hfree⟩ := exists_lowest hb xs.length
    obtain ⟨M, hM⟩ := exists_bound fds
    obtain ⟨t', ha⟩ : ∃ t', t.allot u fds = some t' := ⟨_, if_pos ⟨hnodup, hfree⟩⟩
    refine ⟨fds, t', s.opens xs fds e.target, ?_, rfl, max N M, fun i hi ↦ ?_⟩
    · rw [Task.run, if_pos ⟨hlen, hlow⟩, ha]
      rfl
    · have hnot : i ∉ fds := fun hmem ↦ by
        have := hM i hmem
        omega
      rw [allot_apply ha, if_neg hnot]
      exact hb i (Nat.le_trans (Nat.le_max_left N M) hi)
  | closes x =>
    obtain ⟨fd, hfd, howned, -⟩ := h.closable ho he htest heffect
    obtain ⟨t', hc⟩ := close_ne_none (show t fd ≠ none by simp [howned])
    refine ⟨[], t', s.closes fd e.target, ?_, rfl, N, hb.close hc⟩
    simp only [Task.run, hfd, Option.bind_some, hc, Option.map_some]
  | assigns x y => exact ⟨[], t, _, rfl, rfl, N, hb⟩
  | fails x => exact ⟨[], t, _, rfl, rfl, N, hb⟩

end Programs

end LibMicro.DescriptorGraph
