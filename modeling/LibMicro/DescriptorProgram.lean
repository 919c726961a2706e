import LibMicro.DescriptorTable
import Mathlib.Data.List.Perm.Basic

namespace LibMicro.DescriptorProgram

open DescriptorTable

/-- A call sets variables from the descriptors it opens. -/
inductive Stmt (V F : Type)
  | call (f : F) (xs : List V)
  | assign (x y : V)
  | close (x : V)

/-- A program on its way. The last three are history: the table when it began, and the
descriptors it has opened and closed. -/
structure Task (V F α : Type) where
  vars : V → ℕ
  todo : List (Stmt V F)
  before : Table α
  opened : List ℕ
  closed : List ℕ

variable {V F α : Type} [DecidableEq V]

def setAll (vars : V → ℕ) : List V → List ℕ → V → ℕ
  | x :: xs, fd :: fds => setAll (Function.update vars x fd) xs fds
  | _, _ => vars

namespace Task

def start : Task V F α := ⟨fun _ ↦ 0, [], fun _ ↦ none, [], []⟩

def begin (s : Task V F α) (t : Table α) (program : List (Stmt V F)) : Task V F α :=
  ⟨s.vars, program, t, [], []⟩

def opens (s : Task V F α) (xs : List V) (fds : List ℕ) (rest : List (Stmt V F)) : Task V F α :=
  { s with vars := setAll s.vars xs fds, todo := rest, opened := s.opened ++ fds }

def assigns (s : Task V F α) (x y : V) (rest : List (Stmt V F)) : Task V F α :=
  { s with vars := Function.update s.vars x (s.vars y), todo := rest }

def closes (s : Task V F α) (x : V) (rest : List (Stmt V F)) : Task V F α :=
  { s with todo := rest, closed := s.closed ++ [s.vars x] }

/-- The next statement, done by `u`. A call opens `fds`. -/
def step (u : α) (fds : List ℕ) (t : Table α) (s : Task V F α) : Option (Table α × Task V F α) :=
  match s.todo with
  | [] => none
  | .call _ xs :: rest =>
    if fds.length = xs.length then (t.allot u fds).map (·, s.opens xs fds rest) else none
  | .assign x y :: rest => some (t, s.assigns x y rest)
  | .close x :: rest => (t.close (s.vars x)).map (·, s.closes x rest)

end Task

/-- What is left of a program opens all its descriptors before it closes one, closes none
twice, and leaves those in `left` open. -/
def Sound (left : List V) : List (Stmt V F) → (V → ℕ) → List ℕ → List ℕ → Prop
  | [], vars, opened, closed => opened.Perm (closed ++ left.map vars)
  | .call _ xs :: rest, vars, opened, closed =>
    (xs ≠ [] → closed = []) ∧ ∀ fds, fds.length = xs.length → (opened ++ fds).Nodup →
      Sound left rest (setAll vars xs fds) (opened ++ fds) closed
  | .assign x y :: rest, vars, opened, closed =>
    Sound left rest (Function.update vars x (vars y)) opened closed
  | .close x :: rest, vars, opened, closed =>
    vars x ∈ opened ∧ vars x ∉ closed ∧ Sound left rest vars opened (closed ++ [vars x])

section Rules

variable {left : List V} {rest : List (Stmt V F)} {vars : V → ℕ} {opened closed : List ℕ}
  {f : F} {x y : V}

theorem sound_calls (fs : List F) (h : Sound left rest vars opened closed) :
    Sound left (fs.map (Stmt.call · []) ++ rest) vars opened closed := by
  induction fs with
  | nil => exact h
  | cons f fs ih =>
    refine ⟨fun hn ↦ absurd rfl hn, fun fds hlen _ ↦ ?_⟩
    rw [List.length_eq_zero_iff.mp hlen, List.append_nil]
    exact ih

theorem sound_open (h : ∀ a, (opened ++ [a]).Nodup →
      Sound left rest (Function.update vars x a) (opened ++ [a]) []) :
    Sound left (.call f [x] :: rest) vars opened [] := by
  refine ⟨fun _ ↦ rfl, fun fds hlen hd ↦ ?_⟩
  obtain ⟨a, rfl⟩ := List.length_eq_one_iff.mp hlen
  exact h a hd

theorem sound_open_pair (h : ∀ a b, (opened ++ [a, b]).Nodup →
      Sound left rest (Function.update (Function.update vars x a) y b) (opened ++ [a, b]) []) :
    Sound left (.call f [x, y] :: rest) vars opened [] := by
  refine ⟨fun _ ↦ rfl, fun fds hlen hd ↦ ?_⟩
  obtain ⟨a, b, rfl⟩ := List.length_eq_two.mp hlen
  exact h a b hd

theorem sound_assign (h : Sound left rest (Function.update vars x (vars y)) opened closed) :
    Sound left (.assign x y :: rest) vars opened closed := h

theorem sound_closes (xs : List V) (hd : opened.Nodup)
    (hp : opened.Perm (closed ++ (xs.map vars ++ left.map vars))) :
    Sound left (xs.map (Stmt.close : V → Stmt V F)) vars opened closed := by
  induction xs generalizing closed with
  | nil => exact hp
  | cons x xs ih =>
    have hnodup := hp.nodup hd
    refine ⟨?_, ?_, ?_⟩
    · apply hp.mem_iff.mpr
      apply List.mem_append_right
      exact List.mem_cons_self
    · intro hx
      exact (List.nodup_append.mp hnodup).2.2 _ hx _ List.mem_cons_self rfl
    · apply ih
      rw [List.append_assoc]
      exact hp

end Rules

/-- `u` has open what it had before and what the program has opened and not yet closed. -/
structure Tracks (t : Table α) (u : α) (s : Task V F α) : Prop where
  owned : ∀ fd, t fd = some u ↔ s.before fd = some u ∨ fd ∈ s.opened ∧ fd ∉ s.closed
  fresh : ∀ fd ∈ s.opened, s.before fd ≠ some u
  distinct : s.opened.Nodup

structure Inv (left : List V) (t : Table α) (u : α) (s : Task V F α) : Prop where
  tracks : Tracks t u s
  sound : Sound left s.todo s.vars s.opened s.closed

variable {left : List V} {t t' : Table α} {u v : α} {s s' : Task V F α} {rest : List (Stmt V F)}
  {f : F} {xs : List V} {x y : V} {fds : List ℕ} {N : ℕ}

theorem Inv.start (h : ∀ fd, t fd ≠ some u) : Inv [] t u (Task.start : Task V F α) where
  tracks := ⟨fun fd ↦ by simp [h fd, Task.start], nofun, List.nodup_nil⟩
  sound := List.Perm.refl []

theorem Inv.begin {program : List (Stmt V F)} (h : Sound left program s.vars [] []) :
    Inv left t u (s.begin t program) where
  tracks := ⟨fun fd ↦ by simp [Task.begin], nofun, List.nodup_nil⟩
  sound := h

theorem Tracks.opens (h : Tracks t u s) (hc : fds ≠ [] → s.closed = [])
    (ha : t.allot u fds = some t') : Tracks t' u (s.opens xs fds rest) := by
  have hmem : ∀ fd ∈ fds, fd ∉ s.closed := by
    intro fd hfd
    rw [hc (List.ne_nil_of_mem hfd)]
    exact List.not_mem_nil
  constructor
  case owned =>
    intro fd
    have hfd := hmem fd
    have howned := h.owned fd
    rw [allot_owner ha]
    simp only [Task.opens, List.mem_append]
    tauto
  case fresh =>
    intro fd hfd
    rcases List.mem_append.mp hfd with hfd | hfd
    · exact h.fresh fd hfd
    · intro hb
      exact allot_new ha hfd ((h.owned fd).mpr (.inl hb))
  case distinct =>
    exact allot_nodup ha h.distinct fun fd hfd hfd' ↦ (h.owned fd).mpr (.inr ⟨hfd, hmem fd hfd'⟩)

theorem Inv.opens (h : Inv left t u s) (htodo : s.todo = .call f xs :: rest)
    (hlen : fds.length = xs.length) (ha : t.allot u fds = some t') :
    Inv left t' u (s.opens xs fds rest) := by
  have hsound := h.sound
  rw [htodo] at hsound
  obtain ⟨hc, hrest⟩ := hsound
  have hne : fds ≠ [] → s.closed = [] := by
    intro hfds
    apply hc
    rintro rfl
    exact hfds (List.length_eq_zero_iff.mp hlen)
  have htracks : Tracks t' u (s.opens xs fds rest) := h.tracks.opens hne ha
  exact ⟨htracks, hrest fds hlen htracks.distinct⟩

theorem Inv.assigns (h : Inv left t u s) (htodo : s.todo = .assign x y :: rest) :
    Inv left t u (s.assigns x y rest) := by
  have hsound := h.sound
  rw [htodo] at hsound
  exact ⟨⟨h.tracks.owned, h.tracks.fresh, h.tracks.distinct⟩, hsound⟩

theorem Inv.closable (h : Inv left t u s) (htodo : s.todo = .close x :: rest) :
    t (s.vars x) = some u ∧ s.vars x ∈ s.opened ∧ s.vars x ∉ s.closed := by
  have hsound := h.sound
  rw [htodo] at hsound
  exact ⟨(h.tracks.owned _).mpr (.inr ⟨hsound.1, hsound.2.1⟩), hsound.1, hsound.2.1⟩

theorem Inv.closes (h : Inv left t u s) (htodo : s.todo = .close x :: rest)
    (hc : t.close (s.vars x) = some t') : Inv left t' u (s.closes x rest) := by
  have hfresh := h.tracks.fresh (s.vars x) (h.closable htodo).2.1
  have hsound := h.sound
  rw [htodo] at hsound
  refine ⟨⟨fun fd ↦ ?_, h.tracks.fresh, h.tracks.distinct⟩, hsound.2.2⟩
  have howned := h.tracks.owned fd
  rw [close_owner hc]
  simp only [Task.closes, List.mem_append, List.mem_singleton]
  by_cases hfd : fd = s.vars x
  · subst hfd
    simp [hfresh]
  · simp [hfd, howned]

theorem Inv.frame (h : Inv left t u s) (hf : ∀ fd, t' fd = some u ↔ t fd = some u) :
    Inv left t' u s where
  tracks := ⟨fun fd ↦ (hf fd).trans (h.tracks.owned fd), h.tracks.fresh, h.tracks.distinct⟩
  sound := h.sound

/-- A step keeps the invariant, and what the others have open. -/
theorem Inv.step (h : Inv left t u s) (hs : s.step u fds t = some (t', s')) :
    Inv left t' u s' ∧ ∀ v ≠ u, ∀ fd, t' fd = some v ↔ t fd = some v := by
  unfold Task.step at hs
  cases htodo : s.todo with
  | nil =>
    rw [htodo] at hs
    cases hs
  | cons c rest =>
    rw [htodo] at hs
    cases c with
    | call f xs =>
      dsimp only at hs
      split at hs
      case isFalse => cases hs
      case isTrue hlen =>
        obtain ⟨t', ha, he⟩ := Option.map_eq_some_iff.mp hs
        cases he
        exact ⟨h.opens htodo hlen ha, fun v hv fd ↦ allot_other ha hv fd⟩
    | assign x y =>
      cases hs
      exact ⟨h.assigns htodo, fun v _ fd ↦ Iff.rfl⟩
    | close x =>
      obtain ⟨t', hc, he⟩ := Option.map_eq_some_iff.mp hs
      cases he
      exact ⟨h.closes htodo hc, fun v hv fd ↦ close_other hc (h.closable htodo).1 hv fd⟩

theorem Inv.exists_step {c : Stmt V F} (h : Inv left t u s) (htodo : s.todo = c :: rest)
    (hb : t.Below N) : ∃ fds t' s', s.step u fds t = some (t', s') ∧ s'.todo = rest ∧
      ∃ M, t'.Below M := by
  unfold Task.step
  rw [htodo]
  cases c with
  | call f xs =>
    obtain ⟨t', ha, ht⟩ := hb.allot u xs.length
    let fds := List.range' N xs.length
    refine ⟨fds, t', s.opens xs fds rest, ?_, rfl, _, ht⟩
    simp only [fds, List.length_range', if_true, ha, Option.map_some]
  | assign x y => exact ⟨[], t, s.assigns x y rest, rfl, rfl, N, hb⟩
  | close x =>
    have howned := (h.closable htodo).1
    obtain ⟨t', hc⟩ := close_ne_none (show t (s.vars x) ≠ none by simp [howned])
    refine ⟨[], t', s.closes x rest, ?_, rfl, N, hb.close hc⟩
    simp only [hc, Option.map_some]

theorem Inv.done (h : Inv left t u s) (htodo : s.todo = []) (fd : ℕ) :
    t fd = some u ↔ s.before fd = some u ∨ fd ∈ left.map s.vars := by
  have hsound := h.sound
  rw [htodo, Sound] at hsound
  rw [h.tracks.owned fd, hsound.mem_iff, List.mem_append]
  have hnodup := List.nodup_append.mp (hsound.nodup h.tracks.distinct)
  have hapart : fd ∈ left.map s.vars → fd ∉ s.closed := by
    intro hl hc
    exact hnodup.2.2 fd hc fd hl rfl
  tauto

theorem Inv.perm (h : Inv left t u s) (htodo : s.todo = []) :
    s.opened.Perm (s.closed ++ left.map s.vars) := by
  have hsound := h.sound
  rw [htodo] at hsound
  exact hsound

end LibMicro.DescriptorProgram
