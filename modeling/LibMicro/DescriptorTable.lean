import Mathlib.Data.List.Nodup
import Mathlib.Logic.Function.Basic
import Mathlib.Tactic.Common

namespace LibMicro.DescriptorTable

/-- For each number that is in use, who has opened it. -/
abbrev Table (α : Type) := ℕ → Option α

variable {α : Type} {t t' : Table α} {u v : α} {fds : List ℕ} {fd i N : ℕ}

/-- The kernel may give out any numbers that are free. -/
def Table.allot (t : Table α) (u : α) (fds : List ℕ) : Option (Table α) :=
  if fds.Nodup ∧ ∀ fd ∈ fds, t fd = none then
    some fun i ↦ if i ∈ fds then some u else t i
  else none

def Table.close (t : Table α) (fd : ℕ) : Option (Table α) :=
  if t fd = none then none else some (Function.update t fd none)

theorem allot_fresh (h : t.allot u fds = some t') : fds.Nodup ∧ ∀ fd ∈ fds, t fd = none := by
  by_contra hn
  rw [Table.allot, if_neg hn] at h
  cases h

theorem allot_new (h : t.allot u fds = some t') {i : ℕ} (hi : i ∈ fds) : t i ≠ some v := by
  rw [(allot_fresh h).2 i hi]
  exact nofun

theorem allot_nodup (h : t.allot u fds = some t') {live : List ℕ} (hl : live.Nodup)
    (ho : ∀ i ∈ live, i ∈ fds → t i = some v) : (live ++ fds).Nodup := by
  apply List.nodup_append.mpr
  refine ⟨hl, (allot_fresh h).1, ?_⟩
  rintro i hi _ hi' rfl
  exact allot_new h hi' (ho i hi hi')

theorem allot_apply (h : t.allot u fds = some t') (i : ℕ) :
    t' i = if i ∈ fds then some u else t i := by
  rw [Table.allot, if_pos (allot_fresh h)] at h
  cases h
  rfl

theorem allot_owner (h : t.allot u fds = some t') (i : ℕ) :
    t' i = some u ↔ i ∈ fds ∨ t i = some u := by
  rw [allot_apply h]
  by_cases hi : i ∈ fds
  · simp [hi]
  · simp [hi]

theorem allot_other (h : t.allot u fds = some t') (hv : v ≠ u) (i : ℕ) :
    t' i = some v ↔ t i = some v := by
  rw [allot_apply h]
  by_cases hi : i ∈ fds
  · have hfree := (allot_fresh h).2 i hi
    simp [hi, hfree, hv.symm]
  · simp [hi]

theorem close_apply (h : t.close fd = some t') (i : ℕ) : t' i = if i = fd then none else t i := by
  unfold Table.close at h
  split at h
  · cases h
  · cases h
    rw [Function.update_apply]

theorem close_owner (h : t.close fd = some t') (i : ℕ) :
    t' i = some v ↔ i ≠ fd ∧ t i = some v := by
  rw [close_apply h]
  by_cases hi : i = fd
  · simp [hi]
  · simp [hi]

theorem close_other (h : t.close fd = some t') (hfd : t fd = some u) (hv : v ≠ u) (i : ℕ) :
    t' i = some v ↔ t i = some v := by
  rw [close_owner h]
  constructor
  · intro hi
    exact hi.2
  · intro hi
    refine ⟨?_, hi⟩
    rintro rfl
    exact hv (Option.some.inj (hi.symm.trans hfd))

theorem close_ne_none (h : t fd ≠ none) : ∃ t', t.close fd = some t' :=
  ⟨_, if_neg h⟩

def Table.Below (t : Table α) (N : ℕ) : Prop := ∀ i, N ≤ i → t i = none

theorem Table.Below.allot (h : t.Below N) (u : α) (n : ℕ) :
    ∃ t', t.allot u (List.range' N n) = some t' ∧ t'.Below (N + n) := by
  have hfree : ∀ fd ∈ List.range' N n, t fd = none := by
    intro fd hfd
    exact h fd (List.mem_range'_1.mp hfd).1
  refine ⟨_, if_pos ⟨List.nodup_range', hfree⟩, fun i hi ↦ ?_⟩
  have hout : i ∉ List.range' N n := by
    rw [List.mem_range'_1]
    omega
  rw [if_neg hout]
  exact h i (by omega)

theorem Table.Below.close (h : t.Below N) (hc : t.close fd = some t') : t'.Below N := by
  intro i hi
  rw [close_apply hc, h i hi]
  exact ite_self none

end LibMicro.DescriptorTable
