import LibMicro.DescriptorTable
import Mathlib.Data.Set.Card.Arithmetic

namespace LibMicro.DescriptorTable

variable {α : Type} {t t' : Table α} {a b : α} {fd i limit n : ℕ} {fds : List ℕ}

/-- The descriptors that `a` has open. -/
def Table.of (t : Table α) (a : α) : Set ℕ := {i | t i = some a}

def Table.used (t : Table α) : Set ℕ := {i | t i ≠ none}

theorem mem_of : i ∈ t.of a ↔ t i = some a := Iff.rfl

theorem mem_used : i ∈ t.used ↔ t i ≠ none := Iff.rfl

def Table.put (t : Table α) (fd : ℕ) (a : α) : Table α := Function.update t fd (some a)

theorem put_apply (t : Table α) (fd : ℕ) (a : α) (i : ℕ) :
    t.put fd a i = if i = fd then some a else t i := Function.update_apply ..

/-- The kernel gives out the least number that is free. -/
def Table.lowest (t : Table α) (limit : ℕ) : Option ℕ :=
  (List.range limit).find? fun i ↦ (t i).isNone

/-- All of them, or none. -/
def Table.opens (limit : ℕ) (a : α) : ℕ → Table α → Option (Table α × List ℕ)
  | 0, t => some (t, [])
  | n + 1, t =>
    match t.lowest limit with
    | none => none
    | some fd =>
      (Table.opens limit a n (t.put fd a)).map fun (t, fds) ↦ (t, fd :: fds)

theorem lowest_some (h : t.lowest limit = some fd) : fd < limit ∧ t fd = none := by
  refine ⟨List.mem_range.mp (List.mem_of_find?_eq_some h), ?_⟩
  exact Option.isNone_iff_eq_none.mp (List.find?_some (p := fun i ↦ (t i).isNone) h)

theorem lowest_none (h : t.lowest limit = none) : (limit : ℕ∞) ≤ t.used.encard := by
  have hsub : (Finset.range limit : Set ℕ) ⊆ t.used := by
    intro i hi
    have hfull := List.find?_eq_none.mp h i (List.mem_range.mpr (Finset.mem_range.mp hi))
    exact fun hnone ↦ hfull (by rw [hnone]; rfl)
  have hle := Set.encard_le_encard hsub
  rwa [Set.encard_coe_eq_coe_finsetCard, Finset.card_range] at hle

section Update

theorem of_put (t : Table α) (fd : ℕ) (a : α) : (t.put fd a).of a = insert fd (t.of a) := by
  ext i
  rw [mem_of, put_apply, Set.mem_insert_iff, mem_of]
  split_ifs with h <;> simp [h]

theorem of_put_other (hb : b ≠ a) (h : t fd = none) : (t.put fd a).of b = t.of b := by
  ext i
  rw [mem_of, put_apply, mem_of]
  split_ifs with hi
  · simp [hi, h, hb.symm]
  · rfl

theorem used_put (t : Table α) (fd : ℕ) (a : α) : (t.put fd a).used = insert fd t.used := by
  ext i
  rw [mem_used, put_apply, Set.mem_insert_iff, mem_used]
  split_ifs with h <;> simp [h]

theorem encard_of_put (h : t fd = none) : ((t.put fd a).of a).encard = (t.of a).encard + 1 := by
  rw [of_put]
  exact Set.encard_insert_of_notMem fun hmem ↦ by simp [mem_of, h] at hmem

theorem encard_used_put (h : t fd = none) : (t.put fd a).used.encard = t.used.encard + 1 := by
  rw [used_put]
  exact Set.encard_insert_of_notMem fun hmem ↦ hmem h

theorem encard_of_close (hc : t.close fd = some t') (h : t fd = some a) :
    (t'.of a).encard + 1 = (t.of a).encard := by
  have hof : t'.of a = t.of a \ {fd} := by
    ext i
    rw [Set.mem_sdiff, Set.mem_singleton_iff, and_comm]
    exact close_owner hc i
  rw [hof]
  exact Set.encard_sdiff_singleton_add_one h

theorem of_close_other (hc : t.close fd = some t') (h : t fd = some a) (hb : b ≠ a) :
    t'.of b = t.of b :=
  Set.ext fun i ↦ close_other hc h hb i

end Update

/-- What `a` opens is in nobody's way. -/
theorem opens_some (h : Table.opens limit a n t = some (t', fds)) :
    fds.length = n ∧ (∀ fd ∈ fds, fd < limit ∧ t fd = none ∧ t' fd = some a) ∧
      (∀ i ∉ fds, t' i = t i) ∧ (t'.of a).encard = (t.of a).encard + n ∧
      ∀ b ≠ a, t'.of b = t.of b := by
  induction n generalizing t fds with
  | zero =>
    cases h
    simp
  | succ n ih =>
    rw [Table.opens] at h
    cases hlow : t.lowest limit with
    | none =>
      rw [hlow] at h
      cases h
    | some fd =>
      rw [hlow] at h
      obtain ⟨⟨t₁, fds₁⟩, hrest, he⟩ := Option.map_eq_some_iff.mp h
      cases he
      obtain ⟨hlt, hfree⟩ := lowest_some hlow
      obtain ⟨hlen, hnew, hold, hcount, hother⟩ := ih hrest
      have hfd : fd ∉ fds₁ := fun hmem ↦ by
        have := (hnew fd hmem).2.1
        rw [put_apply, if_pos rfl] at this
        cases this
      refine ⟨congrArg (· + 1) hlen, fun i hi ↦ ?_, fun i hi ↦ ?_, ?_, fun b hb ↦ ?_⟩
      · rcases List.mem_cons.mp hi with rfl | hi
        · refine ⟨hlt, hfree, ?_⟩
          rw [hold i hfd, put_apply, if_pos rfl]
        · obtain ⟨hi₁, hi₂, hi₃⟩ := hnew i hi
          have hne : i ≠ fd := fun he ↦ hfd (he ▸ hi)
          rw [put_apply, if_neg hne] at hi₂
          exact ⟨hi₁, hi₂, hi₃⟩
      · rw [List.mem_cons, not_or] at hi
        rw [hold i hi.2, put_apply, if_neg hi.1]
      · rw [hcount, encard_of_put hfree, Nat.cast_succ, add_assoc, add_comm 1]
      · rw [hother b hb, of_put_other hb hfree]

theorem opens_none (h : Table.opens limit a n t = none) :
    (limit : ℕ∞) < t.used.encard + n := by
  induction n generalizing t with
  | zero => cases h
  | succ n ih =>
    rw [Table.opens] at h
    cases hlow : t.lowest limit with
    | none =>
      have hlt : (limit : ℕ∞) < limit + (n + 1 : ℕ) := by
        rw [← Nat.cast_add, Nat.cast_lt]
        omega
      exact hlt.trans_le (add_le_add_left (lowest_none hlow) _)
    | some fd =>
      rw [hlow] at h
      have hlt := ih (Option.map_eq_none_iff.mp h)
      rwa [encard_used_put (lowest_some hlow).2, add_assoc, add_comm 1, ← Nat.cast_succ] at hlt

/-- Each number in use is somebody's. -/
theorem encard_used [Fintype α] (t : Table α) : t.used.encard = ∑ a, (t.of a).encard := by
  have hused : t.used = ⋃ a, t.of a := by
    ext i
    rw [mem_used, Set.mem_iUnion]
    exact Option.ne_none_iff_exists'
  have hdisjoint : Pairwise (Function.onFun Disjoint t.of) := by
    intro a b hab
    refine Set.disjoint_left.mpr fun i ha hb ↦ hab ?_
    exact Option.some.inj (ha.symm.trans hb)
  rw [hused, Set.encard_iUnion_of_finite hdisjoint, finsum_eq_sum_of_fintype]

end LibMicro.DescriptorTable
