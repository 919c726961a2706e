import Mathlib.Logic.Equiv.Fin.Rotate
import Mathlib.Logic.Equiv.Prod
import LibMicro.Blocks

namespace LibMicro.CrossedRing

open Blocks

variable {N : ℕ} {β : Type*} {σ : Equiv.Perm β} {u v : Fin N} {x : Fin N × β}

theorem finRotate_val (u : Fin N) : (finRotate N u).val = (u.val + 1) % N := by
  have := u.neZero
  rw [finRotate_apply, Fin.val_add, Fin.val_one', Nat.add_mod_mod]

theorem finRotate_ne (h : N ≠ 1) (u : Fin N) : finRotate N u ≠ u := by
  intro he
  have hv := finRotate_val u
  rw [he] at hv
  have hlt := u.isLt
  rcases Nat.lt_or_ge (u.val + 1) N with hu | hu
  · rw [Nat.mod_eq_of_lt hu] at hv
    omega
  · rw [show u.val + 1 = N by omega, Nat.mod_self] at hv
    omega

/-- The ports of each node are connected straight to those of the next one, and
the ports of the last node across to those of the first. -/
def link (N : ℕ) (σ : Equiv.Perm β) : Equiv.Perm (Fin N × β) :=
  Equiv.prodShear (finRotate N) fun u ↦ if u.val + 1 < N then Equiv.refl β else σ

theorem link_fst_val (x : Fin N × β) : (link N σ x).1.val = (x.1.val + 1) % N := finRotate_val x.1

theorem link_snd (x : Fin N × β) :
    (link N σ x).2 = if x.1.val + 1 < N then x.2 else σ x.2 := by
  change (if x.1.val + 1 < N then Equiv.refl β else σ) x.2 = _
  split_ifs <;> rfl

theorem link_straight (h : v.val = u.val + 1) (b : β) : link N σ (u, b) = (v, b) := by
  have hlt : u.val + 1 < N := h ▸ v.isLt
  refine Prod.ext (Fin.ext ?_) ?_
  · rw [link_fst_val, Nat.mod_eq_of_lt hlt, h]
  · rw [link_snd, if_pos hlt]

theorem link_across (hu : u.val + 1 = N) (hv : v.val = 0) (b : β) :
    link N σ (u, b) = (v, σ b) := by
  refine Prod.ext (Fin.ext ?_) ?_
  · rw [link_fst_val, hu, Nat.mod_self, hv]
  · rw [link_snd, if_neg hu.not_lt]

/-! The ports of a node in a table, where a row is kept for each node. -/

variable {width : ℕ} {offset : β → ℕ}

def place (width : ℕ) (offset : β → ℕ) (x : Fin N × β) : ℕ := rowMajor width x.1 (offset x.2)

theorem place_lt (hw : ∀ b, offset b < width) (x : Fin N × β) : place width offset x < N * width :=
  rowMajor_lt x.1.isLt (hw x.2)

theorem place_injective (hw : ∀ b, offset b < width) (ho : offset.Injective) :
    (place width offset : Fin N × β → ℕ).Injective := by
  intro x y h
  obtain ⟨h₁, h₂⟩ := rowMajor_inj (hw x.2) (hw y.2) h
  exact Prod.ext (Fin.ext h₁) (ho h₂)

section Owner

variable {γ : Type*} {f : Fin N × β → γ} (hf : f.Injective)

include hf

theorem own_iff : (∃ b, f (u, b) = f x) ↔ u = x.1 := by
  constructor
  · rintro ⟨b, h⟩
    exact congrArg Prod.fst (hf h)
  · rintro rfl
    exact ⟨x.2, rfl⟩

theorem linked_iff :
    (∃ b, f (link N σ (u, b)) = f x) ↔ u = ((link N σ).symm x).1 := by
  rw [← own_iff (hf.comp (link N σ).injective) (x := (link N σ).symm x)]
  simp only [Function.comp_apply, Equiv.apply_symm_apply]

end Owner

end LibMicro.CrossedRing
