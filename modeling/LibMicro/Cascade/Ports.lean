import Mathlib.Logic.Equiv.Bool
import LibMicro.CrossedRing
import LibMicro.Cascade.Model

namespace LibMicro.Cascade

open CrossedRing

variable {N : ℕ} {u v : Fin N}

/-- All but the last worker are connected straight through to the next one. -/
theorem assignLocksAt_them (width gap : ℕ) {nthreads us : ℕ} (hus : us < nthreads) :
    (us + 1 < nthreads ∧
      (assignLocksAt width gap nthreads us ⟨0, 0, 0, 0, 0, 0⟩).index .them0 = (us + 1) * width ∧
      (assignLocksAt width gap nthreads us ⟨0, 0, 0, 0, 0, 0⟩).index .them1 =
        (us + 1) * width + gap) ∨
    (us + 1 = nthreads ∧
      (assignLocksAt width gap nthreads us ⟨0, 0, 0, 0, 0, 0⟩).index .them0 = gap ∧
      (assignLocksAt width gap nthreads us ⟨0, 0, 0, 0, 0, 0⟩).index .them1 = 0) := by
  simp only [assignLocksAt, TsdT.index, if_true]
  by_cases h : us + 1 < nthreads
  · left
    rw [if_pos (by omega), if_pos (by omega), Nat.mod_eq_of_lt h]
    exact ⟨h, rfl, rfl⟩
  · right
    rw [if_neg (by omega), if_neg (by omega), show us + 1 = nthreads by omega, Nat.mod_self]
    simp

/-- The locks as the ports of a ring, in which `true` stands for the second lock. -/
def port (u : Fin N) : LockName → Fin N × Bool
  | .us0 => (u, false)
  | .us1 => (u, true)
  | .them0 => link N Equiv.boolNot (u, false)
  | .them1 => link N Equiv.boolNot (u, true)

theorem port_them0_injective (h : port u .them0 = port v .them0) : u = v :=
  congrArg Prod.fst ((link N Equiv.boolNot).injective h)

theorem port_injective (h : N ≠ 1) (u : Fin N) : (port u).Injective := by
  have hown (b c : Bool) : link N Equiv.boolNot (u, b) ≠ (u, c) := fun he ↦
    finRotate_ne h u (congrArg Prod.fst he)
  intro n m he
  cases n <;> cases m <;> first
    | rfl
    | exact absurd he (hown _ _)
    | exact absurd he.symm (hown _ _)
    | exact absurd he (by simp [port])

/-- The only worker of a ring is connected to itself. -/
theorem port_one (u : Fin 1) : port u .us0 = port u .them1 := by
  have h := link_across (σ := Equiv.boolNot) (u := u) (v := u) (by omega) (by omega) true
  exact h.symm

theorem port_injective_iff (u : Fin N) : (port u).Injective ↔ N ≠ 1 := by
  constructor
  · rintro h rfl
    cases h (port_one u)
  · exact fun h ↦ port_injective h u

structure Layout where
  width : ℕ
  gap : ℕ
  gap_pos : 0 < gap
  gap_lt : gap < width

namespace Layout

def pairs : Layout := ⟨2, 1, by decide, by decide⟩

def spaced : Layout := ⟨4, 2, by decide, by decide⟩

def offset (l : Layout) (b : Bool) : ℕ := if b then l.gap else 0

def place (l : Layout) (x : Fin N × Bool) : ℕ := CrossedRing.place l.width l.offset x

theorem offset_lt (l : Layout) (b : Bool) : l.offset b < l.width := by
  have := l.gap_lt
  unfold offset
  split_ifs <;> omega

theorem offset_injective (l : Layout) : l.offset.Injective := by
  have := l.gap_pos
  intro b c h
  cases b <;> cases c <;> simp [offset] at h ⊢ <;> omega

theorem place_lt (l : Layout) (x : Fin N × Bool) : l.place x < N * l.width :=
  CrossedRing.place_lt l.offset_lt x

theorem place_injective (l : Layout) : (l.place : Fin N × Bool → ℕ).Injective :=
  CrossedRing.place_injective l.offset_lt l.offset_injective

theorem place_false (l : Layout) (u : Fin N) : l.place (u, false) = u * l.width := rfl

theorem place_true (l : Layout) (u : Fin N) : l.place (u, true) = u * l.width + l.gap := rfl

theorem assignLocksAt_index (l : Layout) (u : Fin N) (n : LockName) :
    (assignLocksAt l.width l.gap N u ⟨0, 0, 0, 0, 0, 0⟩).index n = l.place (port u n) := by
  have hthem := assignLocksAt_them l.width l.gap u.isLt
  cases n with
  | us0 | us1 => rfl
  | them0 =>
    rw [port]
    rcases hthem with ⟨hu, h₀, -⟩ | ⟨hu, h₀, -⟩
    · rw [h₀, link_straight (v := ⟨u + 1, hu⟩) rfl, place_false]
    · rw [h₀, link_across (v := ⟨0, by omega⟩) hu rfl, Equiv.boolNot_apply, Bool.not_false,
        place_true, Nat.zero_mul, Nat.zero_add]
  | them1 =>
    rw [port]
    rcases hthem with ⟨hu, -, h₁⟩ | ⟨hu, -, h₁⟩
    · rw [h₁, link_straight (v := ⟨u + 1, hu⟩) rfl, place_true]
    · rw [h₁, link_across (v := ⟨0, by omega⟩) hu rfl, Equiv.boolNot_apply, Bool.not_true,
        place_false, Nat.zero_mul]

end Layout

end LibMicro.Cascade
