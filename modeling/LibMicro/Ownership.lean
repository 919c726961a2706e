import Mathlib.Logic.Function.Basic
import Mathlib.Tactic.Common

namespace LibMicro.Ownership

variable {ι α : Type}

/-- The holder of a mutex is the one participant inside its critical section. -/
def Owns (lock : Option ι) (inside : ι → Prop) : Prop := ∀ u, lock = some u ↔ inside u

section

variable {lock : Option ι} {inside inside' : ι → Prop} {u v : ι}

theorem Owns.unique (h : Owns lock inside) (hu : inside u) (hv : inside v) : u = v :=
  Option.some.inj (((h u).mpr hu).symm.trans ((h v).mpr hv))

theorem owns_none (h : ∀ u, ¬ inside u) : Owns none inside :=
  fun u ↦ by simp [h u]

theorem Owns.congr (h : Owns lock inside) (hi : ∀ v, inside' v ↔ inside v) : Owns lock inside' :=
  fun v ↦ (h v).trans (hi v).symm

theorem Owns.enter (h : Owns none inside) (ho : ∀ v, v ≠ u → (inside' v ↔ inside v))
    (hu : inside' u) : Owns (some u) inside' := by
  intro v
  by_cases hv : v = u
  · simp [hv, hu]
  · have hn := h v
    simp only [reduceCtorEq, false_iff] at hn
    simp [ho v hv, hn, Ne.symm hv]

theorem Owns.leave (h : Owns lock inside) (ho : ∀ v, v ≠ u → (inside' v ↔ inside v))
    (hu : inside u) (hn : ¬ inside' u) : Owns none inside' := by
  refine owns_none fun v hv ↦ ?_
  by_cases hvu : v = u
  · exact hn (hvu ▸ hv)
  · exact hvu (h.unique ((ho v hvu).mp hv) hu)

end

variable [DecidableEq ι] {C : α → Prop} {f : ι → α} {lock : Option ι} {u : ι} {x : α}

theorem Owns.keep (h : Owns lock (fun v ↦ C (f v))) (hc : C x ↔ C (f u)) :
    Owns lock (fun v ↦ C (Function.update f u x v)) := by
  refine h.congr fun v ↦ ?_
  by_cases hv : v = u
  · subst hv; simp [hc]
  · simp [Function.update_of_ne hv]

theorem Owns.acquire (h : Owns none (fun v ↦ C (f v))) (hc : C x) :
    Owns (some u) (fun v ↦ C (Function.update f u x v)) :=
  h.enter (fun v hv ↦ by simp [Function.update_of_ne hv]) (by simp [hc])

theorem Owns.release (h : Owns lock (fun v ↦ C (f v))) (hu : C (f u)) (hc : ¬ C x) :
    Owns none (fun v ↦ C (Function.update f u x v)) :=
  h.leave (fun v hv ↦ by simp [Function.update_of_ne hv]) hu (by simp [hc])

end LibMicro.Ownership
