import LibMicro.Siglongjmp.Model

namespace LibMicro.Siglongjmp

open Harness.Tsd Rounds TransitionSystem

variable {g : Globals} {s : State (WorkerId g) (Env g) Pc} {u v : WorkerId g}

theorem toInt_ofNat {x : BitVec 32} {n : ℕ} (hx : 0 ≤ x.toInt) (hn : n < x.toNat) :
    0 ≤ (BitVec.ofNat 32 n).toInt ∧ (BitVec.ofNat 32 n).toInt < x.toInt := by
  obtain ⟨hint, hlt⟩ := Globals.toInt_eq_toNat hx
  have hnat : (BitVec.ofNat 32 n).toNat = n := by
    rw [BitVec.toNat_ofNat]
    exact Nat.mod_eq_of_lt (by omega)
  have hint' : (BitVec.ofNat 32 n).toInt = n := by
    rw [BitVec.toInt_eq_toNat_of_lt (by omega), hnat]
  omega

theorem valid (hP : 1 ≤ g.lmOptP.toInt) (hT : 1 ≤ g.lmOptT.toInt) (u : WorkerId g) :
    g.Valid (BitVec.ofNat 32 u.1) (BitVec.ofNat 32 u.2) :=
  ⟨toInt_ofNat (by omega) u.1.isLt, toInt_ofNat (by omega) u.2.isLt⟩

theorem ts_eq (hP : 1 ≤ g.lmOptP.toInt) (hT : 1 ≤ g.lmOptT.toInt) (hsize : g.lmTsdsize = 0)
    (u : WorkerId g) : ts g u = g.tsdseg := by
  have htsd : g.tsdsize = 0 := by
    rw [Globals.tsdsize, hsize]
    rfl
  obtain ⟨⟨hp, hp'⟩, ht, ht'⟩ := valid hP hT u
  rw [ts, Globals.gettsd, if_neg (by omega), htsd]
  simp

section Alone

def Own (g : Globals) (u : WorkerId g) (env : Env g) (w : Worker Pc) : Prop :=
  match w.place with
  | none | some (.sigsetjmp _) => True
  | some (.test _) | some (.siglongjmp _) => env (ts g u) = some (u, w.calls)

theorem Own.step {env env' : Env g} {w : Worker Pc} {k : Pc} {k' : Option Pc}
    (h : Own g u env w) (hplace : w.place = some k)
    (hs : benchmarkStep g u w.calls env k = some (env', k')) : Own g u env' (w.move k') := by
  rw [Own, hplace] at h
  cases k with
  | sigsetjmp i =>
    cases hs
    exact Function.update_self _ _ _
  | test i =>
    by_cases hi : i < 1
    · simp only [benchmarkStep, if_pos hi] at hs
      cases hs
      exact h
    · simp only [benchmarkStep, if_neg hi] at hs
      cases hs
      trivial
  | siglongjmp i =>
    simp only [benchmarkStep, if_pos h] at hs
    cases hs
    exact h

theorem own_of_subsingleton [Subsingleton (WorkerId g)] (h : (system g).Reachable s)
    (u : WorkerId g) : Own g u s.shared (s.worker u) :=
  invariant_of_subsingleton u h (fun _ _ ↦ trivial) (fun _ _ _ _ ↦ trivial)
    (fun _ _ _ _ _ hown hplace hs ↦ hown.step hplace hs)

theorem ownContext_of_subsingleton [Subsingleton (WorkerId g)] : OwnContext g := by
  intro s hs u i hplace
  have hown := own_of_subsingleton hs u
  rw [Own, hplace] at hown
  exact hown

end Alone

/-- Between the first two statements of `u`, `v` stores its context in the same place. -/
theorem not_ownContext (huv : u ≠ v) (hts : ts g v = ts g u) : ¬ OwnContext g := by
  intro hown
  have h₀ : (system g).Reachable (start fun _ ↦ none) := reachable_start rfl
  have h₁ := reachable_call h₀ (u := u) rfl (fun _ ↦ le_rfl) rfl
  have h₂ := reachable_call h₁ (u := v)
    (by rw [move_worker_of_ne _ huv.symm]; rfl) (by simp [start]) rfl
  have h₃ := reachable_move h₂ (u := u)
    (by rw [move_worker_of_ne _ huv, move_place]) rfl
  have henv := hown _ h₃ u 1 (move_place _)
  rw [← hts] at henv
  have hlast := (Function.update_self _ _ _).symm.trans henv
  exact huv (congrArg Prod.fst (Option.some.inj hlast)).symm

theorem subsingleton_iff (hP : 1 ≤ g.lmOptP.toInt) (hT : 1 ≤ g.lmOptT.toInt) :
    Subsingleton (WorkerId g) ↔ g.lmOptP = 1 ∧ g.lmOptT = 1 := by
  have hp := (Globals.toInt_eq_toNat (x := g.lmOptP) (by omega)).1
  have ht := (Globals.toInt_eq_toNat (x := g.lmOptT) (by omega)).1
  have hone (x : BitVec 32) : x = 1 ↔ x.toNat = 1 := BitVec.toNat_inj.symm
  rw [← Fintype.card_le_one_iff_subsingleton, Fintype.card_prod, Fintype.card_fin, Fintype.card_fin,
    hone, hone]
  constructor
  · intro h
    have hle₁ := (Nat.le_mul_of_pos_right _ (by omega)).trans h
    have hle₂ := (Nat.le_mul_of_pos_left _ (by omega)).trans h
    omega
  · rintro ⟨h₁, h₂⟩
    rw [h₁, h₂]

/-- Only a worker that is alone jumps always to its own context. -/
theorem ownContext_iff (sizeofTsdT : BitVec 64) (g : Globals) (hP : 1 ≤ g.lmOptP.toInt)
    (hT : 1 ≤ g.lmOptT.toInt) :
    OwnContext (benchmarkInit sizeofTsdT g) ↔ g.lmOptP = 1 ∧ g.lmOptT = 1 := by
  have hsub : Subsingleton (WorkerId (benchmarkInit sizeofTsdT g)) ↔
      g.lmOptP = 1 ∧ g.lmOptT = 1 := subsingleton_iff hP hT
  rw [← hsub]
  constructor
  · intro hown
    by_contra hne
    obtain ⟨u, v, huv⟩ := (not_subsingleton_iff_nontrivial.mp hne).exists_pair_ne
    have hts := ts_eq (g := benchmarkInit sizeofTsdT g) hP hT rfl
    exact not_ownContext huv ((hts v).trans (hts u).symm) hown
  · intro _
    exact ownContext_of_subsingleton

theorem ownContext_iff_single : OwnContext (benchmarkInit 200 ⟨1, 1, 0, 8192⟩) ↔
    (1 : BitVec 32) = 1 ∧ (1 : BitVec 32) = 1 :=
  ownContext_iff 200 ⟨1, 1, 0, 8192⟩ (by decide) (by decide)

def twoThreads : Globals := benchmarkInit 200 ⟨1, 2, 0, 8192⟩

theorem siglongjmp_foreign : ¬ OwnContext twoThreads := by
  let u : WorkerId twoThreads := (⟨0, by decide⟩, ⟨0, by decide⟩)
  let v : WorkerId twoThreads := (⟨0, by decide⟩, ⟨1, by decide⟩)
  have huv : u ≠ v := by decide
  have hts : ts twoThreads v = ts twoThreads u := by decide
  exact not_ownContext huv hts

end LibMicro.Siglongjmp
