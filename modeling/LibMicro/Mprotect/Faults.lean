import LibMicro.Mprotect.Model
import LibMicro.Pages.Touched

namespace LibMicro.Mprotect

open Pages Rounds TransitionSystem

variable {T : ℕ} {opt : Options} {s : State (Fin T) (Shared T) Pc} {u v : Fin T} {x x' : Shared T}
  {pc : Pc} {pc' : Option Pc} {n : ℕ}

theorem srem_two (x : BitVec 32) : x.srem 2 = 0 ↔ x.toNat % 2 = 0 := by
  have hint : (2 : BitVec 32).toInt = 2 := rfl
  have hzero : (0 : BitVec 32).toInt = 0 := rfl
  rw [← BitVec.toInt_inj, BitVec.toInt_srem, hint, hzero, ← Int.dvd_iff_tmod_eq_zero,
    BitVec.toInt_eq_toNat_cond]
  split <;> omega

/-- Whether the sum is even does not depend on its overflow. -/
theorem us_add (u : Fin T) (n : ℕ) :
    (us u + BitVec.ofNat 32 n).srem 2 = 0 ↔ (u + n) % 2 = 0 := by
  have hsum : us u + BitVec.ofNat 32 n = BitVec.ofNat 32 (u + n) := by
    simp [us, BitVec.ofNat_add]
  rw [hsum, srem_two, BitVec.toNat_ofNat]
  omega

theorem ran_self (hrun : x.tsRun u = BitVec.ofNat 32 n) :
    (x.ran u).tsRun u = BitVec.ofNat 32 (n + 1) := by
  have hself : (x.ran u).tsRun u = x.tsRun u + 1 := Function.update_self _ _ _
  rw [hself, hrun]
  exact (BitVec.ofNat_add n 1).symm

section Steps

variable {j : ℕ}

theorem switch_even (hrun : x.tsRun u = BitVec.ofNat 32 n) (h : (u + n) % 2 = 0) :
    benchmarkStep opt u x .switch =
      some (x, some (if opt.optt then .touch 0 else .mprotect .none)) := by
  have heven := (us_add u n).mpr h
  rw [← hrun] at heven
  exact if_pos heven

theorem switch_odd (hrun : x.tsRun u = BitVec.ofNat 32 n) (h : (u + n) % 2 ≠ 0) :
    benchmarkStep opt u x .switch = some (x, some (.mprotect .readWrite)) := by
  have hodd := mt (us_add u n).mp h
  rw [← hrun] at hodd
  exact if_neg hodd

theorem touch_page (hlt : j < opt.optl) (hprot : x.prot ≠ .none) :
    benchmarkStep opt u x (.touch j) = some (x, some
      (if j + opt.pagesize < 2 ^ 31 then .touch (j + opt.pagesize) else .overflow)) :=
  (if_pos hlt).trans (if_neg hprot)

theorem touch_end (hlt : ¬ j < opt.optl) :
    benchmarkStep opt u x (.touch j) = some (x, some (.mprotect .none)) := if_neg hlt

end Steps

/-- No multiple of a page within the length is followed by an overflow. -/
def Fits (opt : Options) : Prop := pages opt.optl opt.pagesize * opt.pagesize < 2 ^ 31

section Alone

/-- The only thread finds the mapping as its last call has left it. -/
def Alternates (opt : Options) (x : Shared 1) (w : Worker Pc) : Prop :=
  match w.place with
  | none | some .switch => x.prot = .none ↔ w.calls % 2 = 1
  | some (.touch j) => x.prot ≠ .none ∧ w.calls % 2 = 0 ∧ opt.pagesize ∣ j
  | some .overflow => False
  | some (.mprotect prot) => prot = .none ↔ w.calls % 2 = 0
  | some .tsRun => x.prot = .none ↔ w.calls % 2 = 0

structure Inv (opt : Options) (x : Shared 1) (w : Worker Pc) : Prop where
  run : x.tsRun 0 = BitVec.ofNat 32 w.calls
  alternates : Alternates opt x w

variable {x x' : Shared 1} {w : Worker Pc}

theorem touch_next (hp : 0 < opt.pagesize) (hfits : Fits opt) {j : ℕ} (hj : opt.pagesize ∣ j)
    (hlt : j < opt.optl) : j + opt.pagesize < 2 ^ 31 := by
  obtain ⟨k, rfl⟩ := hj
  rw [Nat.mul_comm] at hlt ⊢
  have hk := (lt_pages_iff hp).mpr hlt
  have hle := Nat.mul_le_mul_right opt.pagesize (Nat.succ_le_of_lt hk)
  rw [Nat.succ_mul] at hle
  exact hle.trans_lt hfits

theorem Inv.step (hp : 0 < opt.pagesize) (hfits : Fits opt) (h : Inv opt x w)
    (hplace : w.place = some pc) (hs : benchmarkStep opt 0 x pc = some (x', pc')) :
    Inv opt x' (w.move pc') := by
  obtain ⟨hrun, halt⟩ := h
  rw [Alternates, hplace] at halt
  cases pc with
  | switch =>
    have hzero : ((0 : Fin 1) : ℕ) + w.calls = w.calls := Nat.zero_add _
    by_cases hcalls : w.calls % 2 = 0
    · rw [switch_even hrun (hzero.symm ▸ hcalls)] at hs
      cases hs
      refine ⟨hrun, ?_⟩
      cases opt.optt with
      | true => exact ⟨fun hprot ↦ by have := halt.mp hprot; omega, hcalls, Nat.dvd_zero _⟩
      | false => exact iff_of_true rfl hcalls
    · rw [switch_odd hrun (hzero.symm ▸ hcalls)] at hs
      cases hs
      exact ⟨hrun, iff_of_false nofun hcalls⟩
  | touch j =>
    obtain ⟨hprot, hcalls, hj⟩ := halt
    by_cases hlt : j < opt.optl
    · rw [touch_page hlt hprot, if_pos (touch_next hp hfits hj hlt)] at hs
      cases hs
      exact ⟨hrun, hprot, hcalls, Nat.dvd_add hj (Nat.dvd_refl _)⟩
    · rw [touch_end hlt] at hs
      cases hs
      exact ⟨hrun, iff_of_true rfl hcalls⟩
  | overflow => cases hs
  | mprotect prot =>
    cases hs
    exact ⟨hrun, halt⟩
  | tsRun =>
    cases hs
    constructor
    case run =>
      exact ran_self hrun
    case alternates =>
      have hcalls : (w.calls + 1) % 2 = 1 ↔ w.calls % 2 = 0 := by omega
      exact halt.trans hcalls.symm

theorem inv_of_reachable (hp : 0 < opt.pagesize) (hfits : Fits opt)
    {s : State (Fin 1) (Shared 1) Pc} (h : (system opt 1).Reachable s) :
    Inv opt s.shared (s.worker 0) := by
  apply invariant_of_subsingleton 0 h
  case hinit =>
    rintro _ rfl
    exact ⟨rfl, iff_of_false nofun nofun⟩
  case henter =>
    intro x w h hplace
    have halt := h.alternates
    rw [Alternates, hplace] at halt
    exact ⟨h.run, halt⟩
  case hmove =>
    intro x w pc x' pc' h hplace hs
    exact h.step hp hfits hplace hs

theorem noFault_of_alone (hp : 0 < opt.pagesize) (hfits : Fits opt) : NoFault opt 1 := by
  intro s hs u
  obtain rfl := Subsingleton.elim 0 u
  have halt := (inv_of_reachable hp hfits hs).alternates
  constructor
  case readable =>
    intro j hplace _
    rw [Alternates, hplace] at halt
    exact halt.1
  case defined =>
    intro hplace
    rw [Alternates, hplace] at halt
    exact halt

end Alone

section Together

/-- The pages are read while nobody else does anything. -/
theorem touch_steps (hprot : x.prot = .readWrite) (m : ℕ)
    (hm : ∀ k < m, k * opt.pagesize < opt.optl ∧ (k + 1) * opt.pagesize < 2 ^ 31) :
    Relation.ReflTransGen (fun p q ↦ benchmarkStep opt u p.1 p.2 = some (q.1, some q.2))
      (x, .touch 0) (x, .touch (m * opt.pagesize)) := by
  induction m with
  | zero =>
    rw [Nat.zero_mul]
  | succ m ih =>
    obtain ⟨hlt, hint⟩ := hm m (Nat.lt_succ_self m)
    refine (ih fun k hk ↦ hm k (Nat.lt_succ_of_lt hk)).tail ?_
    have hne : x.prot ≠ .none := by
      rw [hprot]
      exact nofun
    rw [Nat.succ_mul] at hint ⊢
    rw [touch_page hlt hne, if_pos hint]

structure Ready (s : State (Fin T) (Shared T) Pc) (u : Fin T) : Prop where
  place : (s.worker u).place = none
  first : ∀ v, (s.worker u).calls ≤ (s.worker v).calls
  run : s.shared.tsRun u = BitVec.ofNat 32 (s.worker u).calls

variable (h : (system opt T).Reachable s) (hu : Ready s u)
include h hu

theorem reachable_touch (ht : opt.optt = true) (heven : (u + (s.worker u).calls) % 2 = 0) :
    (system opt T).Reachable (s.move u s.shared (some (.touch 0))) := by
  have hs : benchmarkStep opt u s.shared .switch = some (s.shared, some (.touch 0)) := by
    rw [switch_even hu.run heven, if_pos ht]
  exact reachable_call h hu.place hu.first hs

/-- If it finds the mapping protected, it reads nevertheless. -/
theorem not_noFault_of_none (ht : opt.optt = true) (hl : 0 < opt.optl)
    (heven : (u + (s.worker u).calls) % 2 = 0) (hprot : s.shared.prot = .none) :
    ¬ NoFault opt T := by
  intro hall
  have hsafe := hall _ (reachable_touch h hu ht heven) u
  exact hsafe.readable 0 (move_place _) hl hprot

theorem reachable_pages (ht : opt.optt = true) (heven : (u + (s.worker u).calls) % 2 = 0)
    (hprot : s.shared.prot = .readWrite) (m : ℕ)
    (hm : ∀ k < m, k * opt.pagesize < opt.optl ∧ (k + 1) * opt.pagesize < 2 ^ 31) :
    (system opt T).Reachable (s.move u s.shared (some (.touch (m * opt.pagesize)))) := by
  have htouch := reachable_touch h hu ht heven
  have hrest := reachable_alone htouch (move_place _) (touch_steps hprot m hm)
  rwa [move_move] at hrest

/-- A whole call of `u` up to its last statement. -/
theorem reachable_mprotect (ht : opt.optt = true) (hp : 0 < opt.pagesize) (hfits : Fits opt)
    (heven : (u + (s.worker u).calls) % 2 = 0) (hprot : s.shared.prot = .readWrite) :
    (system opt T).Reachable (s.move u (s.shared.setProt .none) (some .tsRun)) := by
  have hlast : ¬ pages opt.optl opt.pagesize * opt.pagesize < opt.optl :=
    mt (lt_pages_iff hp).mpr (Nat.lt_irrefl _)
  have hpages := reachable_pages h hu ht heven hprot (pages opt.optl opt.pagesize) fun k hk ↦
    ⟨(lt_pages_iff hp).mp hk, (Nat.mul_le_mul_right _ (Nat.succ_le_of_lt hk)).trans_lt hfits⟩
  have hend := reachable_move hpages (move_place _) (touch_end (u := u) hlast)
  rw [move_move] at hend
  have hnone := reachable_move hend (move_place _) rfl
  rw [move_move] at hnone
  exact hnone

end Together

theorem Ready.start (u : Fin T) : Ready (start (mapped T)) u := ⟨rfl, fun _ ↦ le_rfl, rfl⟩

/-- The index overflows in the first call of the first thread. -/
theorem not_noFault_of_not_fits (hT : 0 < T) (ht : opt.optt = true) (hp : 0 < opt.pagesize)
    (hfits : ¬ Fits opt) : ¬ NoFault opt T := by
  intro hall
  obtain ⟨m, hm, hint, hover⟩ := exists_last_int hp (not_lt.mp hfits)
  have hlt := (lt_pages_iff hp).mp hm
  have hpages := reachable_pages (reachable_start rfl) (Ready.start ⟨0, hT⟩) ht rfl rfl m
    fun k hk ↦ ⟨(lt_pages_iff hp).mp (hk.trans hm),
      (Nat.mul_le_mul_right _ (Nat.succ_le_of_lt hk)).trans_lt hint⟩
  have htouch := touch_page (u := ⟨0, hT⟩) (x := mapped T) hlt nofun
  rw [Nat.succ_mul] at hover
  rw [if_neg (not_lt.mpr hover)] at htouch
  have hend := reachable_move hpages (move_place _) htouch
  exact (hall _ hend ⟨0, hT⟩).defined (move_place _)

theorem Ready.move (hv : Ready s v) (huv : v ≠ u) (hrun : x.tsRun v = s.shared.tsRun v) (pc : Pc) :
    Ready (s.move u x (some pc)) v where
  place := by
    rw [move_worker_of_ne _ huv]
    exact hv.place
  first w := by
    rw [move_calls, move_calls]
    exact hv.first w
  run := by
    rw [move_calls]
    exact hrun.trans hv.run

/-- The first thread protects the mapping, and the third one reads it in the same round. -/
theorem not_noFault_third (hu : u.val = 0) (hv : v.val = 2) (ht : opt.optt = true)
    (hl : 0 < opt.optl) (hp : 0 < opt.pagesize) (hfits : Fits opt) : ¬ NoFault opt T := by
  have huv : v ≠ u := by
    rintro rfl
    omega
  have hnone := reachable_mprotect (reachable_start rfl) (Ready.start u) ht hp hfits
    (by rw [hu]; rfl) rfl
  have hready := (Ready.start v).move huv rfl (x := (mapped T).setProt .none) .tsRun
  exact not_noFault_of_none hnone hready ht hl (by rw [move_calls, start_calls, hv]) rfl

/-- With two threads, the second one makes the mapping readable, and then the first one
protects it. The second one reads it in the next round. -/
theorem not_noFault_second (ht : opt.optt = true) (hl : 0 < opt.optl) (hp : 0 < opt.pagesize)
    (hfits : Fits opt) : ¬ NoFault opt 2 := by
  have hodd : benchmarkStep opt (1 : Fin 2) (mapped 2) .switch =
      some (mapped 2, some (.mprotect .readWrite)) := switch_odd (n := 0) rfl (by decide)
  have h₀ : (system opt 2).Reachable (start (mapped 2)) := reachable_start rfl
  have h₁ := reachable_call h₀ (u := (1 : Fin 2)) rfl (fun _ ↦ le_rfl) hodd
  have h₂ := reachable_move h₁ (move_place _) rfl
  rw [move_move] at h₂
  have h₃ := reachable_move h₂ (move_place _) rfl
  rw [move_move] at h₃
  have hfirst : Ready ((start (mapped 2)).move 1 ((mapped 2).ran 1) none) 0 :=
    ⟨rfl, fun v ↦ Nat.zero_le _, rfl⟩
  have h₄ := reachable_mprotect h₃ hfirst ht hp hfits rfl rfl
  have h₅ := reachable_move h₄ (move_place _) rfl
  rw [move_move] at h₅
  have hsecond : Ready (((start (mapped 2)).move 1 ((mapped 2).ran 1) none).move 0
      ((((mapped 2).ran 1).setProt .none).ran 0) none) 1 := by
    exact ⟨rfl, Fin.forall_fin_two.mpr ⟨le_rfl, le_rfl⟩, rfl⟩
  exact not_noFault_of_none h₅ hsecond ht hl rfl rfl

/-- With -t a single thread is safe as long as its index is an `int`, and more threads never
are. -/
theorem noFault_iff (optl pagesize T : ℕ) (hT : 1 ≤ T) (hl : 0 < optl) (hp : 0 < pagesize) :
    NoFault ⟨optl, pagesize, true⟩ T ↔ T = 1 ∧ pages optl pagesize * pagesize < 2 ^ 31 := by
  constructor
  · intro h
    have hfits : Fits ⟨optl, pagesize, true⟩ := by
      by_contra hn
      exact not_noFault_of_not_fits hT rfl hp hn h
    refine ⟨?_, hfits⟩
    by_contra hone
    rcases Nat.lt_or_ge 2 T with hthree | htwo
    · exact not_noFault_third (u := ⟨0, hT⟩) (v := ⟨2, hthree⟩) rfl rfl rfl hl hp hfits h
    · obtain rfl : T = 2 := by omega
      exact not_noFault_second rfl hl hp hfits h
  · rintro ⟨rfl, hfits⟩
    exact noFault_of_alone hp hfits

theorem noFault_iff_single : NoFault ⟨8192, 4096, true⟩ 1 ↔
    1 = 1 ∧ pages 8192 4096 * 4096 < 2 ^ 31 :=
  noFault_iff 8192 4096 1 (by decide) (by decide) (by decide)

theorem mprotect_faults : ¬ NoFault ⟨8192, 4096, true⟩ 2 := by
  have hfits : Fits ⟨8192, 4096, true⟩ := by
    unfold Fits
    decide
  exact not_noFault_second rfl (by decide) (by decide) hfits

end LibMicro.Mprotect
