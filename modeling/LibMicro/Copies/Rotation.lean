import LibMicro.Copies.Model
import LibMicro.Sizes.Narrow

namespace LibMicro.Copies

open Regions Sizes

variable {a len size x : ℤ} {n : ℕ}

theorem valloc_holds (ha : 0 ≤ a) (hlen : 1 ≤ len) :
    ((valloc size).add a).Holds len ↔ a + len ≤ size := by
  unfold valloc Pointer.add Pointer.Holds
  by_cases hsize : 0 ≤ size
  · simp [hsize, ha]
  · simp [hsize]
    omega

theorem valloc_eq_none_iff : (valloc size).buffer = none ↔ size < 0 := by
  simp [valloc]

theorem le_toInt_iff (hx : 0 ≤ x) : x ≤ toInt x ↔ x < 2 ^ 31 := by
  constructor
  · intro h
    exact h.trans_lt (toInt_fits x).2
  · intro h
    rw [toInt_of_fits ⟨by omega, h⟩]

theorem addLong_eq (ha : 0 ≤ a) (hx : 0 ≤ x) :
    addLong a x = if a + x < 2 ^ 63 then .ok (a + x) else .error .overflow := by
  unfold addLong longLong
  by_cases h : a + x < 2 ^ 63
  · rw [if_pos h, if_pos ⟨by omega, h⟩]
  · rw [if_neg h, if_neg fun hn ↦ h hn.2]

namespace Copy

variable {prog : Program} {opt : Options} {ts : TsdT}

/-- Nothing is stored, so all calls are the same. -/
theorem calls_eq (prog : Program) (opt : Options) (ts : TsdT) :
    prog.calls opt ts = fun _ ↦ call opt ts := by
  funext k
  cases prog with
  | memcpy | memmove => exact congrArg (call opt) (Function.iterate_fixed rfl k)

theorem next_ne (opts : ℤ) (p : Pointer) : next opts p ≠ p := by
  intro h
  have hoffset : p.offset + max opts 1024 = p.offset := congrArg Pointer.offset h
  omega

theorem good_iff (hn : 0 < n) (hopts : 1 ≤ opt.opts) :
    Good opt (prog.calls opt ts) n ↔
      (ts.tsSrc.Holds opt.opts ∧ ts.tsDest.Holds opt.opts) ∧
        (opt.optf → n ≤ 1 ∨ ¬ (next opt.opts ts.tsSrc).Holds opt.opts) ∧
          (opt.optt → n ≤ 1 ∨ ¬ (next opt.opts ts.tsDest).Holds opt.opts) := by
  rw [calls_eq]
  have hsrc : Rotates opt.opts (next opt.opts) (fun _ ↦ ts.tsSrc) n ↔ _ :=
    rotates_const_iff (next_ne opt.opts ts.tsSrc)
  have hdest : Rotates opt.opts (next opt.opts) (fun _ ↦ ts.tsDest) n ↔ _ :=
    rotates_const_iff (next_ne opt.opts ts.tsDest)
  have hnext (p : Pointer) : p.offset + opt.opts ≤ (next opt.opts p).offset :=
    Int.add_le_add_left (le_max_left opt.opts 1024) p.offset
  constructor
  · intro h
    exact ⟨⟨h.source 0 hn, h.destination 0 hn⟩, fun hf ↦ hsrc.mp (h.rotatesFrom hf),
      fun ht ↦ hdest.mp (h.rotatesTo ht)⟩
  · rintro ⟨⟨hs, hd⟩, hf, ht⟩
    constructor
    case source => exact fun _ _ ↦ hs
    case destination => exact fun _ _ ↦ hd
    case rotatesFrom => exact fun h ↦ hsrc.mpr (hf h)
    case apartFrom => exact fun h ↦ (hsrc.mpr (hf h)).apart (by omega) hnext
    case rotatesTo => exact fun h ↦ hdest.mpr (ht h)
    case apartTo => exact fun h ↦ (hdest.mpr (ht h)).apart (by omega) hnext

theorem good_zero (calls : ℕ → Call) : Good opt calls 0 where
  source := nofun
  destination := nofun
  rotatesFrom _ := ⟨nofun, nofun⟩
  apartFrom _ := nofun
  rotatesTo _ := ⟨nofun, nofun⟩
  apartTo _ := nofun

def worker (opt : Options) (size : ℤ) : TsdT :=
  ⟨(valloc size).add opt.opta, valloc (destsize opt), size, destsize opt⟩

theorem good_worker_iff (hn : 0 < n) (hopts : 1 ≤ opt.opts) (hopta : 0 ≤ opt.opta) :
    Good opt (prog.calls opt (worker opt size)) n ↔
      (opt.opta + opt.opts ≤ size ∧ opt.opts ≤ destsize opt) ∧
        (opt.optf → n ≤ 1 ∨ size < opt.opta + max opt.opts 1024 + opt.opts) ∧
          (opt.optt → n ≤ 1 ∨ destsize opt < max opt.opts 1024 + opt.opts) := by
  have hdest (size : ℤ) : valloc size = (valloc size).add 0 := by
    simp [Pointer.add]
  have hadd (p : Pointer) (a b : ℤ) : (p.add a).add b = p.add (a + b) := by
    simp [Pointer.add, add_assoc]
  rw [good_iff hn hopts]
  unfold worker next
  dsimp only
  rw [hdest (destsize opt), hadd, hadd, valloc_holds hopta hopts, valloc_holds le_rfl hopts,
    valloc_holds (by omega) hopts, valloc_holds (by omega) hopts, zero_add, zero_add, not_le, not_le]

theorem benchmarkInitworker_eq (hopts : 1 ≤ opt.opts) (hopta : 0 ≤ opt.opta) :
    prog.benchmarkInitworker opt =
      if opt.optf then .ok (worker opt (64 * 1024 * 1024))
      else if opt.opts + opt.opta < 2 ^ 63 then .ok (worker opt (toInt (opt.opts + opt.opta)))
      else .error .overflow := by
  have hprog : prog.benchmarkInitworker opt = initworker opt := by
    cases prog <;> rfl
  rw [hprog, initworker, srcsize, addLong_eq (by omega) hopta]
  split_ifs <;> rfl

theorem le_destsize_iff (hopts : 1 ≤ opt.opts) : opt.opts ≤ destsize opt ↔
    (if opt.optt then opt.opts ≤ 64 * 1024 * 1024 else opt.opts < 2 ^ 31) := by
  unfold destsize
  split
  case isTrue => exact Iff.rfl
  case isFalse => exact le_toInt_iff (by omega)

theorem rotates_iff (prog : Program) (opt : Options) (hopts : 1 ≤ opt.opts)
    (hopta : 0 ≤ opt.opta) (n : ℕ) :
    prog.Rotates opt n ↔ n = 0 ∨
      ((if opt.optf then opt.opta + opt.opts ≤ 64 * 1024 * 1024
          else opt.opts + opt.opta < 2 ^ 31) ∧
        (opt.optt → opt.opts ≤ 64 * 1024 * 1024)) ∧
        (n = 1 ∨ (opt.optf → 64 * 1024 * 1024 < opt.opta + max opt.opts 1024 + opt.opts) ∧
          (opt.optt → 64 * 1024 * 1024 < max opt.opts 1024 + opt.opts)) := by
  rw [Program.Rotates, benchmarkInitworker_eq hopts hopta]
  rcases Nat.eq_zero_or_pos n with rfl | hn
  · refine iff_of_true ?_ (.inl rfl)
    split_ifs
    · exact good_zero _
    · exact good_zero _
    · exact rfl
  have hgood (size : ℤ) : Good opt (prog.calls opt (worker opt size)) n ↔ _ :=
    good_worker_iff hn hopts hopta
  have hdest := le_destsize_iff hopts
  have hsize : opt.optt → destsize opt = 64 * 1024 * 1024 := fun h ↦ if_pos h
  by_cases hf : opt.optf
  · rw [if_pos hf, if_pos hf]
    refine (hgood _).trans ?_
    by_cases ht : opt.optt
    · simp only [hf, ht, hsize ht, forall_true_left]
      omega
    · rw [if_neg ht] at hdest
      simp only [hf, ht, hdest, forall_true_left, Bool.false_eq_true, false_imp_iff, and_true]
      omega
  · rw [if_neg hf, if_neg hf]
    split
    case isTrue hsum =>
      have hsrc := le_toInt_iff (x := opt.opts + opt.opta) (by omega)
      rw [add_comm opt.opts opt.opta] at hsrc ⊢
      refine (hgood _).trans ?_
      rw [hsrc]
      by_cases ht : opt.optt
      · simp only [hf, ht, hsize ht, forall_true_left, Bool.false_eq_true, false_imp_iff, true_and]
        omega
      · rw [if_neg ht] at hdest
        simp only [hf, ht, hdest, Bool.false_eq_true, false_imp_iff, and_true, or_true]
        omega
    case isFalse hsum =>
      refine iff_of_false (Nat.ne_of_gt hn) ?_
      omega

end Copy

namespace Memset

variable {opt : Options} {ts : TsdT}

theorem calls_eq (opt : Options) (ts : TsdT) : calls opt ts = fun _ ↦ benchmark opt ts := by
  funext k
  exact congrArg (benchmark opt) (Function.iterate_fixed rfl k)

theorem le_next (hopta : 0 ≤ opt.opta) (p : Pointer) :
    p.offset + opt.opts ≤ (next opt.opts opt.opta p).offset := by
  unfold next pageOf Pointer.add
  dsimp only
  omega

theorem good_zero (calls : ℕ → Call) : Good opt calls 0 where
  inside := nofun
  rotates _ := ⟨nofun, nofun⟩
  apart _ := nofun

def worker (opt : Options) (size : ℤ) : TsdT := ⟨valloc size, size, opt.opta⟩

theorem good_worker_iff {size : ℤ} (hn : 0 < n) (hopts : 1 ≤ opt.opts) (hopta : 0 ≤ opt.opta) :
    Good opt (calls opt (worker opt size)) n ↔ opt.opta + opt.opts ≤ size ∧
      (opt.optu → n ≤ 1 ∨
        size < (opt.opta + (opt.opts + 4095)) / 4096 * 4096 + opt.opta + opt.opts) := by
  have hfirst : ((valloc size).add opt.opta).Holds opt.opts ↔ opt.opta + opt.opts ≤ size :=
    valloc_holds hopta hopts
  have hnext : (next opt.opts opt.opta ((valloc size).add opt.opta)).Holds opt.opts ↔
      (opt.opta + (opt.opts + 4095)) / 4096 * 4096 + opt.opta + opt.opts ≤ size := by
    have hadd : next opt.opts opt.opta ((valloc size).add opt.opta) =
        (valloc size).add ((opt.opta + (opt.opts + 4095)) / 4096 * 4096 + opt.opta) := by
      simp [next, pageOf, Pointer.add, valloc]
    rw [hadd, valloc_holds (by omega) hopts]
  have hne : next opt.opts opt.opta ((valloc size).add opt.opta) ≠ (valloc size).add opt.opta := by
    intro h
    have hle := le_next hopta ((valloc size).add opt.opta)
    rw [h] at hle
    omega
  have hrotates : Regions.Rotates opt.opts (next opt.opts opt.opta)
      (fun _ ↦ (valloc size).add opt.opta) n ↔ n ≤ 1 ∨ ¬ Pointer.Holds _ _ := rotates_const_iff hne
  rw [hnext, not_le] at hrotates
  rw [calls_eq, ← hfirst]
  constructor
  · intro h
    exact ⟨h.inside 0 hn, fun hu ↦ hrotates.mp (h.rotates hu)⟩
  · rintro ⟨hinside, hu⟩
    constructor
    case inside => exact fun _ _ ↦ hinside
    case rotates => exact fun h ↦ hrotates.mpr (hu h)
    case apart => exact fun h ↦ (hrotates.mpr (hu h)).apart (by omega) (le_next hopta)

theorem benchmarkInitworker_eq (hopts : 1 ≤ opt.opts) (hopta : 0 ≤ opt.opta) :
    benchmarkInitworker opt =
      if opt.optu then .ok (worker opt (1024 * 1024 * 64))
      else if opt.opta + opt.opts < 2 ^ 63 then
        if toInt (opt.opta + opt.opts) < 0 then .error .failed
        else .ok (worker opt (toInt (opt.opta + opt.opts)))
      else .error .overflow := by
  rw [benchmarkInitworker, size, addLong_eq hopta (by omega)]
  split_ifs with hu hsum hneg
  · rfl
  · exact if_pos (valloc_eq_none_iff.mpr hneg)
  · exact if_neg (mt valloc_eq_none_iff.mp hneg)
  · rfl

theorem rotates_iff (opt : Options) (hopts : 1 ≤ opt.opts) (hopta : 0 ≤ opt.opta) (n : ℕ) :
    Rotates opt n ↔ n = 0 ∨
      if opt.optu then
        opt.opta + opt.opts ≤ 1024 * 1024 * 64 ∧ (n = 1 ∨ 1024 * 1024 * 64 <
          (opt.opta + (opt.opts + 4095)) / 4096 * 4096 + opt.opta + opt.opts)
      else
        opt.opta + opt.opts < 2 ^ 63 ∧
          (opt.opta + opt.opts < 2 ^ 31 ∨ toInt (opt.opta + opt.opts) < 0) := by
  rw [Rotates, benchmarkInitworker_eq hopts hopta]
  rcases Nat.eq_zero_or_pos n with rfl | hn
  · refine iff_of_true ?_ (.inl rfl)
    split_ifs
    · exact good_zero _
    · trivial
    · exact good_zero _
    · exact rfl
  have hgood (size : ℤ) : Good opt (calls opt (worker opt size)) n ↔ _ :=
    good_worker_iff hn hopts hopta
  split_ifs with hu hsum hneg
  · refine (hgood _).trans ?_
    simp only [hu, forall_true_left]
    omega
  · exact iff_of_true trivial (.inr ⟨hsum, .inr hneg⟩)
  · have hfits := le_toInt_iff (x := opt.opta + opt.opts) (by omega)
    refine (hgood _).trans ?_
    simp only [hu, hfits, Bool.false_eq_true, false_imp_iff, and_true]
    omega
  · refine iff_of_false (Nat.ne_of_gt hn) ?_
    omega

end Memset

/-- The regions are in their buffers as long as the sizes are, and rotate only where a buffer has
no room for a second one. -/
theorem rotation_iff (opts opta : ℤ) (hopts : 1 ≤ opts) (hopta : 0 ≤ opta) (n : ℕ) :
    (∀ (prog : Copy.Program) (optf optt : Bool), prog.Rotates ⟨opts, opta, optf, optt⟩ n ↔
      n = 0 ∨
        ((if optf then opta + opts ≤ 64 * 1024 * 1024 else opts + opta < 2 ^ 31) ∧
          (optt → opts ≤ 64 * 1024 * 1024)) ∧
          (n = 1 ∨ (optf → 64 * 1024 * 1024 < opta + max opts 1024 + opts) ∧
            (optt → 64 * 1024 * 1024 < max opts 1024 + opts))) ∧
    ∀ optu, Memset.Rotates ⟨opts, opta, optu⟩ n ↔
      n = 0 ∨
        if optu then
          opta + opts ≤ 1024 * 1024 * 64 ∧ (n = 1 ∨
            1024 * 1024 * 64 < (opta + (opts + 4095)) / 4096 * 4096 + opta + opts)
        else
          opta + opts < 2 ^ 63 ∧ (opta + opts < 2 ^ 31 ∨ toInt (opta + opts) < 0) :=
  ⟨fun prog optf optt ↦ Copy.rotates_iff prog ⟨opts, opta, optf, optt⟩ hopts hopta n,
    fun optu ↦ Memset.rotates_iff ⟨opts, opta, optu⟩ hopts hopta n⟩

/-- Three calls with 48 megabytes each, of which every one begins at the front again. -/
theorem rotation_iff_three :
    (∀ (prog : Copy.Program) optf optt, prog.Rotates ⟨48 * 1024 * 1024, 0, optf, optt⟩ 3) ∧
      (∀ optu, Memset.Rotates ⟨48 * 1024 * 1024, 0, optu⟩ 3) ∧
      ¬ Copy.Program.memcpy.Rotates ⟨8192, 0, true, false⟩ 3 := by
  have hlarge := rotation_iff (48 * 1024 * 1024) 0 (by norm_num) le_rfl 3
  have hsmall := (rotation_iff 8192 0 (by norm_num) le_rfl 3).1 .memcpy true false
  refine ⟨fun prog optf optt ↦ (hlarge.1 prog optf optt).mpr ?_, fun optu ↦
    (hlarge.2 optu).mpr ?_, fun h ↦ absurd (hsmall.mp h) (by norm_num)⟩
  · cases optf <;> norm_num
  · cases optu <;> norm_num

/-- The second call of `memcpy` copies from where the first one did. -/
theorem memcpy_stays : ¬ ∀ (prog : Copy.Program) opt n, 1 ≤ opt.opts → 0 ≤ opt.opta →
    prog.Rotates opt n := by
  intro h
  have hgood := h .memcpy ⟨8192, 0, true, false⟩ 2 (by norm_num) le_rfl
  have hcond := (Copy.rotates_iff .memcpy ⟨8192, 0, true, false⟩ (by norm_num) le_rfl 2).mp hgood
  norm_num at hcond

end LibMicro.Copies
