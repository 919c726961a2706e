import LibMicro.Blocks
import Mathlib.Algebra.Group.Int.Defs
import Mathlib.Algebra.Group.Nat.Defs
import Mathlib.Data.Int.Basic

namespace LibMicro.Harness.Tsd

open Blocks

structure Globals where
  lmOptP : BitVec 32
  lmOptT : BitVec 32
  lmTsdsize : BitVec 64
  tsdseg : BitVec 64

namespace Globals

def tsdsize (g : Globals) : BitVec 64 := (g.lmTsdsize + 127) / 128 * 128

/-- How many bytes are mapped. The first product is one of two `int`s. -/
def segsize (g : Globals) : BitVec 64 :=
  (g.lmOptT * g.lmOptP).signExtend 64 * g.tsdsize + 8192

def gettsd (g : Globals) (p t : BitVec 32) : BitVec 64 :=
  if p.toInt < 0 ∨ g.lmOptP.toInt ≤ p.toInt ∨ t.toInt < 0 ∨ g.lmOptT.toInt ≤ t.toInt then 0
  else g.tsdseg + (p * g.lmOptT + t).signExtend 64 * g.tsdsize

def roundUp (n : ℕ) : ℕ := (n + 127) / 128 * 128

def Valid (g : Globals) (p t : BitVec 32) : Prop :=
  (0 ≤ p.toInt ∧ p.toInt < g.lmOptP.toInt) ∧ 0 ≤ t.toInt ∧ t.toInt < g.lmOptT.toInt

def data (g : Globals) (p t : BitVec 32) : Set ℕ :=
  Set.Ico (g.gettsd p t).toNat ((g.gettsd p t).toNat + g.lmTsdsize.toNat)

structure Fits (g : Globals) : Prop where
  optP : 1 ≤ g.lmOptP.toInt
  optT : 1 ≤ g.lmOptT.toInt
  workers : g.lmOptP.toInt * g.lmOptT.toInt < 2 ^ 31
  size : g.lmOptP.toInt * g.lmOptT.toInt * roundUp g.lmTsdsize.toNat + 8192 < 2 ^ 64

/-- What `mmap` comes back with: whole pages, and a segment that ends within the addresses. -/
structure Mapped (g : Globals) : Prop where
  aligned : 4096 ∣ g.tsdseg.toNat
  ends : g.tsdseg.toNat + g.segsize.toNat ≤ 2 ^ 64

structure Separate (g : Globals) : Prop where
  inside : ∀ p t, g.Valid p t → g.tsdseg.toNat ≤ (g.gettsd p t).toNat ∧
    (g.gettsd p t).toNat + g.lmTsdsize.toNat ≤ g.tsdseg.toNat + g.segsize.toNat
  disjoint : ∀ p t p' t', g.Valid p t → g.Valid p' t' → (p, t) ≠ (p', t') →
    Disjoint (g.data p t) (g.data p' t')
  lines : ∀ p t p' t', g.Valid p t → g.Valid p' t' → (p, t) ≠ (p', t') →
    ∀ a ∈ g.data p t, ∀ b ∈ g.data p' t', a / 128 ≠ b / 128
  null : ∀ p t, ¬ g.Valid p t → g.gettsd p t = 0

variable {g : Globals} {p t p' t' : BitVec 32}

theorem toInt_eq_toNat {x : BitVec 32} (h : 0 ≤ x.toInt) : x.toInt = x.toNat ∧ x.toNat < 2 ^ 31 := by
  rw [BitVec.toInt_eq_toNat_cond] at h ⊢
  have := x.isLt
  split at h
  case isTrue hlt =>
    rw [if_pos hlt]
    omega
  case isFalse => omega

theorem toNat_signExtend {x : BitVec 32} (h : x.toNat < 2 ^ 31) :
    (x.signExtend 64).toNat = x.toNat := by
  have hmsb : x.msb = false := by
    rw [BitVec.msb_eq_false_iff_two_mul_lt]
    omega
  rw [BitVec.signExtend_eq_setWidth_of_msb_false hmsb, BitVec.toNat_setWidth]
  exact Nat.mod_eq_of_lt (by omega)

theorem le_roundUp (n : ℕ) : n ≤ roundUp n := by
  unfold roundUp
  omega

structure Sizes (g : Globals) (P T size : ℕ) : Prop where
  optP : g.lmOptP.toInt = P
  optT : g.lmOptT.toInt = T
  optT_toNat : g.lmOptT.toNat = T
  workers : P * T < 2 ^ 31
  tsdsize : g.tsdsize.toNat = size
  segsize : g.segsize.toNat = P * T * size + 8192
  le : g.lmTsdsize.toNat ≤ size
  lines : 128 ∣ size

variable {P T size : ℕ}

theorem tsdsize_toNat (h : roundUp g.lmTsdsize.toNat < 2 ^ 64 - 127) :
    g.tsdsize.toNat = roundUp g.lmTsdsize.toNat := by
  have hle := le_roundUp g.lmTsdsize.toNat
  have hsum : (g.lmTsdsize + 127).toNat = g.lmTsdsize.toNat + 127 :=
    BitVec.toNat_add_of_lt (show g.lmTsdsize.toNat + 127 < 2 ^ 64 by omega)
  have hdiv : ((g.lmTsdsize + 127) / 128).toNat = (g.lmTsdsize.toNat + 127) / 128 := by
    rw [BitVec.toNat_udiv, hsum]
    rfl
  have hlt : roundUp g.lmTsdsize.toNat < 2 ^ 64 := by omega
  rw [tsdsize, BitVec.toNat_mul, hdiv]
  exact Nat.mod_eq_of_lt hlt

theorem Fits.sizes (h : g.Fits) :
    g.Sizes g.lmOptP.toNat g.lmOptT.toNat (roundUp g.lmTsdsize.toNat) := by
  obtain ⟨hP, hT, hworkers, hsize⟩ := h
  have hoptP := (toInt_eq_toNat (x := g.lmOptP) (by omega)).1
  have hoptT := (toInt_eq_toNat (x := g.lmOptT) (by omega)).1
  rw [hoptP] at hP hworkers hsize
  rw [hoptT] at hT hworkers hsize
  have hw : g.lmOptP.toNat * g.lmOptT.toNat < 2 ^ 31 := by
    apply Int.ofNat_lt.mp
    rw [Int.natCast_mul]
    omega
  have hs : g.lmOptP.toNat * g.lmOptT.toNat * roundUp g.lmTsdsize.toNat + 8192 < 2 ^ 64 := by
    apply Int.ofNat_lt.mp
    rw [Int.natCast_add, Int.natCast_mul, Int.natCast_mul]
    omega
  have hpos : 0 < g.lmOptP.toNat * g.lmOptT.toNat := Nat.mul_pos (by omega) (by omega)
  have hone := Nat.le_mul_of_pos_left (roundUp g.lmTsdsize.toNat) hpos
  have htsd : g.tsdsize.toNat = roundUp g.lmTsdsize.toNat := tsdsize_toNat (by omega)
  have hproduct : (g.lmOptT * g.lmOptP).toNat = g.lmOptP.toNat * g.lmOptT.toNat := by
    rw [BitVec.toNat_mul_of_lt (by rw [Nat.mul_comm]; omega), Nat.mul_comm]
  have hext := toNat_signExtend (x := g.lmOptT * g.lmOptP) (by omega)
  have hmul : ((g.lmOptT * g.lmOptP).signExtend 64 * g.tsdsize).toNat =
      g.lmOptP.toNat * g.lmOptT.toNat * roundUp g.lmTsdsize.toNat := by
    have hlt : ((g.lmOptT * g.lmOptP).signExtend 64).toNat * g.tsdsize.toNat < 2 ^ 64 := by
      rw [hext, hproduct, htsd]
      omega
    rw [BitVec.toNat_mul_of_lt hlt, hext, hproduct, htsd]
  have hseg : g.segsize.toNat =
      g.lmOptP.toNat * g.lmOptT.toNat * roundUp g.lmTsdsize.toNat + 8192 := by
    rw [segsize, BitVec.toNat_add, hmul]
    exact Nat.mod_eq_of_lt hs
  exact ⟨hoptP, hoptT, rfl, hw, htsd, hseg, le_roundUp _, Nat.dvd_mul_left 128 _⟩

namespace Sizes

theorem valid (h : g.Sizes P T size) (hv : g.Valid p t) : p.toNat < P ∧ t.toNat < T := by
  obtain ⟨⟨hp, hp'⟩, ht, ht'⟩ := hv
  rw [(toInt_eq_toNat hp).1, h.optP] at hp'
  rw [(toInt_eq_toNat ht).1, h.optT] at ht'
  omega

theorem index (h : g.Sizes P T size) (hv : g.Valid p t) :
    ((p * g.lmOptT + t).signExtend 64).toNat = rowMajor T p.toNat t.toNat := by
  obtain ⟨hp, ht⟩ := h.valid hv
  have hlt := rowMajor_lt hp ht
  have hworkers := h.workers
  have hsum : (p * g.lmOptT + t).toNat = rowMajor T p.toNat t.toNat := by
    unfold rowMajor at hlt ⊢
    have hmul : (p * g.lmOptT).toNat = p.toNat * T := by
      have hwide : p.toNat * g.lmOptT.toNat < 2 ^ 32 := by
        rw [h.optT_toNat]
        omega
      rw [BitVec.toNat_mul_of_lt hwide, h.optT_toNat]
    rw [BitVec.toNat_add_of_lt (by omega), hmul]
  rw [toNat_signExtend (by omega), hsum]

/-- No sum or product in the address is reduced. -/
theorem gettsd_toNat (h : g.Sizes P T size) (hm : g.Mapped) (hv : g.Valid p t) :
    (g.gettsd p t).toNat = g.tsdseg.toNat + rowMajor T p.toNat t.toNat * size := by
  obtain ⟨hp, ht⟩ := h.valid hv
  have hend := Nat.mul_le_mul_right size (Nat.le_of_lt (rowMajor_lt hp ht))
  have hsegment := hm.ends
  rw [h.segsize] at hsegment
  have hif : ¬ (p.toInt < 0 ∨ g.lmOptP.toInt ≤ p.toInt ∨ t.toInt < 0 ∨
      g.lmOptT.toInt ≤ t.toInt) := by
    obtain ⟨⟨h₁, h₂⟩, h₃, h₄⟩ := hv
    omega
  have hmul : ((p * g.lmOptT + t).signExtend 64 * g.tsdsize).toNat =
      rowMajor T p.toNat t.toNat * size := by
    rw [BitVec.toNat_mul_of_lt (by rw [h.index hv, h.tsdsize]; omega), h.index hv, h.tsdsize]
  rw [gettsd, if_neg hif, BitVec.toNat_add_of_lt (by omega), hmul]

theorem data_eq (h : g.Sizes P T size) (hm : g.Mapped) (hv : g.Valid p t) :
    g.data p t = block g.tsdseg.toNat size g.lmTsdsize.toNat (rowMajor T p.toNat t.toNat) := by
  rw [data, h.gettsd_toNat hm hv, block]

theorem index_ne (h : g.Sizes P T size) (hv : g.Valid p t) (hv' : g.Valid p' t')
    (hne : (p, t) ≠ (p', t')) : rowMajor T p.toNat t.toNat ≠ rowMajor T p'.toNat t'.toNat := by
  intro he
  obtain ⟨hp, ht⟩ := rowMajor_inj (h.valid hv).2 (h.valid hv').2 he
  apply hne
  rw [BitVec.eq_of_toNat_eq hp, BitVec.eq_of_toNat_eq ht]

end Sizes

theorem gettsd_separate (g : Globals) (h : g.Fits) (hm : g.Mapped) : g.Separate := by
  have hs := h.sizes
  constructor
  case inside =>
    intro p t hv
    obtain ⟨hp, ht⟩ := hs.valid hv
    have hend := block_end_le hs.le (rowMajor_lt hp ht)
    rw [hs.gettsd_toNat hm hv, hs.segsize]
    omega
  case disjoint =>
    intro p t p' t' hv hv' hne
    rw [hs.data_eq hm hv, hs.data_eq hm hv']
    exact block_disjoint hs.le (hs.index_ne hv hv' hne)
  case lines =>
    intro p t p' t' hv hv' hne a ha b hb
    rw [hs.data_eq hm hv] at ha
    rw [hs.data_eq hm hv'] at hb
    have hbase : 128 ∣ g.tsdseg.toNat := Nat.dvd_trans (by decide) hm.aligned
    exact line_ne hbase hs.lines hs.le (hs.index_ne hv hv' hne) ha hb
  case null =>
    intro p t hv
    apply if_pos
    by_contra hin
    push Not at hin
    exact hv ⟨⟨hin.1, hin.2.1⟩, hin.2.2.1, hin.2.2.2⟩

def small : Globals := ⟨2, 3, 200, 8192⟩

theorem gettsd_separate_small : small.Fits ∧ small.Mapped ∧ small.Separate := by
  have hfits : small.Fits := ⟨by decide, by decide, by decide, by decide⟩
  have hmapped : small.Mapped := ⟨by decide, by decide⟩
  exact ⟨hfits, hmapped, gettsd_separate small hfits hmapped⟩

end Globals

end LibMicro.Harness.Tsd
