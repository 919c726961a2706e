import LibMicro.Pages.Model
import Mathlib.Algebra.Group.Nat.Defs
import Mathlib.Data.Nat.Basic
import Mathlib.Tactic.Linarith

namespace LibMicro.Pages

open WhileLoop

variable {add : ℕ → ℕ → Except (Halt Fault) ℕ} {len p k optl pagesize : ℕ} {optr optw : Bool}
  {prog : Program}

theorem lt_pages_iff (hp : 0 < p) : k < pages len p ↔ k * p < len := by
  rw [pages, ← Nat.succ_le_iff, Nat.le_div_iff_mul_le hp, Nat.succ_mul]
  omega

theorem mem_offsets (hp : 0 < p) {j : ℕ} : j ∈ offsets len p ↔ p ∣ j ∧ j < len := by
  rw [offsets, List.mem_map]
  constructor
  · rintro ⟨k, hk, rfl⟩
    exact ⟨Nat.dvd_mul_left p k, (lt_pages_iff hp).mp (List.mem_range.mp hk)⟩
  · rintro ⟨⟨k, rfl⟩, hlt⟩
    rw [Nat.mul_comm] at hlt
    exact ⟨k, List.mem_range.mpr ((lt_pages_iff hp).mpr hlt), Nat.mul_comm k p⟩

/-- Only lengths of one page do not show the size of the pages. -/
theorem offsets_eq_iff {q : ℕ} (hp : 0 < p) (hq : 0 < q) :
    offsets len p = offsets len q ↔ p = q ∨ len ≤ min p q := by
  have hsize : ∀ {p q}, 0 < p → 0 < q → offsets len p = offsets len q → p < q → len ≤ p := by
    intro p q hp hq he hlt
    by_contra hlen
    have hmem : p ∈ offsets len q := he ▸ (mem_offsets hp).mpr ⟨Nat.dvd_refl p, not_le.mp hlen⟩
    exact Nat.not_le_of_lt hlt (Nat.le_of_dvd hp ((mem_offsets hq).mp hmem).1)
  have hone : ∀ {p}, 0 < p → len ≤ p → offsets len p = if len = 0 then [] else [0] := by
    intro p hp hle
    split
    case isTrue h₀ =>
      have hpages : pages len p = 0 := Nat.eq_zero_of_not_pos fun h ↦ by
        have := (lt_pages_iff hp).mp h
        omega
      rw [offsets, hpages]
      rfl
    case isFalse h₀ =>
      have hpages : pages len p = 1 := by
        have hfirst : 0 < pages len p := (lt_pages_iff hp).mpr (by omega)
        have hsecond : ¬ 1 < pages len p := mt (lt_pages_iff hp).mp (by omega)
        omega
      rw [offsets, hpages]
      simp
  constructor
  · intro he
    rcases Nat.lt_trichotomy p q with hlt | heq | hgt
    · exact .inr (le_min (hsize hp hq he hlt) ((hsize hp hq he hlt).trans hlt.le))
    · exact .inl heq
    · exact .inr (le_min ((hsize hq hp he.symm hgt).trans hgt.le) (hsize hq hp he.symm hgt))
  · rintro (rfl | hle)
    · rfl
    · rw [hone hp (hle.trans (min_le_left p q)), hone hq (hle.trans (min_le_right p q))]

def cursor (p k : ℕ) : Cursor := ⟨k * p, (List.range k).map (· * p)⟩

theorem cursor_zero (p : ℕ) : cursor p 0 = ⟨0, []⟩ := by
  simp [cursor]

theorem next_cursor (h : add (k * p) p = .ok ((k + 1) * p)) :
    (cursor p k).next add p = .ok (cursor p (k + 1)) := by
  have hj : (cursor p k).j = k * p := rfl
  rw [Cursor.next, hj, h]
  simp [bind, Except.bind, pure, Except.pure, cursor, List.range_succ]

theorem settles_touch (hp : 0 < p)
    (hadd : ∀ k < pages len p, add (k * p) p = .ok ((k + 1) * p)) :
    Settles (touch add len p) (.ok (offsets len p)) := by
  have hloop : Settles (whileLoop (fun s ↦ .ok (decide (s.j < len))) (Cursor.next add p) ·
      (cursor p 0)) (.ok (cursor p (pages len p))) := by
    apply settles_while
    · intro k hk
      have htest := decide_eq_true ((lt_pages_iff hp).mp hk)
      exact ⟨congrArg Except.ok htest, next_cursor (hadd k hk)⟩
    · have hend := decide_eq_false (mt (lt_pages_iff hp).mpr (Nat.lt_irrefl (pages len p)))
      exact congrArg Except.ok hend
  rw [cursor_zero] at hloop
  exact hloop.map Cursor.touched

theorem intAdd_eq (h : (k + 1) * p < 2 ^ 31) : intAdd (k * p) p = .ok ((k + 1) * p) := by
  rw [Nat.succ_mul] at h ⊢
  exact if_pos h

theorem settles_int (hp : 0 < p) (h : pages len p * p < 2 ^ 31) :
    Settles (touch intAdd len p) (.ok (offsets len p)) := by
  apply settles_touch hp
  intro k hk
  exact intAdd_eq ((Nat.mul_le_mul_right p hk).trans_lt h)

theorem exists_last_int (hp : 0 < p) (h : 2 ^ 31 ≤ pages len p * p) :
    ∃ m < pages len p, m * p < 2 ^ 31 ∧ 2 ^ 31 ≤ (m + 1) * p := by
  obtain ⟨m, hle, hlast⟩ : ∃ m, m * p ≤ 2 ^ 31 - 1 ∧ 2 ^ 31 - 1 < m * p + p :=
    ⟨(2 ^ 31 - 1) / p, Nat.div_mul_le_self _ _, Nat.lt_div_mul_add hp⟩
  refine ⟨m, Nat.lt_of_not_le fun hge ↦ ?_, by omega, by rw [Nat.succ_mul]; omega⟩
  have := Nat.mul_le_mul_right p hge
  omega

theorem settles_int_overflow (hp : 0 < p) (h : 2 ^ 31 ≤ pages len p * p) :
    Settles (touch intAdd len p) (.error (.failed .overflow)) := by
  obtain ⟨m, hm, hle, hlast⟩ := exists_last_int hp h
  have htest : ∀ k ≤ m, decide (k * p < len) = true := by
    intro k hk
    exact decide_eq_true ((lt_pages_iff hp).mp (hk.trans_lt hm))
  have hover : Cursor.next intAdd p (cursor p m) = .error (.failed .overflow) := by
    have hadd : intAdd (cursor p m).j p = .error (.failed .overflow) :=
      if_neg (Nat.not_lt.mpr (Nat.succ_mul m p ▸ hlast))
    rw [Cursor.next, hadd]
    rfl
  have hloop : Settles (whileLoop (fun s ↦ .ok (decide (s.j < len))) (Cursor.next intAdd p) ·
      (cursor p 0)) (.error (.failed .overflow)) := by
    apply settles_while_body (cursor p) m
    · intro k hk
      have hkp := Nat.mul_le_mul_right p (Nat.succ_le_of_lt hk)
      have hadd : intAdd (k * p) p = .ok ((k + 1) * p) := intAdd_eq (hkp.trans_lt hle)
      exact ⟨congrArg Except.ok (htest k (Nat.le_of_lt hk)), next_cursor hadd⟩
    · exact congrArg Except.ok (htest m le_rfl)
    · exact hover
  rw [cursor_zero] at hloop
  exact hloop.bind_failed (q := fun s _ ↦ .ok s.touched)

theorem settles_size (hp : 0 < p) (hlen : len < 2 ^ 63) (hp' : p < 2 ^ 31) :
    Settles (touch sizeAdd len p) (.ok (offsets len p)) := by
  apply settles_touch hp
  intro k hk
  have := (lt_pages_iff hp).mp hk
  rw [sizeAdd, Nat.mod_eq_of_lt (by omega), Nat.succ_mul]

theorem settles_if {r : Except (Halt Fault) (List ℕ)} (h : Settles (touch add len p) r) (opt : Bool) :
    Settles (touchIf opt add len p) (if opt then r else .ok []) := by
  cases opt with
  | false => exact settles_const _
  | true => exact h

theorem settles_pages (h : Settles (touch add len p) (.ok (offsets len p))) (optr optw : Bool) :
    Settles (touchPages add len p optr optw)
      (.ok ⟨if optr then offsets len p else [], if optw then offsets len p else []⟩) := by
  have hread := settles_if h optr
  have hwritten := settles_if h optw
  rw [← apply_ite Except.ok] at hread hwritten
  exact hread.bind (q := fun read n ↦ touchIf optw add len p n >>= fun written ↦
    .ok (Touched.mk read written)) (hwritten.map _)

theorem settles_pages_overflow (h : Settles (touch add len p) (.error (.failed .overflow)))
    (hopt : optr || optw) : Settles (touchPages add len p optr optw) (.error (.failed .overflow)) := by
  have hread := settles_if h optr
  have hwritten := settles_if h optw
  let rest := fun read n ↦ touchIf optw add len p n >>= fun written ↦
    .ok (Touched.mk read written)
  cases optr with
  | true => exact hread.bind_failed (q := rest)
  | false =>
    cases optw with
    | true => exact hread.bind (q := rest) hwritten.bind_failed
    | false => cases hopt

def Program.increment : Program → ℕ → ℕ → Except (Halt Fault) ℕ
  | .mmap => sizeAdd
  | .munmap | .msync | .mprotect | .read | .pread => intAdd

/-- `munmap` takes every page for one of 4096 bytes. -/
def Program.stride (pagesize : ℕ) : Program → ℕ
  | .munmap => 4096
  | .msync | .mprotect | .read | .pread | .mmap => pagesize

theorem run_eq (hp : 0 < pagesize) (optl : ℕ) (optr optw : Bool) (prog : Program) :
    prog.run optl pagesize optr optw =
      touchPages prog.increment optl (prog.stride pagesize) (prog.reads && optr) optw := by
  have hread : touchPages intAdd optl (if optw then pagesize else 0) false
      (decide ((if optw then pagesize else 0) ≠ 0)) = touchPages intAdd optl pagesize false optw := by
    cases optw with
    | true => simp [hp.ne']
    | false => rfl
  cases prog with
  | munmap | msync | mprotect | mmap => rfl
  | read | pread => exact hread

theorem stride_pos (hp : 0 < pagesize) (prog : Program) : 0 < prog.stride pagesize := by
  cases prog with
  | munmap => exact Nat.succ_pos _
  | msync | mprotect | read | pread | mmap => exact hp

theorem settles_run_overflow (hp : 0 < pagesize) (hopt : prog.reads && optr || optw)
    (hprog : prog ≠ .mmap)
    (hge : 2 ^ 31 ≤ pages optl (prog.stride pagesize) * prog.stride pagesize) :
    Settles (prog.run optl pagesize optr optw) (.error (.failed .overflow)) := by
  have hadd : prog.increment = intAdd := by
    cases prog with
    | mmap => exact absurd rfl hprog
    | munmap | msync | mprotect | read | pread => rfl
  rw [run_eq hp, hadd]
  exact settles_pages_overflow (settles_int_overflow (stride_pos hp prog) hge) hopt

theorem settles_run (hl : optl < 2 ^ 63) (hp : 0 < pagesize) (hp' : pagesize < 2 ^ 31)
    (hfits : prog ≠ .mmap → pages optl (prog.stride pagesize) * prog.stride pagesize < 2 ^ 31) :
    Settles (prog.run optl pagesize optr optw)
      (.ok ⟨if prog.reads && optr then offsets optl (prog.stride pagesize) else [],
        if optw then offsets optl (prog.stride pagesize) else []⟩) := by
  have hpos := stride_pos hp prog
  have htouch : Settles (touch prog.increment optl (prog.stride pagesize))
      (.ok (offsets optl (prog.stride pagesize))) := by
    cases prog with
    | mmap => exact settles_size hpos hl hp'
    | munmap | msync | mprotect | read | pread => exact settles_int hpos (hfits nofun)
  rw [run_eq hp]
  exact settles_pages htouch _ _

theorem stride_offsets (hp : 0 < pagesize) :
    offsets optl (prog.stride pagesize) = offsets optl pagesize ↔
      (prog = .munmap → pagesize = 4096 ∨ optl ≤ min pagesize 4096) := by
  cases prog with
  | munmap =>
    rw [Program.stride, offsets_eq_iff (by norm_num) hp, eq_comm, min_comm]
    exact ⟨fun h _ ↦ h, fun h ↦ h rfl⟩
  | msync | mprotect | read | pread | mmap => exact iff_of_true rfl nofun

/-- The loops over an `int` do what they should as long as the length, rounded up to whole
pages, is an `int`, and `munmap` with pages of 4096 bytes. -/
theorem touches_once_iff (prog : Program) (optl pagesize : ℕ) (optr optw : Bool)
    (hl : optl < 2 ^ 63) (hp : 0 < pagesize) (hp' : pagesize < 2 ^ 31) :
    TouchesOnce prog optl pagesize optr optw ↔
      (prog.reads && optr || optw →
        (prog = .munmap → pagesize = 4096 ∨ optl ≤ min pagesize 4096) ∧
          (prog ≠ .mmap →
            pages optl (prog.stride pagesize) * prog.stride pagesize < 2 ^ 31)) := by
  constructor
  · rintro ⟨n, hn⟩ hopt
    have hfits : prog ≠ .mmap →
        pages optl (prog.stride pagesize) * prog.stride pagesize < 2 ^ 31 := by
      intro hprog
      by_contra hge
      exact (settles_run_overflow hp hopt hprog (Nat.le_of_not_lt hge)).not_returns n hn
    have heq := (settles_run hl hp hp' hfits).unique hn
    refine ⟨(stride_offsets hp).mp ?_, hfits⟩
    obtain ⟨hread, hwritten⟩ := Touched.mk.inj heq
    rcases Bool.or_eq_true_iff.mp hopt with hr | hw
    · simpa only [hr, if_true] using hread.symm
    · simpa only [hw, if_true] using hwritten.symm
  · intro h
    by_cases hopt : prog.reads && optr || optw
    · have hrun : Settles (prog.run optl pagesize optr optw) _ := settles_run hl hp hp' (h hopt).2
      rw [(stride_offsets hp).mpr (h hopt).1] at hrun
      exact hrun.returns
    · obtain ⟨hr, rfl⟩ := Bool.or_eq_false_iff.mp (Bool.eq_false_of_not_eq_true hopt)
      rw [TouchesOnce, run_eq hp, hr]
      exact ⟨0, rfl⟩

theorem touches_once_iff_two :
    TouchesOnce .munmap 8192 4096 true true ↔
      (Program.munmap.reads && true || true →
        (Program.munmap = .munmap → 4096 = 4096 ∨ 8192 ≤ min 4096 4096) ∧
          (Program.munmap ≠ .mmap →
            pages 8192 (Program.munmap.stride 4096) * Program.munmap.stride 4096 < 2 ^ 31)) :=
  touches_once_iff .munmap 8192 4096 true true (by norm_num) (by norm_num) (by norm_num)

theorem msync_overflows : ¬ ∀ prog optl pagesize optr optw, 0 < optl → optl < 2 ^ 63 → 0 < pagesize →
    pagesize < 2 ^ 31 → TouchesOnce prog optl pagesize optr optw := by
  intro h
  obtain ⟨n, hn⟩ := h .msync (2 ^ 31) 4096 true false (by norm_num) (by norm_num) (by norm_num)
    (by norm_num)
  have hover : Settles (Program.msync.run (2 ^ 31) 4096 true false) (.error (.failed .overflow)) :=
    settles_run_overflow (by norm_num) rfl nofun (by decide)
  exact hover.not_returns n hn

end LibMicro.Pages
