import Mathlib.Algebra.Group.Int.Defs
import Mathlib.Algebra.Group.Nat.Defs
import Mathlib.Data.Int.Basic
import Mathlib.Data.List.Basic
import Mathlib.Data.List.Induction
import Mathlib.Tactic.Common

namespace LibMicro.Pipe.ReadAll

inductive Result
  | bytes (l : List UInt8)
  | eof
  | error
  deriving DecidableEq

namespace Result

def count : Result → ℤ
  | bytes l => l.length
  | eof => 0
  | error => -1

def content : Result → List UInt8
  | bytes l => l
  | eof | error => []

def isBytes : Result → Bool
  | bytes _ => true
  | eof | error => false

end Result

inductive Outcome
  | waiting
  | returned (v : ℤ)
  | failed
  deriving DecidableEq

/-- The variables of `readall`: the buffer from its beginning on, and as history for what
offset and how many bytes `read` was asked. -/
structure Loop where
  total : BitVec 64
  buf : ℕ → Option UInt8
  requests : List (ℕ × ℕ)

def Loop.start : Loop := ⟨0, fun _ ↦ none, []⟩

def store (buf : ℕ → Option UInt8) (offset : ℕ) (l : List UInt8) (i : ℕ) : Option UInt8 :=
  if offset ≤ i ∧ i < offset + l.length then l[i - offset]? else buf i

/-- One round. The count becomes a `size_t`, and the result an `int`. -/
def Loop.step (len : BitVec 64) (s : Loop) (r : Result) : Loop × Outcome :=
  let s := { s with
    buf := store s.buf s.total.toNat r.content
    requests := s.requests ++ [(s.total.toNat, (len - s.total).toNat)] }
  let n := BitVec.ofInt 64 r.count
  if ¬ 1 ≤ n then (s, .failed)
  else
    let s := { s with total := s.total + n }
    if s.total = len then (s, .returned (s.total.setWidth 32).toInt)
    else if ¬ s.total < len then (s, .failed)
    else (s, .waiting)

def Loop.run (len : BitVec 64) (s : Loop) : List Result → Loop × Outcome
  | [] => (s, .waiting)
  | r :: rs =>
    match s.step len r with
    | (s, .waiting) => s.run len rs
    | done => done

/-- The call, as far as the results of `read` go. -/
def readall (len : BitVec 64) (rs : List Result) : Loop × Outcome := Loop.start.run len rs

def data (rs : List Result) : List UInt8 := rs.flatMap Result.content

/-- As long as nothing has failed, a count is between 1 and the number of bytes asked for. -/
def Answers (len : ℕ) (rs : List Result) : Prop :=
  ∀ pre l post, rs = pre ++ .bytes l :: post → (∀ r ∈ pre, r.isBytes) →
    (data pre).length < len → 1 ≤ l.length ∧ l.length ≤ len - (data pre).length

/-- All bytes have been read in order, each time the missing ones being asked for. -/
structure Complete (len : ℕ) (rs : List Result) (s : Loop) : Prop where
  length : (data rs).length = len
  stored : ∀ i < len, s.buf i = (data rs)[i]?
  requests : s.requests = (List.range rs.length).map fun k ↦
    ((data (rs.take k)).length, len - (data (rs.take k)).length)

/-- `readall` reads exactly `len` bytes or fails. -/
structure Exact (len : BitVec 64) (rs : List Result) : Prop where
  complete : ∀ v, (readall len rs).2 = .returned v →
    ∃ pre post, rs = pre ++ post ∧ (∀ r ∈ pre, r.isBytes) ∧
      Complete len.toNat pre (readall len rs).1
  failure : ∀ pre r post, rs = pre ++ r :: post → (∀ r ∈ pre, r.isBytes) →
    (data pre).length < len.toNat → ¬ r.isBytes →
    (readall len rs).2 = .failed ∧ (readall len rs).1.requests.length = pre.length + 1

/-- An error after some bytes, or one that makes the total equal to `len`. -/
def Unnoticed (len : ℕ) (rs : List Result) : Prop :=
  ∃ pre post, rs = pre ++ .error :: post ∧ (∀ r ∈ pre, r.isBytes) ∧ (data pre).length < len ∧
    (pre ≠ [] ∨ len = 2 ^ 64 - 1)

variable {len : BitVec 64} {s : Loop} {rs pre post : List Result} {r : Result} {l : List UInt8}

structure Loop.Holds (len : BitVec 64) (rs : List Result) (s : Loop) : Prop where
  total : s.total.toNat = (data rs).length
  stored : ∀ i < (data rs).length, s.buf i = (data rs)[i]?
  requests : s.requests = (List.range rs.length).map fun k ↦
    ((data (rs.take k)).length, len.toNat - (data (rs.take k)).length)

theorem data_concat (rs : List Result) (r : Result) : data (rs ++ [r]) = data rs ++ r.content := by
  simp [data]

theorem Loop.Holds.start (len : BitVec 64) : Loop.start.Holds len [] where
  total := rfl
  stored i hi := absurd hi (Nat.not_lt_zero i)
  requests := rfl

theorem map_take_concat {α : Type} (f : List Result → α) (rs : List Result) (r : Result) :
    ((List.range rs.length).map fun k ↦ f (rs.take k)) ++ [f rs] =
      (List.range (rs ++ [r]).length).map fun k ↦ f ((rs ++ [r]).take k) := by
  rw [List.length_append, List.length_singleton, List.range_succ, List.map_append,
    List.map_singleton, List.take_left]
  congr 1
  apply List.map_congr_left
  intro k hk
  rw [List.take_append_of_le_length (Nat.le_of_lt (List.mem_range.mp hk))]

theorem store_append {buf : ℕ → Option UInt8} (d l : List UInt8)
    (h : ∀ i < d.length, buf i = d[i]?) :
    ∀ i < (d ++ l).length, store buf d.length l i = (d ++ l)[i]? := by
  intro i hi
  rw [List.length_append] at hi
  rcases Nat.lt_or_ge i d.length with hlt | hge
  · rw [store, if_neg (by omega), h i hlt, List.getElem?_append_left hlt]
  · rw [store, if_pos ⟨hge, hi⟩, List.getElem?_append_right hge]

def Loop.next (len : BitVec 64) (s : Loop) (r : Result) : Loop where
  total := s.total + BitVec.ofInt 64 r.count
  buf := store s.buf s.total.toNat r.content
  requests := s.requests ++ [(s.total.toNat, (len - s.total).toNat)]

theorem Loop.step_of_lt (h₁ : 1 ≤ BitVec.ofInt 64 r.count) (h : (s.next len r).total < len) :
    s.step len r = (s.next len r, .waiting) := by
  have hne : (s.next len r).total ≠ len := BitVec.ne_of_lt h
  simp only [Loop.next] at h hne
  simp only [Loop.step, h₁, hne, h, not_true_eq_false, if_false, Loop.next]

theorem Loop.step_of_eq (h₁ : 1 ≤ BitVec.ofInt 64 r.count) (h : (s.next len r).total = len) :
    s.step len r = (s.next len r, .returned (len.setWidth 32).toInt) := by
  simp only [Loop.next] at h
  simp only [Loop.step, h₁, h, not_true_eq_false, if_false, if_true, Loop.next]

theorem Loop.step_of_gt (h₁ : 1 ≤ BitVec.ofInt 64 r.count) (h : len < (s.next len r).total) :
    s.step len r = (s.next len r, .failed) := by
  have hne : (s.next len r).total ≠ len := (BitVec.ne_of_lt h).symm
  have hlt : ¬ (s.next len r).total < len := BitVec.not_lt.mpr (BitVec.le_of_lt h)
  simp only [Loop.next] at hlt hne
  simp only [Loop.step, h₁, hne, hlt, not_true_eq_false, not_false_eq_true, if_false, if_true,
    Loop.next]

theorem toNat_count (h : l.length < 2 ^ 64) :
    (BitVec.ofInt 64 (Result.bytes l).count).toNat = l.length := by
  rw [Result.count, BitVec.ofInt_natCast, BitVec.toNat_ofNat]
  exact Nat.mod_eq_of_lt h

theorem Loop.Holds.next (h : s.Holds len rs)
    (hle : (data rs).length + l.length ≤ len.toNat) :
    (s.next len (.bytes l)).Holds len (rs ++ [.bytes l]) := by
  have hlen := len.isLt
  have hcount := toNat_count (show l.length < 2 ^ 64 by omega)
  have htotal := h.total
  constructor
  case total =>
    rw [Loop.next, BitVec.toNat_add, hcount, htotal, data_concat, List.length_append]
    exact Nat.mod_eq_of_lt (by omega)
  case stored =>
    rw [data_concat, Loop.next, htotal]
    exact store_append (data rs) l h.stored
  case requests =>
    have hasked : (len - s.total).toNat = len.toNat - (data rs).length := by
      rw [BitVec.toNat_sub_of_le (BitVec.le_def.mpr (by omega)), htotal]
    have hmap := map_take_concat (fun rs ↦ ((data rs).length, len.toNat - (data rs).length)) rs
      (.bytes l)
    rw [Loop.next, htotal, hasked, h.requests]
    exact hmap

section Run

variable {t : Loop} {o : Outcome}

theorem Loop.run_waiting (h : s.step len r = (t, .waiting)) (rs : List Result) :
    s.run len (r :: rs) = t.run len rs := by
  rw [Loop.run, h]

theorem Loop.run_done (h : s.step len r = (t, o)) (ho : o ≠ .waiting) (rs : List Result) :
    s.run len (r :: rs) = (t, o) := by
  rw [Loop.run, h]
  cases o with
  | waiting => exact absurd rfl ho
  | returned v | failed => rfl

theorem Loop.run_append (h : s.run len pre = (t, .waiting)) (rs : List Result) :
    s.run len (pre ++ rs) = t.run len rs := by
  induction pre generalizing s with
  | nil =>
    cases h
    rfl
  | cons r pre ih =>
    rw [List.cons_append]
    cases hs : s.step len r with
    | mk s' o =>
      by_cases ho : o = .waiting
      · subst ho
        rw [Loop.run_waiting hs] at h ⊢
        exact ih h
      · rw [Loop.run_done hs ho] at h
        cases h
        exact absurd rfl ho

theorem Loop.step_requests (len : BitVec 64) (s : Loop) (r : Result) :
    (s.step len r).1.requests.length = s.requests.length + 1 := by
  unfold Loop.step
  dsimp only
  split_ifs <;> simp

theorem Loop.run_failed (h : s.run len rs = (t, .failed)) : s.requests.length < t.requests.length := by
  induction rs generalizing s with
  | nil => cases h
  | cons r rs ih =>
    have hlen := s.step_requests len r
    cases hs : s.step len r with
    | mk s' o =>
      rw [hs] at hlen
      dsimp only at hlen
      by_cases ho : o = .waiting
      · subst ho
        rw [Loop.run_waiting hs] at h
        have := ih h
        omega
      · rw [Loop.run_done hs ho] at h
        cases h
        omega

end Run

theorem Answers.left (h : Answers len.toNat (pre ++ post)) : Answers len.toNat pre := by
  intro pre' l post' he
  apply h pre' l (post' ++ post)
  rw [he, List.append_assoc, List.cons_append]

theorem isBytes_iff : r.isBytes ↔ ∃ l, r = .bytes l := by
  cases r with
  | bytes l => exact iff_of_true rfl ⟨l, rfl⟩
  | eof | error => exact iff_of_false nofun nofun

theorem Answers.one_le_count (ha : Answers len.toNat (pre ++ .bytes l :: post))
    (hb : ∀ r ∈ pre, r.isBytes) (hlt : (data pre).length < len.toNat) :
    1 ≤ BitVec.ofInt 64 (Result.bytes l).count := by
  obtain ⟨h₁, hle⟩ := ha pre l post rfl hb hlt
  have hlen := len.isLt
  rw [BitVec.le_def, toNat_count (by omega)]
  exact h₁

theorem run_bytes (ha : Answers len.toNat rs) (hb : ∀ r ∈ rs, r.isBytes)
    (hlt : (data rs).length < len.toNat) :
    ∃ t, readall len rs = (t, .waiting) ∧ t.Holds len rs := by
  induction rs using List.reverseRecOn with
  | nil => exact ⟨_, rfl, .start len⟩
  | append_singleton rs r ih =>
    rw [List.forall_mem_append, List.forall_mem_singleton, isBytes_iff] at hb
    obtain ⟨hb, l, rfl⟩ := hb
    rw [data_concat, List.length_append] at hlt
    obtain ⟨t, ht, hholds⟩ := ih ha.left hb (by omega)
    have hnext := hholds.next (l := l) (Nat.le_of_lt hlt)
    have hcount := ha.one_le_count hb (by omega)
    have htotal : (t.next len (.bytes l)).total < len := by
      rw [BitVec.lt_def, hnext.total, data_concat, List.length_append]
      exact hlt
    refine ⟨_, ?_, hnext⟩
    rw [readall, Loop.run_append ht, Loop.run_waiting (Loop.step_of_lt hcount htotal)]
    rfl

theorem Answers.cases (ha : Answers len.toNat rs) (hlen : 0 < len.toNat) :
    (∃ pre l post, rs = pre ++ .bytes l :: post ∧ (∀ r ∈ pre, r.isBytes) ∧
        (data pre).length < len.toNat ∧ (data pre).length + l.length = len.toNat) ∨
      (∃ pre r post, rs = pre ++ r :: post ∧ (∀ r ∈ pre, r.isBytes) ∧
        (data pre).length < len.toNat ∧ ¬ r.isBytes) ∨
      (∀ r ∈ rs, r.isBytes) ∧ (data rs).length < len.toNat := by
  induction rs using List.reverseRecOn with
  | nil => exact .inr (.inr ⟨nofun, hlen⟩)
  | append_singleton rs r ih =>
    obtain ⟨pre, l, post, rfl, h⟩ | ⟨pre, r', post, rfl, h⟩ | ⟨hb, hlt⟩ := ih ha.left
    · exact .inl ⟨pre, l, post ++ [r], by simp, h⟩
    · exact .inr (.inl ⟨pre, r', post ++ [r], by simp, h⟩)
    · by_cases hr : r.isBytes
      · obtain ⟨l, rfl⟩ := isBytes_iff.mp hr
        obtain ⟨-, hle⟩ := ha rs l [] rfl hb hlt
        rcases Nat.lt_or_ge ((data rs).length + l.length) len.toNat with hlt' | hge
        · refine .inr (.inr ⟨?_, ?_⟩)
          · rw [List.forall_mem_append, List.forall_mem_singleton]
            exact ⟨hb, hr⟩
          · rw [data_concat, List.length_append]
            exact hlt'
        · exact .inl ⟨rs, l, [], rfl, hb, hlt, by omega⟩
      · exact .inr (.inl ⟨rs, r, [], rfl, hb, hlt, hr⟩)

theorem readall_complete (ha : Answers len.toNat (pre ++ .bytes l :: post))
    (hb : ∀ r ∈ pre, r.isBytes) (hlt : (data pre).length < len.toNat)
    (hsum : (data pre).length + l.length = len.toNat) :
    Complete len.toNat (pre ++ [.bytes l]) (readall len (pre ++ .bytes l :: post)).1 := by
  obtain ⟨t, ht, hholds⟩ := run_bytes ha.left hb hlt
  have hnext := hholds.next (l := l) (by omega)
  have hcount := ha.one_le_count hb hlt
  have hdata : (data (pre ++ [.bytes l])).length = len.toNat := by
    rw [data_concat, List.length_append]
    exact hsum
  have htotal : (t.next len (.bytes l)).total = len := by
    apply BitVec.eq_of_toNat_eq
    rw [hnext.total, hdata]
  have hrun : readall len (pre ++ .bytes l :: post) =
      (t.next len (.bytes l), .returned (len.setWidth 32).toInt) := by
    rw [readall, Loop.run_append ht, Loop.run_done (Loop.step_of_eq hcount htotal) nofun]
  rw [hrun]
  constructor
  case length => exact hdata
  case stored =>
    rw [← hdata]
    exact hnext.stored
  case requests => exact hnext.requests

theorem Loop.step_eof (len : BitVec 64) (s : Loop) : (s.step len .eof).2 = .failed := rfl

theorem one_le_count_error : 1 ≤ BitVec.ofInt 64 Result.error.count := by decide

theorem Loop.step_first_error (h : len.toNat ≠ 2 ^ 64 - 1) :
    (Loop.start.step len .error).2 = .failed := by
  have htotal : (Loop.start.next len .error).total = BitVec.ofNat 64 (2 ^ 64 - 1) := rfl
  have hgt : len < (Loop.start.next len .error).total := by
    have := len.isLt
    rw [htotal, BitVec.lt_def, BitVec.toNat_ofNat]
    omega
  rw [Loop.step_of_gt one_le_count_error hgt]

theorem Loop.step_first_error_max (h : len.toNat = 2 ^ 64 - 1) :
    ∃ v, Loop.start.step len .error = (Loop.start.next len .error, .returned v) := by
  have htotal : (Loop.start.next len .error).total = BitVec.ofNat 64 (2 ^ 64 - 1) := rfl
  have heq : (Loop.start.next len .error).total = len := by
    apply BitVec.eq_of_toNat_eq
    rw [htotal, h]
    rfl
  exact ⟨_, Loop.step_of_eq one_le_count_error heq⟩

theorem Loop.Holds.step_error (h : s.Holds len rs) (h₁ : 1 ≤ (data rs).length)
    (hlt : (data rs).length < len.toNat) :
    s.step len .error = (s.next len .error, .waiting) := by
  have hn : (BitVec.ofInt 64 Result.error.count).toNat = 2 ^ 64 - 1 := by decide
  have hlen := len.isLt
  apply Loop.step_of_lt one_le_count_error
  rw [BitVec.lt_def, Loop.next, BitVec.toNat_add, hn, h.total]
  omega

theorem one_le_data (ha : Answers len.toNat rs) (hb : ∀ r ∈ rs, r.isBytes)
    (hlt : (data rs).length < len.toNat) (hne : rs ≠ []) : 1 ≤ (data rs).length := by
  obtain ⟨pre, r, rfl⟩ := (List.eq_nil_or_concat' rs).resolve_left hne
  rw [List.forall_mem_append, List.forall_mem_singleton, isBytes_iff] at hb
  obtain ⟨hb, l, rfl⟩ := hb
  rw [data_concat, List.length_append] at hlt ⊢
  have := (ha pre l [] rfl hb (by omega)).1
  change 1 ≤ (data pre).length + l.length
  omega

theorem readall_fails {t : Loop} (ht : readall len pre = (t, .waiting)) (hholds : t.Holds len pre)
    (hstep : (t.step len r).2 = .failed) (post : List Result) :
    (readall len (pre ++ r :: post)).2 = .failed ∧
      (readall len (pre ++ r :: post)).1.requests.length = pre.length + 1 := by
  have hlen := t.step_requests len r
  cases hs : t.step len r with
  | mk t' o =>
    rw [hs] at hstep hlen
    obtain rfl : o = .failed := hstep
    rw [hholds.requests, List.length_map, List.length_range] at hlen
    rw [readall, Loop.run_append ht, Loop.run_done hs nofun]
    exact ⟨rfl, hlen⟩

theorem Unnoticed.not_exact (h : Unnoticed len.toNat rs) (ha : Answers len.toNat rs) :
    ¬ Exact len rs := by
  obtain ⟨pre, post, rfl, hb, hlt, hcase⟩ := h
  intro hexact
  obtain ⟨hfailed, hreads⟩ := hexact.failure pre .error post rfl hb hlt nofun
  obtain ⟨t, ht, hholds⟩ := run_bytes ha.left hb hlt
  rcases eq_or_ne pre [] with rfl | hne
  · have hmax := hcase.resolve_left fun h ↦ h rfl
    obtain ⟨v, hstep⟩ := Loop.step_first_error_max hmax
    rw [readall, List.nil_append, Loop.run_done hstep nofun] at hfailed
    cases hfailed
  · have hstep := hholds.step_error (one_le_data ha.left hb hlt hne) hlt
    rw [readall, Loop.run_append ht, Loop.run_waiting hstep] at hfailed hreads
    cases hrun : (t.next len .error).run len post with
    | mk t' o =>
      rw [hrun] at hfailed hreads
      dsimp only at hfailed hreads
      subst hfailed
      have hmore := Loop.run_failed hrun
      have hlen : (t.next len .error).requests.length = pre.length + 1 := by
        rw [Loop.next, List.length_append, hholds.requests, List.length_map, List.length_range]
        rfl
      omega

/-- `readall` does what it should if and only if no error goes unnoticed. -/
theorem readall_exact_iff (len : BitVec 64) (rs : List Result) (hlen : 0 < len.toNat)
    (ha : Answers len.toNat rs) : Exact len rs ↔ ¬ Unnoticed len.toNat rs := by
  constructor
  · intro hexact hu
    exact hu.not_exact ha hexact
  · intro hnoticed
    have hfailure : ∀ pre r post, rs = pre ++ r :: post → (∀ r ∈ pre, r.isBytes) →
        (data pre).length < len.toNat → ¬ r.isBytes →
        (readall len rs).2 = .failed ∧ (readall len rs).1.requests.length = pre.length + 1 := by
      rintro pre r post rfl hb hlt hr
      obtain ⟨t, ht, hholds⟩ := run_bytes ha.left hb hlt
      cases r with
      | bytes l => exact absurd rfl hr
      | eof => exact readall_fails ht hholds (t.step_eof len) post
      | error =>
        have hfirst : pre = [] := by
          by_contra hne
          exact hnoticed ⟨pre, post, rfl, hb, hlt, .inl hne⟩
        subst hfirst
        cases ht
        have hmax : len.toNat ≠ 2 ^ 64 - 1 := by
          intro hmax
          exact hnoticed ⟨[], post, rfl, hb, hlt, .inr hmax⟩
        exact readall_fails rfl hholds (Loop.step_first_error hmax) post
    refine ⟨fun v hv ↦ ?_, hfailure⟩
    obtain ⟨pre, l, post, rfl, hb, hlt, hsum⟩ | ⟨pre, r, post, he, hb, hlt, hr⟩ | ⟨hb, hlt⟩ :=
      ha.cases hlen
    · refine ⟨pre ++ [.bytes l], post, by simp, ?_, readall_complete ha hb hlt hsum⟩
      rw [List.forall_mem_append, List.forall_mem_singleton]
      exact ⟨hb, rfl⟩
    · cases hv.symm.trans (hfailure pre r post he hb hlt hr).1
    · obtain ⟨t, ht, -⟩ := run_bytes ha hb hlt
      rw [ht] at hv
      cases hv

theorem answers_nil (n : ℕ) : Answers n [] := by
  intro pre l post he
  simp at he

theorem answers_cons {n : ℕ} (h₁ : 1 ≤ l.length) (h : l.length ≤ n)
    (hrs : Answers (n - l.length) rs) : Answers n (.bytes l :: rs) := by
  intro pre l' post he hb hlt
  cases pre with
  | nil =>
    cases (List.cons.inj he).1
    exact ⟨h₁, h⟩
  | cons r pre =>
    obtain ⟨hr, hrest⟩ := List.cons.inj he
    subst hr
    have hlen : (data (.bytes l :: pre)).length = l.length + (data pre).length := by
      simp [data, Result.content]
    rw [hlen] at hlt ⊢
    have hin := hrs pre l' post hrest (fun r hr ↦ hb r (List.mem_cons_of_mem _ hr)) (by omega)
    exact ⟨hin.1, by omega⟩

theorem readall_exact_iff_three :
    (Exact 3 [.bytes [7, 8], .bytes [9]] ↔ ¬ Unnoticed 3 [.bytes [7, 8], .bytes [9]]) ∧
      ¬ Unnoticed 3 [.bytes [7, 8], .bytes [9]] ∧
      (Exact 3 [.bytes [7, 8], .error] ↔ ¬ Unnoticed 3 [.bytes [7, 8], .error]) ∧
      Unnoticed 3 [.bytes [7, 8], .error] := by
  have herror : Answers 1 [.error] := by
    intro pre l post he
    cases pre <;> simp at he
  refine ⟨readall_exact_iff 3 _ (by decide) ?_, ?_, readall_exact_iff 3 _ (by decide) ?_,
    [.bytes [7, 8]], [], rfl, by decide, by decide, .inl (by decide)⟩
  · exact answers_cons (by decide) (by decide) (answers_cons (by decide) (by decide) (answers_nil _))
  · rintro ⟨pre, post, he, -⟩
    have hmem : Result.error ∈ [Result.bytes [7, 8], .bytes [9]] := he ▸ by simp
    simp at hmem
  · exact answers_cons (by decide) (by decide) herror

/-- After one of two bytes an error is taken for a count of -1. -/
theorem readall_goes_on :
    Answers 2 [.bytes [7], .error] ∧ (readall 2 [.bytes [7], .error]).2 = .waiting ∧
      ¬ Exact 2 [.bytes [7], .error] := by
  have hrun : (readall 2 [.bytes [7], .error]).2 = .waiting := by decide
  refine ⟨?_, hrun, fun h ↦ ?_⟩
  · intro pre l post he hb hlt
    cases pre with
    | nil =>
      cases he
      decide
    | cons r pre =>
      have hrest := (List.cons.inj he).2
      cases pre <;> simp at hrest
  · have hfailed := (h.failure [.bytes [7]] .error [] rfl (by decide) (by decide) nofun).1
    cases hrun.symm.trans hfailed

end LibMicro.Pipe.ReadAll
