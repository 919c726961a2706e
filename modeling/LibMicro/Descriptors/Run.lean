import LibMicro.Descriptors.Model
import LibMicro.Harness.Bounded
import LibMicro.Harness.Completion

namespace LibMicro.Descriptors

open TransitionSystem DescriptorTable Harness

/-- What is known of `ts_fd`. -/
inductive Known
  | any
  | own
  | number (fd : ℕ)
  deriving DecidableEq

def Stmt.known (x : Known) : Stmt → Known
  | .once _ | .close _ => .any
  | .opens _ | .dup => .own
  | .assign fd => .number fd
  | .setsockopt => x

/-- How many descriptors a thread has open after a statement. -/
def Stmt.count (n : ℕ) : Stmt → ℕ
  | .opens m => n + m
  | .dup => n + 1
  | .close _ => n - 1
  | .once _ | .assign _ | .setsockopt => n

def known (l : List Stmt) : Known := l.foldl Stmt.known .any

def net (l : List Stmt) : ℕ := l.foldl Stmt.count 0

namespace Program

def before (prog : Program) : Callback → List Stmt
  | .pre => []
  | .benchmark => benchmarkPre prog
  | .post => benchmarkPre prog ++ Descriptors.benchmark prog

/-- What a thread leaves open in a round. -/
def leak (prog : Program) : ℕ := net (prog.before .post ++ prog.script .post)

/-- The callback that opens. -/
def opening : Program → Callback
  | .close _ | .setsockopt => .pre
  | .dup | .openFile | .socket | .socketpair => .benchmark

def peak (prog : Program) : ℕ := net (prog.before prog.opening ++ prog.script prog.opening)

/-- The descriptors that `T` threads need in round `r`, if `n` are open before. -/
def need (prog : Program) (T n r : ℕ) : ℕ := n + T * (r * prog.leak + prog.peak)

end Program

/-- A statement finds what it needs. Only `socketpair` leaves anything open, and it does not
open anything before the barrier. -/
def Fits (prog : Program) (c : Callback) (l : List Stmt) : Stmt → Prop
  | .opens n => 0 < n ∧ net l + n ≤ prog.peak ∧ (prog.leak = 0 ∨ c = .benchmark)
  | .dup => net l + 1 ≤ prog.peak ∧ (prog.leak = 0 ∨ c = .benchmark) ∧ prog = .dup
  | .close optb =>
    if optb then prog = .close true ∧ net l = 0 ∧ known l = .number 1024
    else 0 < net l ∧ known l = .own
  | .once _ | .assign _ | .setsockopt => True

/-- So do the statements that follow. -/
def FitsFrom (prog : Program) (c : Callback) : List Stmt → List Stmt → Prop
  | l, [] => net l ≤ prog.peak
  | l, s :: rest => net l ≤ prog.peak ∧ Fits prog c l s ∧ FitsFrom prog c (l ++ [s]) rest

section Scripts

variable {prog : Program} {c : Callback} {l m : List Stmt}

@[simp] theorem net_snoc (l : List Stmt) (s : Stmt) : net (l ++ [s]) = s.count (net l) := by
  simp [net]

@[simp] theorem known_snoc (l : List Stmt) (s : Stmt) : known (l ++ [s]) = s.known (known l) := by
  simp [known]

theorem FitsFrom.take (h : FitsFrom prog c l m) (k : ℕ) :
    net (l ++ m.take k) ≤ prog.peak ∧ ∀ s, m[k]? = some s → Fits prog c (l ++ m.take k) s := by
  induction m generalizing l k with
  | nil =>
    rw [List.take_nil, List.append_nil]
    refine ⟨h, fun s hs ↦ ?_⟩
    cases hs
  | cons s m ih =>
    obtain ⟨hle, hs, hrest⟩ := h
    cases k with
    | zero =>
      rw [List.take_zero, List.append_nil]
      refine ⟨hle, fun s' hs' ↦ ?_⟩
      cases hs'
      exact hs
    | succ k =>
      have := ih hrest k
      rwa [List.append_assoc] at this

theorem fitsFrom (prog : Program) (c : Callback) :
    FitsFrom prog c (prog.before c) (prog.script c) := by
  rcases prog with _ | _ | _ | (_ | _) | _ | _ <;> cases c <;>
    simp only [FitsFrom, Fits, Program.script, Program.before, benchmarkPre, benchmark,
      benchmarkPost, Bool.false_eq_true, if_true, if_false, and_true, true_and] <;> decide

end Scripts

section Tables

variable {T : ℕ} {ι : Type} {prog : Program} {e : Env ι} {I : Finset ℕ} {t t' : Fds T}
  {i j : Fin T}

def FdOk (t : Fds T) (i : Fin T) (fd : Option ℕ) : Known → Prop
  | .any => True
  | .own => ∃ n, fd = some n ∧ t n = some (some i)
  | .number n => fd = some n

theorem FdOk.mono {fd : Option ℕ} {k : Known} (h : FdOk t i fd k)
    (ht : ∀ n, t n = some (some i) → t' n = some (some i)) : FdOk t' i fd k := by
  cases k with
  | any => trivial
  | own =>
    obtain ⟨n, hn, hown⟩ := h
    exact ⟨n, hn, ht n hown⟩
  | number n => exact h

/-- The table of a process, where thread `i` has `n i` descriptors open. Of the inherited ones
only `close` can close one, the number 1024. -/
structure TableOk (prog : Program) (e : Env ι) (I : Finset ℕ) (t : Fds T) (fd : Fin T → Option ℕ)
    (k : Fin T → Known) (n : Fin T → ℕ) : Prop where
  count : ∀ i, (t.of (some i)).encard = n i
  fd : ∀ i, FdOk t i (fd i) (k i)
  kept : ∀ j ∈ I, t j = some none ∨ prog = .close true ∧ j = 1024
  only : ∀ j, t j = some none → j ∈ I
  below : ∀ j i, t j = some (some i) → j < e.limit

variable {fd : Fin T → Option ℕ} {k : Fin T → Known} {n : Fin T → ℕ}

theorem TableOk.of_none_le (h : TableOk prog e I t fd k n) : (t.of none).encard ≤ I.card := by
  rw [← Set.encard_coe_eq_coe_finsetCard]
  exact Set.encard_le_encard fun j hj ↦ h.only j hj

theorem TableOk.used (h : TableOk prog e I t fd k n) :
    t.used.encard = (t.of none).encard + (∑ i, n i : ℕ) := by
  rw [encard_used, Fintype.sum_option, Nat.cast_sum]
  exact congrArg _ (Finset.sum_congr rfl fun i _ ↦ h.count i)

theorem TableOk.used_le (h : TableOk prog e I t fd k n) :
    t.used.encard ≤ (I.card + ∑ i, n i : ℕ) := by
  rw [h.used, Nat.cast_add]
  exact add_le_add_left h.of_none_le _

/-- What is open at the same time is below the limit. -/
theorem TableOk.le_limit (h : TableOk prog e I t fd k n) (hprog : prog ≠ .close true)
    (hI : ∀ j ∈ I, j < e.limit) : I.card + ∑ i, n i ≤ e.limit := by
  have hof : t.of none = (I : Set ℕ) := by
    ext j
    refine ⟨h.only j, fun hj ↦ ?_⟩
    rcases h.kept j hj with hj | ⟨hp, -⟩
    · exact hj
    · exact absurd hp hprog
  have hsub : t.used ⊆ (Finset.range e.limit : Set ℕ) := by
    intro j hj
    obtain ⟨a, ha⟩ := Option.ne_none_iff_exists'.mp hj
    rw [Finset.mem_coe, Finset.mem_range]
    cases a with
    | none => exact hI j (h.only j ha)
    | some i => exact h.below j i ha
  have hle := Set.encard_le_encard hsub
  rw [h.used, hof, Set.encard_coe_eq_coe_finsetCard, Set.encard_coe_eq_coe_finsetCard,
    Finset.card_range, ← Nat.cast_add, Nat.cast_le] at hle
  exact hle

theorem TableOk.opens (h : TableOk prog e I t fd k n) {m : ℕ} (hm : 0 < m) {fds : List ℕ}
    (ho : Table.opens e.limit (some i) m t = some (t', fds)) :
    TableOk prog e I t' (Function.update fd i fds.head?) (Function.update k i .own)
      (Function.update n i (n i + m)) := by
  obtain ⟨hlen, hnew, hold, hcount, hother⟩ := opens_some ho
  have hkeep (j : ℕ) (hj : t j ≠ none) : t' j = t j := hold j fun hmem ↦ hj (hnew j hmem).2.1
  constructor
  case count =>
    intro j
    by_cases hj : j = i
    · subst hj
      rw [Function.update_self, hcount, h.count, Nat.cast_add]
    · rw [Function.update_of_ne hj, hother _ fun he ↦ hj (Option.some.inj he), h.count]
  case fd =>
    intro j
    by_cases hj : j = i
    · subst hj
      rw [Function.update_self, Function.update_self]
      cases fds with
      | nil => exact absurd hlen hm.ne
      | cons a fds => exact ⟨a, rfl, (hnew a List.mem_cons_self).2.2⟩
    · rw [Function.update_of_ne hj, Function.update_of_ne hj]
      exact (h.fd j).mono fun a ha ↦ (hkeep a (by simp [ha])).trans ha
  case kept =>
    intro j hj
    refine (h.kept j hj).imp_left fun ha ↦ ?_
    exact (hkeep j (by simp [ha])).trans ha
  case only =>
    intro j hj
    by_cases hmem : j ∈ fds
    · rw [(hnew j hmem).2.2] at hj
      cases hj
    · exact h.only j ((hold j hmem).symm.trans hj)
  case below =>
    intro j i' hj
    by_cases hmem : j ∈ fds
    · exact (hnew j hmem).1
    · exact h.below j i' ((hold j hmem).symm.trans hj)

theorem TableOk.close (h : TableOk prog e I t fd k n) {a m : ℕ} (ha : t a = some (some i))
    (hn : n i = m + 1) (hc : t.close a = some t') :
    TableOk prog e I t' fd (Function.update k i .any) (Function.update n i m) := by
  constructor
  case count =>
    intro j
    by_cases hj : j = i
    · subst hj
      have hcount := encard_of_close hc ha
      rw [h.count, hn, Nat.cast_succ] at hcount
      rw [Function.update_self]
      exact ENat.add_left_injective_of_ne_top ENat.one_ne_top hcount
    · rw [Function.update_of_ne hj, of_close_other hc ha fun he ↦ hj (Option.some.inj he), h.count]
  case fd =>
    intro j
    by_cases hj : j = i
    · subst hj
      rw [Function.update_self]
      trivial
    · rw [Function.update_of_ne hj]
      exact (h.fd j).mono fun b hb ↦
        (close_other hc ha (fun he ↦ hj (Option.some.inj he)) b).mpr hb
  case kept =>
    intro j hj
    refine (h.kept j hj).imp_left fun hb ↦ ?_
    exact (close_other hc ha (by simp) j).mpr hb
  case only =>
    intro j hj
    exact h.only j ((close_other hc ha (by simp) j).mp hj)
  case below =>
    intro j i' hj
    refine h.below j i' ?_
    rw [close_apply hc] at hj
    split_ifs at hj
    exact hj

/-- Where no thread has anything open, a number can only be an inherited one. -/
theorem TableOk.closeAny (h : TableOk (.close true) e I t fd k n) (hn : ∀ j, n j = 0)
    (hc : t.close 1024 = some t') :
    TableOk (.close true) e I t' fd (Function.update k i .any) n := by
  have hnone (a : ℕ) (j : Fin T) : t a ≠ some (some j) := by
    intro ha
    have hcount := h.count j
    rw [hn j, Nat.cast_zero, Set.encard_eq_zero] at hcount
    have hmem : a ∈ t.of (some j) := ha
    rw [hcount] at hmem
    exact hmem
  have hafter (a : ℕ) (j : Fin T) : t' a ≠ some (some j) := by
    rw [close_apply hc]
    split_ifs
    · exact nofun
    · exact hnone a j
  constructor
  case count =>
    intro j
    rw [hn j, Nat.cast_zero, Set.encard_eq_zero]
    exact Set.eq_empty_of_forall_notMem fun a ↦ hafter a j
  case fd =>
    intro j
    by_cases hj : j = i
    · subst hj
      rw [Function.update_self]
      trivial
    · rw [Function.update_of_ne hj]
      exact (h.fd j).mono fun b hb ↦ absurd hb (hnone b j)
  case kept =>
    intro j hj
    by_cases he : j = 1024
    · exact .inr ⟨rfl, he⟩
    · refine (h.kept j hj).imp_left fun hb ↦ ?_
      rw [close_apply hc, if_neg he]
      exact hb
  case only =>
    intro j hj
    rw [close_apply hc] at hj
    split_ifs at hj
    exact h.only j hj
  case below =>
    intro j i' hj
    exact absurd hj (hafter j i')

/-- The table stays as it is. -/
theorem TableOk.set (h : TableOk prog e I t fd k n) {a : Option ℕ} {x : Known}
    (ha : FdOk t i a x) :
    TableOk prog e I t (Function.update fd i a) (Function.update k i x) n where
  count := h.count
  fd j := by
    by_cases hj : j = i
    · subst hj
      rwa [Function.update_self, Function.update_self]
    · rw [Function.update_of_ne hj, Function.update_of_ne hj]
      exact h.fd j
  kept := h.kept
  only := h.only
  below := h.below

variable {c : Callback} {l : List Stmt} {ts ts' : TsdT} {r m : ℕ} {fault ok : Bool}

theorem TableOk.execOpens (h : TableOk prog e I t fd k n) (hm : 0 < m)
    (hres : Descriptors.execOpens e i t ts fault m = (t', ts', ok)) :
    ok = true ∧ TableOk prog e I t' (Function.update fd i ts'.tsFd) (Function.update k i .own)
        (Function.update n i (n i + m)) ∨
      ok = false ∧ (e.limit < I.card + ∑ j, n j + m ∨ fault = true) := by
  unfold Descriptors.execOpens at hres
  cases fault with
  | true =>
    simp only [if_true] at hres
    cases hres
    exact .inr ⟨rfl, .inr rfl⟩
  | false =>
    simp only [Bool.false_eq_true, if_false] at hres
    cases ho : Table.opens e.limit (some i) m t with
    | none =>
      rw [ho] at hres
      cases hres
      have hlt := (opens_none ho).trans_le (add_le_add_left h.used_le (m : ℕ∞))
      rw [← Nat.cast_add, Nat.cast_lt] at hlt
      exact .inr ⟨rfl, .inl hlt⟩
    | some p =>
      obtain ⟨t₁, fds⟩ := p
      rw [ho] at hres
      cases hres
      exact .inl ⟨rfl, h.opens hm ho⟩

/-- The file of `dup` has stayed open, if it could be opened. -/
theorem TableOk.dup (h : TableOk prog e I t fd k n) (hprog : prog = .dup)
    (hdup : ∀ a, e.fd = some a → a ∈ I)
    (hres : Descriptors.exec e i t ts fault .dup = (t', ts', ok)) :
    ok = false ∧ e.fd = none ∨ Descriptors.execOpens e i t ts fault 1 = (t', ts', ok) := by
  cases he : e.fd with
  | none =>
    simp only [Descriptors.exec, he, Option.bind_none, Option.isSome_none, Bool.false_eq_true,
      if_false] at hres
    cases hres
    exact .inl ⟨rfl, rfl⟩
  | some a =>
    have hopen : t a = some none := by
      rcases h.kept a (hdup a he) with hopen | ⟨hp, -⟩
      · exact hopen
      · rw [hprog] at hp
        cases hp
    simp only [Descriptors.exec, he, Option.bind_some, hopen, Option.isSome_some, if_true] at hres
    exact .inr hres

theorem TableOk.closeOwn (h : TableOk prog e I t fd k n) (hfd : fd i = ts.tsFd)
    (hknown : k i = .own) (hn : n i = m + 1)
    (hres : Descriptors.exec e i t ts fault (.close false) = (t', ts', ok)) :
    ok = !fault ∧ TableOk prog e I t' (Function.update fd i ts'.tsFd) (Function.update k i .any)
      (Function.update n i m) := by
  have hown := h.fd i
  rw [hknown, hfd] at hown
  obtain ⟨a, ha, hta⟩ := hown
  obtain ⟨t₁, hc⟩ := close_ne_none (show t a ≠ none by simp [hta])
  simp only [Descriptors.exec, ha, Option.bind_some, hc] at hres
  cases hres
  rw [← hfd, Function.update_eq_self]
  exact ⟨Bool.false_or _, h.close hta hn hc⟩

theorem TableOk.closeNumber (h : TableOk (.close true) e I t fd k n) (hfd : fd i = ts.tsFd)
    (hknown : k i = .number 1024) (hzero : ∀ j, n j = 0)
    (hres : Descriptors.exec e i t ts fault (.close true) = (t', ts', ok)) :
    ok = true ∧ TableOk (.close true) e I t' (Function.update fd i ts'.tsFd)
      (Function.update k i .any) n := by
  have hown := h.fd i
  rw [hknown, hfd] at hown
  obtain hown : ts.tsFd = some 1024 := hown
  simp only [Descriptors.exec, hown, Option.bind_some] at hres
  cases hc : t.close 1024 with
  | none =>
    rw [hc] at hres
    cases hres
    exact ⟨rfl, h.set trivial⟩
  | some t₁ =>
    rw [hc] at hres
    cases hres
    rw [← hfd, Function.update_eq_self]
    exact ⟨Bool.true_or _, h.closeAny hzero hc⟩

/-- Why `LM_CHK` stops a process: there are too few descriptors, `dup` could not open its file, or
the kernel has found another fault. -/
def Lacks (prog : Program) (e : Env ι) (c : Callback) (l : List Stmt) (used : ℕ) (fault : Bool) :
    Prop :=
  ((prog.leak = 0 ∨ c = .benchmark) ∧ ∃ m, net l + m ≤ prog.peak ∧ e.limit < used + m) ∨
    prog = .dup ∧ e.fd = none ∨ fault = true

/-- A statement does what is expected of it, or its `LM_CHK` fails for a reason. -/
theorem TableOk.exec (h : TableOk prog e I t fd k n) {s : Stmt} (hfits : Fits prog c l s)
    (hk : k i = known l) (hfd : fd i = ts.tsFd) (hn : n i = r * prog.leak + net l)
    (hdup : prog = .dup → ∀ a, e.fd = some a → a ∈ I)
    (hzero : prog = .close true → ∀ j, n j = 0)
    (hres : Descriptors.exec e i t ts fault s = (t', ts', ok)) :
    ok = true ∧ TableOk prog e I t' (Function.update fd i ts'.tsFd)
        (Function.update k i (s.known (known l)))
        (Function.update n i (r * prog.leak + s.count (net l))) ∨
      ok = false ∧ Lacks prog e c l (I.card + ∑ j, n j) fault := by
  have hsame : Function.update n i (r * prog.leak + net l) = n := by
    rw [← hn]
    exact Function.update_eq_self i n
  have hopens (m : ℕ) (hm : 0 < m) (hpeak : net l + m ≤ prog.peak)
      (hwhen : prog.leak = 0 ∨ c = .benchmark)
      (hres : Descriptors.execOpens e i t ts fault m = (t', ts', ok)) :
      ok = true ∧ TableOk prog e I t' (Function.update fd i ts'.tsFd) (Function.update k i .own)
          (Function.update n i (r * prog.leak + (net l + m))) ∨
        ok = false ∧ Lacks prog e c l (I.card + ∑ j, n j) fault := by
    rw [← add_assoc, ← hn]
    refine (h.execOpens hm hres).imp_right fun hfailed ↦ ?_
    obtain ⟨hok, hlacks⟩ := hfailed
    exact ⟨hok, hlacks.imp (fun hlt ↦ ⟨hwhen, m, hpeak, hlt⟩) .inr⟩
  cases s with
  | once malloc =>
    cases hres
    cases hfault : !(malloc && ts.tsOnce = 0 && fault) with
    | true =>
      left
      simp only [Stmt.count, hsame]
      exact ⟨trivial, h.set trivial⟩
    | false => exact .inr ⟨rfl, .inr (.inr (by simp_all))⟩
  | opens m =>
    obtain ⟨hm, hpeak, hwhen⟩ := hfits
    exact hopens m hm hpeak hwhen hres
  | dup =>
    obtain ⟨hpeak, hwhen, hprog⟩ := hfits
    rcases h.dup hprog (hdup hprog) hres with ⟨hok, he⟩ | hres
    · exact .inr ⟨hok, .inr (.inl ⟨hprog, he⟩)⟩
    · exact hopens 1 Nat.one_pos hpeak hwhen hres
  | assign a =>
    cases hres
    left
    simp only [Stmt.count, hsame]
    exact ⟨trivial, h.set rfl⟩
  | setsockopt =>
    cases hres
    cases fault with
    | true => exact .inr ⟨rfl, .inr (.inr rfl)⟩
    | false =>
      left
      simp only [Stmt.count, hsame, Stmt.known]
      rw [← hk, ← hfd]
      exact ⟨rfl, h.set (h.fd i)⟩
  | close optb =>
    cases optb with
    | false =>
      obtain ⟨hpos, hknown⟩ := hfits
      have hsucc : n i = r * prog.leak + (net l - 1) + 1 := by omega
      obtain ⟨hok, htable⟩ := h.closeOwn hfd (hk.trans hknown) hsucc hres
      cases fault with
      | true => exact .inr ⟨hok, .inr (.inr rfl)⟩
      | false => exact .inl ⟨hok, htable⟩
    | true =>
      obtain ⟨rfl, hnet, hknown⟩ := hfits
      have hcount : Function.update n i
          (r * (Program.close true).leak + (Stmt.close true).count (net l)) = n := by
        rw [← hsame, Function.update_idem, hnet]
        rfl
      rw [hcount]
      exact .inl (h.closeNumber hfd (hk.trans hknown) (hzero rfl) hres)

end Tables

section Places

variable {prog : Program} {n k : ℕ} {s : Stmt}

/-- The statements of the round that a worker has done. -/
def Program.doneAt (prog : Program) (w : Rounds.Worker ℕ) : List Stmt :=
  prog.before (callbackAt w.calls) ++ (prog.script (callbackAt w.calls)).take (w.place.getD 0)

def Program.held (prog : Program) (w : Rounds.Worker ℕ) : ℕ :=
  w.calls / 3 * prog.leak + net (prog.doneAt w)

theorem held_le (prog : Program) (w : Rounds.Worker ℕ) :
    prog.held w ≤ w.calls / 3 * prog.leak + prog.peak :=
  Nat.add_le_add_left ((fitsFrom prog (callbackAt w.calls)).take (w.place.getD 0)).1 _

theorem held_zero (w : Rounds.Worker ℕ) : (Program.close true).held w = 0 :=
  Nat.le_zero.mp (held_le (.close true) w)

theorem doneAt_call (h : (prog.script (callbackAt n))[k]? = some s) :
    prog.doneAt ⟨n, some (k + 1)⟩ = prog.doneAt ⟨n, some k⟩ ++ [s] := by
  have htake : (prog.script (callbackAt n)).take (k + 1) =
      (prog.script (callbackAt n)).take k ++ [s] := by
    rw [List.take_add_one, h]
    rfl
  simp only [Program.doneAt, Option.getD_some, htake, List.append_assoc]

theorem before_next (prog : Program) (c : Callback) (hc : callbackAt n = c) (hpost : c ≠ .post) :
    prog.before (callbackAt (n + 1)) = prog.before c ++ prog.script c := by
  have hmod := mod_callbackAt n
  rw [hc] at hmod
  cases c with
  | pre =>
    rw [callbackAt_eq .benchmark (by simp only [Callback.before] at hmod ⊢; omega)]
    rfl
  | benchmark =>
    rw [callbackAt_eq .post (by simp only [Callback.before] at hmod ⊢; omega)]
    rfl
  | post => exact absurd rfl hpost

/-- A worker that comes back has what it had. -/
theorem held_back (hk : k = (prog.script (callbackAt n)).length) :
    prog.held ⟨n + 1, none⟩ = prog.held ⟨n, some k⟩ ∧
      (known (prog.doneAt ⟨n + 1, none⟩) = .any ∨
        known (prog.doneAt ⟨n + 1, none⟩) = known (prog.doneAt ⟨n, some k⟩)) := by
  have hmod := mod_callbackAt n
  have hdone : prog.doneAt ⟨n, some k⟩ =
      prog.before (callbackAt n) ++ prog.script (callbackAt n) := by
    simp only [Program.doneAt, Option.getD_some, hk, List.take_length]
  by_cases hpost : callbackAt n = .post
  · rw [hpost] at hmod hdone
    have hmod : n % 3 = 2 := hmod
    have hnext : prog.doneAt ⟨n + 1, none⟩ = [] := by
      rw [Program.doneAt, callbackAt_eq .pre (by simp only [Callback.before]; omega)]
      rfl
    refine ⟨?_, .inl (by rw [hnext]; rfl)⟩
    simp only [Program.held, hnext, hdone]
    rw [show (n + 1) / 3 = n / 3 + 1 by omega, Nat.succ_mul]
    rfl
  · have hnext : prog.doneAt ⟨n + 1, none⟩ = prog.doneAt ⟨n, some k⟩ := by
      rw [hdone, ← before_next prog _ rfl hpost]
      simp [Program.doneAt]
    have hthird : (n + 1) / 3 = n / 3 := by
      have hlt : (callbackAt n).before < 2 := by
        cases hc : callbackAt n with
        | pre | benchmark => decide
        | post => exact absurd hc hpost
      omega
    refine ⟨?_, .inr (by rw [hnext])⟩
    simp only [Program.held, hnext, hthird]

theorem opening_ne_post (prog : Program) : prog.opening ≠ .post := by
  rcases prog with _ | _ | _ | _ | _ | _ <;> exact nofun

/-- A worker that has come back from the callback that opens. -/
theorem held_opened (r : ℕ) :
    prog.held ⟨3 * r + prog.opening.before + 1, none⟩ = r * prog.leak + prog.peak := by
  obtain ⟨hc, hr⟩ := callbackAt_before r prog.opening
  have hnext := before_next prog prog.opening hc (opening_ne_post prog)
  have hlt : prog.opening.before < 2 := by
    have := opening_ne_post prog
    cases hc : prog.opening with
    | pre | benchmark => decide
    | post => exact absurd hc this
  have hround : (3 * r + prog.opening.before + 1) / 3 = r := by omega
  simp only [Program.held, Program.doneAt, hround, hnext, Option.getD_none, List.take_zero,
    List.append_nil]
  rfl

end Places

section Runs

variable {opt : Options} {prog : Program} {e : Env (WorkerId opt)} {I : Finset ℕ}
  {t t' : Rounds.State (WorkerId opt) (Shared opt) ℕ} {u : WorkerId opt}

/-- The thread that `u` is, among those of its process. -/
theorem thread_update {β : Type} (f : Rounds.Worker ℕ → β)
    (h : ∀ v ≠ u, t'.worker v = t.worker v) :
    (fun i ↦ f (t'.worker (u.1, i))) =
      Function.update (fun i ↦ f (t.worker (u.1, i))) u.2 (f (t'.worker u)) := by
  funext i
  by_cases hi : i = u.2
  · subst hi
    rw [Function.update_self]
  · rw [Function.update_of_ne hi, h]
    intro he
    exact hi (congrArg Prod.snd he)

def Tables (prog : Program) (e : Env (WorkerId opt)) (I : Finset ℕ)
    (t : Rounds.State (WorkerId opt) (Shared opt) ℕ) (p : Fin opt.lmOptP) : Prop :=
  TableOk prog e I (t.shared.table p) (fun i ↦ (t.shared.tsd (p, i)).tsFd)
    (fun i ↦ known (prog.doneAt (t.worker (p, i)))) (fun i ↦ prog.held (t.worker (p, i)))

/-- Why a worker has stopped its process: more descriptors are needed than there are, `dup` could
not open its file, or the kernel has found a fault in the call that the worker has just made. -/
def Stopped (prog : Program) (e : Env (WorkerId opt)) (n : ℕ) (u : WorkerId opt)
    (w : Rounds.Worker ℕ) : Prop :=
  e.limit < prog.need opt.lmOptT n (w.calls / 3) ∨ prog = .dup ∧ e.fd = none ∨
    ∃ k, w.place = some (k + 1) ∧ e.faults u (callbackAt w.calls) (w.calls / 3) k = true

/-- In a process that has exited a worker has stopped it, and where all threads have opened
theirs there were enough descriptors. -/
structure Inv (prog : Program) (e : Env (WorkerId opt)) (I : Finset ℕ)
    (t : Rounds.State (WorkerId opt) (Shared opt) ℕ) : Prop where
  table : ∀ p, t.shared.exited p = false → Tables prog e I t p
  place : ∀ u k, (t.worker u).place = some k →
    k ≤ (prog.script (callbackAt (t.worker u).calls)).length
  failed : ∀ p, t.shared.exited p = true → ∃ i, Stopped prog e I.card (p, i) (t.worker (p, i))
  enough : (∀ j ∈ I, j < e.limit) → ∀ p r,
    (∀ i, 3 * r + prog.opening.before + 1 ≤ (t.worker (p, i)).calls) →
      prog.need opt.lmOptT I.card r ≤ e.limit

theorem Tables.other {p : Fin opt.lmOptP} (h : Tables prog e I t p)
    (hworker : ∀ i, t'.worker (p, i) = t.worker (p, i))
    (htable : t'.shared.table p = t.shared.table p)
    (htsd : ∀ i, t'.shared.tsd (p, i) = t.shared.tsd (p, i)) : Tables prog e I t' p := by
  simp only [Tables, hworker, htable, htsd] at h ⊢
  exact h

theorem start_inv (hopt : 0 < opt.lmOptT) : Inv prog e I (Rounds.start (begun opt I)) where
  table p _ := by
    have hnone (a : ℕ) (i : Fin opt.lmOptT) : (inherited I : Fds opt.lmOptT) a ≠ some (some i) := by
      unfold inherited
      split_ifs <;> exact nofun
    constructor
    case count =>
      intro i
      have hheld : prog.held ⟨0, none⟩ = 0 := by
        simp [Program.held, Program.doneAt, callbackAt, Program.before, net]
      rw [show (Rounds.start (begun opt I) : Rounds.State (WorkerId opt) _ ℕ).worker (p, i) =
        ⟨0, none⟩ from rfl, hheld, Nat.cast_zero, Set.encard_eq_zero]
      exact Set.eq_empty_of_forall_notMem fun a ↦ hnone a i
    case fd => exact fun i ↦ trivial
    case kept => exact fun j hj ↦ .inl (if_pos hj)
    case only =>
      intro j hj
      by_contra hn
      rw [show (Rounds.start (begun opt I) : Rounds.State (WorkerId opt) _ ℕ).shared.table p j =
        none from if_neg hn] at hj
      cases hj
    case below => exact fun j i hj ↦ absurd hj (hnone j i)
  place u k hk := by cases hk
  failed p hp := by cases hp
  enough _ p r h := absurd (h ⟨0, hopt⟩) (Nat.not_succ_le_zero _)

theorem Inv.enter (h : Inv prog e I t) (hplace : (t.worker u).place = none) :
    Inv prog e I (t.enter u 0) := by
  have hdone (v : WorkerId opt) : prog.doneAt ((t.enter u 0).worker v) = prog.doneAt (t.worker v) ∧
      ((t.enter u 0).worker v).calls = (t.worker v).calls := by
    refine ⟨?_, Rounds.enter_calls⟩
    by_cases hv : v = u
    · subst hv
      rw [Rounds.enter_worker_self]
      simp only [Program.doneAt, Rounds.Worker.enter, hplace, Option.getD_some, Option.getD_none]
    · rw [Rounds.enter_worker_of_ne hv]
  constructor
  case table =>
    intro p hp
    have htable := h.table p hp
    simp only [Tables, Program.held, hdone] at htable ⊢
    exact htable
  case place =>
    intro v k hk
    rw [(hdone v).2]
    by_cases hv : v = u
    · subst hv
      rw [Rounds.enter_place] at hk
      cases hk
      exact Nat.zero_le _
    · rw [Rounds.enter_worker_of_ne hv] at hk
      exact h.place v k hk
  case failed =>
    intro p hp
    obtain ⟨i, hi⟩ := h.failed p hp
    refine ⟨i, ?_⟩
    by_cases hpi : (p, i) = u
    · subst hpi
      rw [Stopped, (hdone (p, i)).2]
      refine hi.imp_right (.imp_right fun hfault ↦ ?_)
      obtain ⟨k, hk, -⟩ := hfault
      simp [hplace] at hk
    · rwa [Rounds.enter_worker_of_ne hpi]
  case enough =>
    intro hI p r hr
    exact h.enough hI p r fun i ↦ (hr i).trans_eq (hdone (p, i)).2

/-- The last thread of a process has opened what it opens, and nobody has gone on. -/
theorem need_le (htable : Tables prog e I t u.1) (hI : ∀ j ∈ I, j < e.limit) {r : ℕ}
    (hall : ∀ i, t.worker (u.1, i) = ⟨3 * r + prog.opening.before + 1, none⟩) :
    prog.need opt.lmOptT I.card r ≤ e.limit := by
  by_cases hprog : prog = .close true
  · subst hprog
    have hcard := Finset.card_le_card fun j hj ↦ Finset.mem_range.mpr (hI j hj)
    rw [Finset.card_range] at hcard
    exact hcard
  · have hle := htable.le_limit hprog hI
    simp only [hall, held_opened, Finset.sum_const, Finset.card_univ, Fintype.card_fin,
      smul_eq_mul] at hle
    exact hle

theorem Tables.back {k : ℕ} (h : Tables prog e I t u.1) (hplace : (t.worker u).place = some k)
    (hk : k = (prog.script (callbackAt (t.worker u).calls)).length) :
    Tables prog e I (t.move u t.shared none) u.1 := by
  have hother (v : WorkerId opt) (hv : v ≠ u) : (t.move u t.shared none).worker v = t.worker v :=
    Rounds.move_worker_of_ne _ hv
  have hself : (t.move u t.shared none).worker u = ⟨(t.worker u).calls + 1, none⟩ := by
    rw [Rounds.move_worker_self]
    rfl
  have hwas : t.worker u = ⟨(t.worker u).calls, some k⟩ := by rw [← hplace]
  obtain ⟨hheld, hknown⟩ := held_back hk
  rw [← hself, ← hwas] at hheld hknown
  have hset := h.set (i := u.2) (a := (t.shared.tsd (u.1, u.2)).tsFd)
    (x := known (prog.doneAt ((t.move u t.shared none).worker u))) (by
      rcases hknown with he | he
      · rw [he]
        trivial
      · rw [he]
        exact h.fd u.2)
  have hn := thread_update prog.held hother
  rw [hheld] at hn
  rw [Function.update_eq_self u.2 fun i ↦ (t.shared.tsd (u.1, i)).tsFd] at hset
  unfold Tables
  rw [thread_update (fun w ↦ known (prog.doneAt w)) hother, hn,
    Function.update_eq_self u.2 fun i ↦ prog.held (t.worker (u.1, i))]
  exact hset

/-- The last thread that comes back from the callback that opens finds the others there. -/
theorem opened_last {r : ℕ} (hreach : (Phases.system (callbacks opt prog e).body
      (· = begun opt I)).Reachable t) (hcount : (t.worker u).calls = 3 * r + prog.opening.before)
    {i : Fin opt.lmOptT} (hr : 3 * r + prog.opening.before + 1 ≤ (t.worker (u.1, i)).calls) :
    t.worker (u.1, i) = ⟨3 * r + prog.opening.before + 1, none⟩ := by
  have hgate : (callbacks opt prog e).body.gate (3 * r + prog.opening.before + 1) := by
    have := opening_ne_post prog
    refine decide_eq_true ?_
    cases hc : prog.opening with
    | pre | benchmark =>
      simp only [Callback.before]
      omega
    | post => exact absurd hc this
  have hpast : ¬ (3 * r + prog.opening.before + 1 < (t.worker (u.1, i)).calls ∨
      (t.worker (u.1, i)).calls = 3 * r + prog.opening.before + 1 ∧
        (t.worker (u.1, i)).place ≠ none) := by
    intro hpast
    have := Phases.passed hreach hgate u _ hpast
    omega
  obtain ⟨hnot, hplace⟩ := not_or.mp hpast
  have he : (t.worker (u.1, i)).calls = 3 * r + prog.opening.before + 1 := by omega
  have hnone : (t.worker (u.1, i)).place = none := by
    by_contra hn
    exact hplace ⟨he, hn⟩
  rw [← he, ← hnone]

theorem Inv.back {k : ℕ} (hreach : (Phases.system (callbacks opt prog e).body
      (· = begun opt I)).Reachable t) (h : Inv prog e I t) (hplace : (t.worker u).place = some k)
    (hexited : t.shared.exited u.1 = false)
    (hk : k = (prog.script (callbackAt (t.worker u).calls)).length) :
    Inv prog e I (t.move u t.shared none) := by
  have hother (v : WorkerId opt) (hv : v ≠ u) : (t.move u t.shared none).worker v = t.worker v :=
    Rounds.move_worker_of_ne _ hv
  have hself : (t.move u t.shared none).worker u = ⟨(t.worker u).calls + 1, none⟩ := by
    rw [Rounds.move_worker_self]
    rfl
  have hself_table : Tables prog e I (t.move u t.shared none) u.1 :=
    (h.table u.1 hexited).back hplace hk
  have hne {p : Fin opt.lmOptP} (hpu : p ≠ u.1) (i : Fin opt.lmOptT) : (p, i) ≠ u :=
    fun he ↦ hpu (congrArg Prod.fst he)
  constructor
  case table =>
    intro p hp
    by_cases hpu : p = u.1
    · exact hpu ▸ hself_table
    · exact (h.table p hp).other (fun i ↦ hother _ (hne hpu i)) rfl fun i ↦ rfl
  case place =>
    intro v j hj
    by_cases hv : v = u
    · rw [hv, hself] at hj
      cases hj
    · rw [hother v hv] at hj ⊢
      exact h.place v j hj
  case failed =>
    intro p hp
    obtain ⟨i, hi⟩ := h.failed p hp
    have hpu : p ≠ u.1 := by
      rintro rfl
      exact Bool.false_ne_true (hexited.symm.trans hp)
    exact ⟨i, by rwa [hother _ (hne hpu i)]⟩
  case enough =>
    intro hI p r hr
    by_cases hold : ∀ i, 3 * r + prog.opening.before + 1 ≤ (t.worker (p, i)).calls
    · exact h.enough hI p r hold
    obtain ⟨i, hi⟩ := not_forall.mp hold
    -- `u` was the last one
    have hpu : (p, i) = u := by
      by_contra hne
      exact hi ((hr i).trans_eq (by rw [hother _ hne]))
    subst hpu
    have hlast := hr i
    rw [hself] at hlast
    have hcount : (t.worker (p, i)).calls = 3 * r + prog.opening.before := by
      simp only at hlast
      omega
    refine need_le (u := (p, i)) hself_table hI fun j ↦ ?_
    by_cases hj : (p, j) = (p, i)
    · rw [hj, hself, hcount]
    · have hge := hr j
      rw [hother _ hj] at hge ⊢
      exact opened_last hreach hcount hge

/-- A thread that cannot open its descriptors, with what the others have open. -/
theorem need_lt {i : Fin T} {n : Fin T → ℕ} {r m d : ℕ}
    (hn : ∀ j, n j ≤ r * prog.leak + prog.peak) (hi : n i = r * prog.leak + d)
    (hd : d + m ≤ prog.peak) (h : e.limit < I.card + ∑ j, n j + m) :
    e.limit < prog.need T I.card r := by
  have hsum : ∑ j, Function.update n i (n i + m) j ≤ T * (r * prog.leak + prog.peak) := by
    have hle := Finset.sum_le_card_nsmul Finset.univ (Function.update n i (n i + m))
      (r * prog.leak + prog.peak) fun j _ ↦ by
        by_cases hj : j = i
        · subst hj
          rw [Function.update_self]
          omega
        · rw [Function.update_of_ne hj]
          exact hn j
    rwa [Finset.card_univ, Fintype.card_fin, smul_eq_mul] at hle
  have hmove := sum_move (f := n) (g := Function.update n i (n i + m)) (Finset.mem_univ i)
    fun v hv ↦ Function.update_of_ne hv _ _
  rw [Function.update_self] at hmove
  unfold Program.need
  omega

/-- Nobody is in a later round than a worker in `benchmark`. -/
theorem nobody_ahead (hreach : (Phases.system (callbacks opt prog e).body
      (· = begun opt I)).Reachable t) (hc : callbackAt (t.worker u).calls = .benchmark)
    (v : WorkerId opt) : (t.worker v).calls / 3 ≤ (t.worker u).calls / 3 := by
  have hmod := mod_callbackAt (t.worker u).calls
  rw [hc, show Callback.benchmark.before = 1 from rfl] at hmod
  have hgate : (callbacks opt prog e).body.gate ((t.worker u).calls + 1) :=
    decide_eq_true (by omega)
  have hle : (t.worker v).calls ≤ (t.worker u).calls + 1 := by
    by_contra hlt
    have := Phases.passed hreach hgate u _ (.inl (not_le.mp hlt))
    omega
  omega

theorem Lacks.stopped {k : ℕ} {w : Rounds.Worker ℕ} {fault : Bool}
    (hreach : (Phases.system (callbacks opt prog e).body (· = begun opt I)).Reachable t)
    (h : Lacks prog e (callbackAt (t.worker u).calls) (prog.doneAt (t.worker u))
      (I.card + ∑ i, prog.held (t.worker (u.1, i))) fault)
    (hfault : fault = e.faults u (callbackAt (t.worker u).calls) ((t.worker u).calls / 3) k)
    (hcalls : w.calls = (t.worker u).calls) (hplace : w.place = some (k + 1)) :
    Stopped prog e I.card u w := by
  rw [Stopped, hcalls]
  rcases h with ⟨hwhen, m, hm, hlt⟩ | hnone | hf
  · left
    refine need_lt (i := u.2) (n := fun j ↦ prog.held (t.worker (u.1, j)))
      (fun j ↦ (held_le prog (t.worker (u.1, j))).trans ?_) rfl hm hlt
    refine Nat.add_le_add_right ?_ _
    rcases hwhen with hleak | hc
    · rw [hleak]
      exact le_rfl
    · exact Nat.mul_le_mul_right _ (nobody_ahead hreach hc (u.1, j))
  · exact .inr (.inl hnone)
  · exact .inr (.inr ⟨k, hplace, hfault ▸ hf⟩)

/-- The table after a statement that has done what is expected of it. -/
theorem Tables.call {k : ℕ} {s : Stmt} {x : Fds opt.lmOptT} {ts : TsdT}
    (hs : (prog.script (callbackAt (t.worker u).calls))[k]? = some s)
    (hplace : (t.worker u).place = some k) (hother : ∀ v ≠ u, t'.worker v = t.worker v)
    (hself : t'.worker u = ⟨(t.worker u).calls, some (k + 1)⟩)
    (htable : t'.shared.table u.1 = x) (htsd : t'.shared.tsd = Function.update t.shared.tsd u ts)
    (h : TableOk prog e I x
      (Function.update (fun i ↦ (t.shared.tsd (u.1, i)).tsFd) u.2 ts.tsFd)
      (Function.update (fun i ↦ known (prog.doneAt (t.worker (u.1, i)))) u.2
        (s.known (known (prog.doneAt (t.worker u)))))
      (Function.update (fun i ↦ prog.held (t.worker (u.1, i))) u.2
        ((t.worker u).calls / 3 * prog.leak + s.count (net (prog.doneAt (t.worker u)))))) :
    Tables prog e I t' u.1 := by
  have hdone := doneAt_call hs
  have hwas : t.worker u = ⟨(t.worker u).calls, some k⟩ := by rw [← hplace]
  rw [← hself, ← hwas] at hdone
  have hfd : (fun i ↦ (t'.shared.tsd (u.1, i)).tsFd) =
      Function.update (fun i ↦ (t.shared.tsd (u.1, i)).tsFd) u.2 ts.tsFd := by
    funext i
    rw [htsd]
    by_cases hi : i = u.2
    · subst hi
      rw [Function.update_self, Function.update_self]
    · have hne : (u.1, i) ≠ u := fun he ↦ hi (congrArg Prod.snd he)
      rw [Function.update_of_ne hi, Function.update_of_ne hne]
  have hheld : prog.held (t'.worker u) =
      (t.worker u).calls / 3 * prog.leak + s.count (net (prog.doneAt (t.worker u))) := by
    rw [Program.held, hdone, hself, net_snoc]
  unfold Tables
  rw [thread_update (fun w ↦ known (prog.doneAt w)) hother, hdone, known_snoc,
    thread_update prog.held hother, hheld, hfd, htable]
  exact h

theorem Inv.call {k : ℕ} {s : Stmt} {fault : Bool}
    (hreach : (Phases.system (callbacks opt prog e).body (· = begun opt I)).Reachable t)
    (h : Inv prog e I t) (hdup : prog = .dup → ∀ a, e.fd = some a → a ∈ I)
    (hplace : (t.worker u).place = some k) (hexited : t.shared.exited u.1 = false)
    (hs : (prog.script (callbackAt (t.worker u).calls))[k]? = some s)
    (hfault : fault = e.faults u (callbackAt (t.worker u).calls) ((t.worker u).calls / 3) k) :
    Inv prog e I (t.move u (t.shared.exec e u fault s) (some (k + 1))) := by
  generalize ht' : t.move u (t.shared.exec e u fault s) (some (k + 1)) = t'
  have hshared : t'.shared = t.shared.exec e u fault s := by rw [← ht']; rfl
  have hother (v : WorkerId opt) (hv : v ≠ u) : t'.worker v = t.worker v := by
    rw [← ht']
    exact Rounds.move_worker_of_ne _ hv
  have hself : t'.worker u = ⟨(t.worker u).calls, some (k + 1)⟩ := by
    rw [← ht', Rounds.move_worker_self]
    rfl
  have hcalls (v : WorkerId opt) : (t'.worker v).calls = (t.worker v).calls := by
    rw [← ht']
    exact Rounds.move_calls
  have hne {p : Fin opt.lmOptP} (hpu : p ≠ u.1) (i : Fin opt.lmOptT) : (p, i) ≠ u :=
    fun he ↦ hpu (congrArg Prod.fst he)
  have hfits := ((fitsFrom prog (callbackAt (t.worker u).calls)).take k).2 s hs
  have hat : prog.before (callbackAt (t.worker u).calls) ++
      (prog.script (callbackAt (t.worker u).calls)).take k = prog.doneAt (t.worker u) := by
    simp only [Program.doneAt, hplace, Option.getD_some]
  rw [hat] at hfits
  rcases hres : Descriptors.exec e u.2 (t.shared.table u.1) (t.shared.tsd u) fault s with
    ⟨x, ts, ok⟩
  have hx : t'.shared = ⟨Function.update t.shared.table u.1 x, Function.update t.shared.tsd u ts,
      Function.update t.shared.exited u.1 (!ok)⟩ := by
    simp only [hshared, Shared.exec, hres]
  have hcases := (h.table u.1 hexited).exec (i := u.2) (r := (t.worker u).calls / 3) hfits rfl rfl
    rfl hdup (fun hprog j ↦ hprog ▸ held_zero _) hres
  constructor
  case table =>
    intro p hp
    simp only [hx] at hp
    by_cases hpu : p = u.1
    · subst hpu
      rw [Function.update_self] at hp
      rcases hcases with ⟨-, htable⟩ | ⟨hok, -⟩
      · exact Tables.call hs hplace hother hself (by simp [hx]) (by simp [hx]) htable
      · rw [hok] at hp
        cases hp
    · rw [Function.update_of_ne hpu] at hp
      exact (h.table p hp).other (fun i ↦ hother _ (hne hpu i)) (by simp [hx, hpu])
        fun i ↦ by simp [hx, hne hpu i]
  case place =>
    intro v j hj
    rw [hcalls]
    by_cases hv : v = u
    · subst hv
      rw [hself] at hj
      cases hj
      exact (List.getElem?_eq_some_iff.mp hs).1
    · rw [hother v hv] at hj
      exact h.place v j hj
  case failed =>
    intro p hp
    simp only [hx] at hp
    by_cases hpu : p = u.1
    · subst hpu
      rw [Function.update_self] at hp
      rcases hcases with ⟨hok, -⟩ | ⟨-, hlacks⟩
      · rw [hok] at hp
        cases hp
      · exact ⟨u.2, hlacks.stopped hreach hfault (hcalls u) (by rw [hself])⟩
    · rw [Function.update_of_ne hpu] at hp
      obtain ⟨i, hi⟩ := h.failed p hp
      exact ⟨i, by rwa [hother _ (hne hpu i)]⟩
  case enough =>
    intro hI p r hr
    simp only [hcalls] at hr
    exact h.enough hI p r hr

theorem reachable_inv (hT : 0 < opt.lmOptT) (hdup : prog = .dup → ∀ a, e.fd = some a → a ∈ I)
    (ht : (Phases.system (callbacks opt prog e).body (· = begun opt I)).Reachable t) :
    Inv prog e I t := by
  refine ht.invariant ?_ ?_
  · rintro _ ⟨x, rfl, rfl⟩
    exact start_inv hT
  · intro t u t' ht h hstep
    rcases Phases.step_cases hstep with ⟨hplace, -, rfl⟩ | ⟨k, x, k', hplace, hbody, rfl⟩
    · exact h.enter hplace
    · simp only [Callbacks.body, callbacks] at hbody
      cases hexited : t.shared.exited u.1 with
      | true =>
        rw [hexited] at hbody
        cases hbody
      | false =>
        simp only [hexited, Bool.false_eq_true, if_false] at hbody
        cases hs : (prog.script (callbackAt (t.worker u).calls))[k]? with
        | none =>
          rw [hs] at hbody
          cases hbody
          have hk := le_antisymm (h.place u k hplace) (List.getElem?_eq_none_iff.mp hs)
          exact h.back ht hplace hexited hk
        | some s =>
          rw [hs] at hbody
          cases hbody
          exact h.call ht hdup hplace hexited hs rfl

variable {s : Loaded.State (WorkerId opt) (Shared opt) ℕ}

theorem system_inv [Nonempty (WorkerId opt)] (hT : 0 < opt.lmOptT)
    (hdup : prog = .dup → ∀ a, e.fd = some a → a ∈ I) (hs : (system opt prog e I).Reachable s) :
    Inv prog e I s.phases :=
  reachable_inv hT hdup (Loaded.phases_reachable hs)

/-- Only a process that has exited is kept in a callback. -/
theorem goes_on [Nonempty (WorkerId opt)] (hs : (system opt prog e I).Reachable s)
    (hexited : ∀ p, s.shared.exited p = false) :
    (∀ u, (s.harness.worker u).pc.left) ∨ (system opt prog e I).Enabled (fun a ↦ a.isRun) s := by
  have hgo (u : WorkerId opt) (c : Callback) (n k : ℕ) :
      (callbacks opt prog e).step u c n s.shared k ≠ none := by
    simp only [callbacks, hexited, Bool.false_eq_true, if_false]
    cases (prog.script c)[k]? <;> exact nofun
  by_contra hne
  obtain ⟨hleft, hstuck⟩ := not_or.mp hne
  rcases Loaded.stuck_cases hs hstuck with h | ⟨u, c, k, -, -, -, hnone⟩ | ⟨r, ⟨u, hu⟩, hat⟩
  · exact hleft h
  · exact hgo u c _ k hnone
  · rcases hat u with ⟨-, k, -, hnone⟩ | ⟨-, hplace⟩
    · exact hgo u .benchmark r k hnone
    · exact hu hplace

theorem left_held [Nonempty (WorkerId opt)] (hs : (system opt prog e I).Reachable s)
    (hleft : (s.harness.worker u).pc.left) :
    prog.held (s.phases.worker u) = (s.harness.worker u).rounds * prog.leak := by
  obtain ⟨hcallback, hcalled⟩ := WorkerPc.left_called hleft
  have hplace : s.place u = none := by
    by_contra h
    exact Loaded.placed hs _ h hcallback
  have hcalls : (s.harness.worker u).calls = 3 * (s.harness.worker u).rounds := by
    rw [Worker.calls, hcalled]
    rfl
  have hthird : 3 * (s.harness.worker u).rounds / 3 = (s.harness.worker u).rounds := by omega
  simp only [Program.held, Program.doneAt, Loaded.State.phases, hplace, hcalls, hthird,
    callbackAt_eq (n := 3 * (s.harness.worker u).rounds) .pre (Nat.mul_mod_right 3 _)]
  rfl

end Runs

/-- Two processes of three threads, and 13 descriptors for each process. -/
abbrev sixOptions : Options := ⟨0, 5, 1, 2, 3, 0⟩

def thirteen : Env (WorkerId sixOptions) := ⟨13, none, fun _ _ _ _ ↦ false⟩

def pairs (n : ℕ) : Loaded.State (WorkerId sixOptions) (Shared sixOptions) ℕ :=
  (system sixOptions .socketpair thirteen {0, 1, 2}).turns
    ⟨start sixOptions 0, begun sixOptions {0, 1, 2}, fun _ ↦ none⟩ (inTurn sixOptions n)

end LibMicro.Descriptors
