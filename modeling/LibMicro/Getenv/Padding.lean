import LibMicro.Getenv.Model
import Mathlib.Data.List.Nodup

namespace LibMicro.Getenv

open Decimal WhileLoop

variable {environ : Environ} {s e : List Char} {i j k : ℕ} {opts : ℤ}

theorem nameOf_append (hs : '=' ∉ s) (l : List Char) : nameOf (s ++ '=' :: l) = some s := by
  have hmem : '=' ∈ s ++ '=' :: l := List.mem_append_right s List.mem_cons_self
  rw [nameOf, if_pos hmem, Text.takeWhile_ne hs l]

theorem nameOf_padding (j : ℕ) : nameOf (padding j) = some (varName j) := by
  apply nameOf_append
  intro h
  rcases List.mem_append.mp h with h | h
  · exact absurd h (by decide)
  · rw [integer_natCast] at h
    exact absurd (isDigit_toDigits h) (by decide)

theorem nameOf_padding_inj (h : nameOf (padding j) = nameOf (padding k)) : j = k := by
  rw [nameOf_padding, nameOf_padding] at h
  exact integer_inj (List.append_cancel_left (Option.some.inj h))

theorem putenv_new (h : ∀ e ∈ environ, nameOf e ≠ nameOf s) : putenv environ s = environ ++ [s] := by
  have hnone : environ.findIdx? (fun e ↦ nameOf e = nameOf s) = none := by
    rw [List.findIdx?_eq_none_iff]
    intro e he
    exact decide_eq_false (h e he)
  rw [putenv, hnone]

def Plain (environ : Environ) : Prop := ∀ e ∈ environ, ∀ j : ℤ, nameOf e ≠ some (varName j)

def pads (i k : ℕ) : List (List Char) := (List.range' i k).map fun j : ℕ ↦ padding j

theorem putenv_pads (h : Plain environ) (i k : ℕ) :
    (List.range' i k).foldl (fun environ (j : ℕ) ↦ putenv environ (padding j)) environ =
      environ ++ pads i k := by
  induction k with
  | zero => exact (List.append_nil environ).symm
  | succ k ih =>
    have hnew : ∀ e ∈ environ ++ pads i k, nameOf e ≠ nameOf (padding (i + k : ℕ)) := by
      intro e he
      rcases List.mem_append.mp he with he | he
      · rw [nameOf_padding]
        exact h e he _
      · obtain ⟨j, hj, rfl⟩ := List.mem_map.mp he
        intro heq
        have := nameOf_padding_inj heq
        have := List.mem_range'_1.mp hj
        omega
    have hlast := putenv_new hnew
    rw [List.range'_1_concat, List.foldl_append, ih, List.foldl_cons, List.foldl_nil, hlast, pads,
      pads, List.range'_1_concat, List.map_append, List.append_assoc]
    rfl

theorem nodup_pads (i k : ℕ) : (pads i k).Nodup := by
  apply List.Nodup.map_on _ List.nodup_range'
  intro j _ k _ h
  exact nameOf_padding_inj (congrArg nameOf h)

theorem length_pads (i k : ℕ) : (pads i k).length = k := by
  rw [pads, List.length_map, List.length_range']

theorem count_string (hi : i < environ.length) (h : i + 1 < 2 ^ 31) :
    (do
      let s ← element environ i
      let i ← increment i
      return (s.isSome, i)) = .ok (true, i + 1) := by
  have helement : element environ i = .ok (some environ[i]) := by
    rw [element, if_pos (Nat.le_of_lt hi), List.getElem?_eq_getElem hi]
  have hincrement : increment i = .ok (i + 1) := if_pos h
  rw [helement, hincrement]
  rfl

/-- The `NULL` is counted too. -/
theorem settles_count (h : environ.length + 1 < 2 ^ 31) :
    Settles (count environ) (.ok (environ.length + 1)) := by
  apply settles_loop id environ.length
  · intro i hi
    have hfits : i + 1 < 2 ^ 31 := by omega
    exact count_string hi hfits
  · apply settles_done
    have helement : element environ environ.length = .ok none := by
      rw [element, if_pos le_rfl, List.getElem?_eq_none le_rfl]
    have hincrement : increment environ.length = .ok (environ.length + 1) := if_pos h
    rw [id, helement, hincrement]
    rfl

theorem settles_count_overflow (h : 2 ^ 31 ≤ environ.length + 1) :
    Settles (count environ) (.error (.failed .overflow)) := by
  obtain ⟨m, hm⟩ : ∃ m, m + 1 = 2 ^ 31 := ⟨2 ^ 31 - 1, rfl⟩
  apply settles_loop id m
  · intro i hi
    have hstring : i < environ.length := by omega
    have hfits : i + 1 < 2 ^ 31 := by omega
    exact count_string hstring hfits
  · apply settles_error
    have helement : element environ m = .ok environ[m]? := if_pos (by omega)
    have hincrement : increment m = .error (.failed .overflow) := if_neg (by omega)
    rw [id, helement, hincrement]
    rfl

theorem pad_eq (h : Plain environ) (opts : ℤ) (i : ℕ) :
    pad opts environ i = (max opts i, environ ++ pads i (opts.toNat - i)) := by
  have hopts : (if opts < i then (i : ℤ) else opts) = max opts i := by
    split <;> omega
  have hsize : (max opts i).toNat - i = opts.toNat - i := by
    omega
  rw [pad, hopts, hsize, putenv_pads h]

theorem settles_initrun (hlen : environ.length + 1 < 2 ^ 31) (opts : ℤ) :
    Settles (benchmarkInitrun opts environ) (.ok (pad opts environ (environ.length + 1))) :=
  (settles_count hlen).map (pad opts environ)

/-- The strings are one too few, unless there are enough from the beginning. -/
theorem padded_iff (opts : ℤ) (environ : Environ) (h : Plain environ) :
    Padded opts environ ↔ opts ≤ environ.length ∧ environ.length + 1 < 2 ^ 31 := by
  constructor
  · rintro ⟨n, opts', all, hn, hlen, -⟩
    rcases Nat.lt_or_ge (environ.length + 1) (2 ^ 31) with hfits | hover
    · have heq := (settles_initrun hfits opts).unique hn
      rw [pad_eq h] at heq
      have hall := congrArg (fun r ↦ r.2.length) heq
      simp only [List.length_append, length_pads] at hall hlen
      omega
    · have hrun : Settles (benchmarkInitrun opts environ) (.error (.failed .overflow)) :=
        (settles_count_overflow hover).bind_failed (q := fun i _ ↦ .ok (pad opts environ i))
      exact absurd hn (hrun.not_returns n)
  · rintro ⟨hle, hfits⟩
    obtain ⟨n, hn⟩ := (settles_initrun hfits opts).returns
    rw [pad_eq h] at hn
    refine ⟨n, _, _, hn, ?_, nodup_pads _ _, ?_⟩
    · rw [List.length_append, length_pads]
      omega
    · intro s hs
      obtain ⟨j, -, rfl⟩ := List.mem_map.mp hs
      exact ⟨j, rfl⟩

theorem padded_iff_two :
    Padded 2 ["HOME=/".toList, "TERM=vt100".toList] ∧
      ¬ Padded 3 ["HOME=/".toList, "TERM=vt100".toList] := by
  have hplain : Plain ["HOME=/".toList, "TERM=vt100".toList] := by
    intro e he j h
    have hname : (varName j).head? = some 'H' ∨ (varName j).head? = some 'T' := by
      rcases List.mem_pair.mp he with rfl | rfl
      · exact .inl (congrArg List.head? (Option.some.inj h)).symm
      · exact .inr (congrArg List.head? (Option.some.inj h)).symm
    simp [varName] at hname
  refine ⟨(padded_iff 2 _ hplain).mpr (by norm_num), fun h ↦ ?_⟩
  have := ((padded_iff 3 _ hplain).mp h).1
  norm_num at this

theorem getenv_short : ¬ ∀ opts environ, Plain environ → Padded opts environ := by
  intro h
  have hplain : Plain [] := nofun
  obtain ⟨n, opts', all, hn, hlen, -⟩ := h 1 [] hplain
  have hrun : Settles (benchmarkInitrun 1 []) _ := settles_initrun (by norm_num) 1
  rw [pad_eq hplain] at hrun
  obtain rfl : all = [] := congrArg Prod.snd (hrun.unique hn)
  exact absurd hlen (by decide)

end LibMicro.Getenv
