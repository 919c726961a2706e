import LibMicro.Malloc.Model
import Mathlib.Data.List.Induction

namespace LibMicro.Malloc

open Decimal ForLoop Text

variable {args : List Opt} {opts : List ℤ} {globals : Globals} {g : ℤ} {i j k n : ℕ}

theorem element_eq (hi : i < opts.length) : element opts i = .ok opts[i] := by
  rw [element, List.getElem?_eq_getElem hi]

theorem store_eq (hi : i < opts.length) (size : ℤ) : store opts i size = .ok (opts.set i size) :=
  if_pos hi

structure Parsed (args : List Opt) (globals : Globals) : Prop where
  optg : globals.optg = globCount args
  length : globals.opts.length = 32
  optscnt : globals.optscnt = (sizes args).length % 32
  stored : (sizes args).length ≤ 32 → globals.opts.take (sizes args).length = sizes args

theorem Parsed.start : Parsed [] .start where
  optg := rfl
  length := rfl
  optscnt := rfl
  stored _ := rfl

theorem sizes_g (args : List Opt) (value : ℤ) : sizes (args ++ [.g value]) = sizes args := by
  simp [sizes]

theorem sizes_s (args : List Opt) (value : ℤ) :
    sizes (args ++ [.s value]) = sizes args ++ [value] := by
  simp [sizes]

theorem and_31 (n : ℕ) : n &&& 31 = n % 32 := Nat.and_two_pow_sub_one_eq_mod n 5

theorem Parsed.glob (h : Parsed args globals) (value : ℤ) :
    Parsed (args ++ [.g value]) { globals with optg := value } where
  optg := by
    simp [globCount]
  length := h.length
  optscnt := by
    rw [sizes_g]
    exact h.optscnt
  stored := by
    rw [sizes_g]
    exact h.stored

theorem Parsed.lt (h : Parsed args globals) : globals.optscnt < globals.opts.length := by
  rw [h.length, h.optscnt]
  exact Nat.mod_lt _ (by decide)

theorem Parsed.size (h : Parsed args globals) (value : ℤ) :
    Parsed (args ++ [.s value]) { globals with
      opts := globals.opts.set globals.optscnt value
      optscnt := (globals.optscnt + 1) &&& 31 } where
  optg := by
    rw [globCount, List.foldl_append]
    exact h.optg
  length := by
    rw [List.length_set]
    exact h.length
  optscnt := by
    rw [sizes_s, and_31, h.optscnt, List.length_append, Nat.mod_add_mod]
    rfl
  stored := by
    intro hle
    rw [sizes_s, List.length_append, List.length_singleton] at hle ⊢
    have heq : globals.optscnt = (sizes args).length := by
      rw [h.optscnt]
      exact Nat.mod_eq_of_lt hle
    have hstored := h.stored (Nat.le_of_lt hle)
    have hset : (sizes args).length < (globals.opts.set (sizes args).length value).length := by
      rw [List.length_set, ← heq]
      exact h.lt
    rw [heq, List.take_succ_eq_append_getElem hset, List.getElem_set_self,
      List.take_set_of_le le_rfl, hstored]

theorem parse_parsed (args : List Opt) : ∃ globals, parse args = .ok globals ∧ Parsed args globals := by
  induction args using List.reverseRecOn with
  | nil => exact ⟨.start, rfl, .start⟩
  | append_singleton args opt ih =>
    obtain ⟨globals, hparse, h⟩ := ih
    have happ : parse (args ++ [opt]) = benchmarkOptswitch globals opt := by
      rw [parse] at hparse
      rw [parse, List.foldlM_append, hparse]
      exact bind_pure (benchmarkOptswitch globals opt)
    rw [happ]
    cases opt with
    | g value => exact ⟨_, rfl, h.glob value⟩
    | s value =>
      refine ⟨_, ?_, h.size value⟩
      rw [benchmarkOptswitch, store_eq h.lt]
      rfl

theorem listed_concat (g : ℤ) (l : List ℤ) (size : ℤ) :
    listed g (l ++ [size]) = listed g l ++ (integer size ++ [' ']) := by
  simp [listed]

def shortListed (g : ℤ) (l : List ℤ) : Except Fault (List Char) :=
  if (listed g l).length < 256 then .ok (listed g l) else .error .overrun

theorem shortListed_concat (g : ℤ) (l : List ℤ) (size : ℤ) :
    (do
      let result ← shortListed g l
      append result (integer size ++ [' '])) = shortListed g (l ++ [size]) := by
  have hconcat := listed_concat g l size
  have hlen := congrArg List.length hconcat
  rw [List.length_append] at hlen
  by_cases h : (listed g l).length < 256
  · rw [shortListed, if_pos h, shortListed, hconcat]
    rfl
  · rw [shortListed, if_neg h, shortListed, if_neg (by omega)]
    rfl

theorem benchmarkResult_eq (h : globals.optscnt ≤ globals.opts.length) :
    benchmarkResult globals = shortListed globals.optg (globals.opts.take globals.optscnt) := by
  have hloop : ∀ i ≤ globals.opts.length, (do
      let result ← append [] (padLeft 6 (integer globals.optg) ++ [' '])
      forLoop i (fun i result ↦ do
        let size ← element globals.opts i
        append result (integer size ++ [' '])) result) =
      shortListed globals.optg (globals.opts.take i) := by
    intro i
    induction i with
    | zero =>
      intro _
      exact bind_pure _
    | succ i ih =>
      intro hi
      rw [List.take_succ_eq_append_getElem hi, ← shortListed_concat, ← ih (Nat.le_of_lt hi), bind_assoc]
      apply bind_congr
      intro result
      rw [forLoop_succ]
      apply bind_congr
      intro result
      rw [element_eq hi]
      rfl
  exact hloop globals.optscnt h

theorem benchmark_eq (hpos : 0 < globals.optscnt) (hle : globals.optscnt ≤ globals.opts.length) :
    benchmark globals = .ok ((List.range globals.optg.toNat).map fun j ↦
      globals.opts[j % globals.optscnt]?.getD 0) := by
  let glob (j : ℕ) : Glob := ⟨j % globals.optscnt, (List.range j).map fun j ↦
    globals.opts[j % globals.optscnt]?.getD 0⟩
  have hstart : glob 0 = ⟨0, []⟩ := by
    simp [glob]
  have hloop : forLoop globals.optg.toNat (fun _ ↦ Glob.next globals) (glob 0) =
      .ok (glob globals.optg.toNat) := by
    apply forLoop_eq glob
    intro j _
    have hmod : j % globals.optscnt < globals.optscnt := Nat.mod_lt j hpos
    have hin : j % globals.optscnt < globals.opts.length := hmod.trans_le hle
    have hk : (if j % globals.optscnt + 1 ≥ globals.optscnt then 0 else j % globals.optscnt + 1) =
        (j + 1) % globals.optscnt := by
      rw [← Nat.mod_add_mod]
      split
      case isTrue h =>
        have heq : j % globals.optscnt + 1 = globals.optscnt := by omega
        rw [heq, Nat.mod_self]
      case isFalse h => exact (Nat.mod_eq_of_lt (not_le.mp h)).symm
    have hlast : globals.opts[j % globals.optscnt]?.getD 0 = globals.opts[j % globals.optscnt] := by
      rw [List.getElem?_eq_getElem hin, Option.getD_some]
    rw [Glob.next, element_eq hin]
    simp only [bind, Except.bind, pure, Except.pure, glob, hk, List.range_succ, List.map_append,
      List.map_singleton, hlast]
  rw [benchmark, ← hstart, hloop]
  rfl

theorem shortListed_ne (g : ℤ) (l : List ℤ) : shortListed g l ≠ .error .outside := by
  unfold shortListed
  split <;> simp

theorem shortListed_eq_iff (g : ℤ) (l : List ℤ) (text : List Char) :
    shortListed g l = .ok text ↔ text = listed g l ∧ (listed g l).length < 256 := by
  unfold shortListed
  split
  case isTrue h => simp [h, eq_comm]
  case isFalse h => simp [h]

theorem Parsed.worker (h : Parsed args globals) : 0 < (benchmarkInitworker globals).optscnt ∧
    (benchmarkInitworker globals).optscnt ≤ (benchmarkInitworker globals).opts.length := by
  have hlt := h.lt
  simp only [benchmarkInitworker]
  split <;> omega

theorem Parsed.inside (h : Parsed args globals) : Inside globals where
  benchmark := by
    rw [benchmark_eq h.worker.1 h.worker.2]
    nofun
  result := by
    rw [benchmarkResult_eq h.worker.2]
    exact shortListed_ne _ _
  parent := by
    rw [benchmarkResult_eq (Nat.le_of_lt h.lt)]
    exact shortListed_ne _ _

theorem Parsed.initworker (h : Parsed args globals) (hs : sizes args ≠ [])
    (hlt : (sizes args).length < 32) :
    globals.optscnt = (sizes args).length ∧ benchmarkInitworker globals = globals := by
  have hpos := List.length_pos_iff.mpr hs
  have hcnt : globals.optscnt = (sizes args).length := by
    rw [h.optscnt]
    exact Nat.mod_eq_of_lt hlt
  refine ⟨hcnt, ?_⟩
  rw [benchmarkInitworker, if_neg (by omega)]

theorem Parsed.uses (h : Parsed args globals) (hs : sizes args ≠ [])
    (hlt : (sizes args).length < 32) (hshort : (listed (globCount args) (sizes args)).length < 256) :
    Uses args globals := by
  have hpos := List.length_pos_iff.mpr hs
  obtain ⟨hcnt, hworker⟩ := h.initworker hs hlt
  have hstored := h.stored (Nat.le_of_lt hlt)
  have hle := Nat.le_of_lt h.lt
  have htext : benchmarkResult globals = .ok (listed (globCount args) (sizes args)) := by
    rw [benchmarkResult_eq hle, hcnt, hstored, h.optg, shortListed_eq_iff]
    exact ⟨rfl, hshort⟩
  have hbenchmark : benchmark globals = _ := benchmark_eq (by omega) hle
  refine ⟨?_, hworker.symm ▸ htext, htext⟩
  rw [hworker]
  refine ⟨_, hbenchmark, ?_, fun j hj ↦ ?_⟩
  · rw [List.length_map, List.length_range, h.optg]
  · have hmod : j % (sizes args).length < (sizes args).length := Nat.mod_lt j hpos
    have hin : j % (sizes args).length < globals.opts.length := by omega
    have hsize : (sizes args)[j % (sizes args).length]? = globals.opts[j % (sizes args).length]? := by
      rw [← hstored, List.getElem?_take_of_lt (hstored.symm ▸ hmod)]
    rw [List.length_map, List.length_range] at hj
    rw [List.getElem?_map, List.getElem?_range hj, Option.map_some, hcnt, hsize,
      List.getElem?_eq_getElem hin, Option.getD_some]

theorem Parsed.result_32 (h : Parsed args globals) (hlen : (sizes args).length = 32) :
    benchmarkResult (benchmarkInitworker globals) ≠ .ok (listed (globCount args) (sizes args)) := by
  have hcnt : (benchmarkInitworker globals).optscnt = 1 := by
    rw [benchmarkInitworker, if_pos]
    rw [h.optscnt, hlen]
  have htake : globals.opts = sizes args := by
    have hstored := h.stored hlen.le
    rwa [hlen, ← h.length, List.take_length] at hstored
  obtain ⟨a, b, l, hsizes⟩ : ∃ a b l, sizes args = a :: b :: l := by
    match hs : sizes args, hlen with
    | a :: b :: l, _ => exact ⟨a, b, l, rfl⟩
  intro hresult
  rw [benchmarkResult_eq h.worker.2, hcnt, shortListed_eq_iff] at hresult
  have hopts : (benchmarkInitworker globals).opts = a :: b :: l := htake.trans hsizes
  have hoptg : (benchmarkInitworker globals).optg = globCount args := h.optg
  have heq := congrArg List.length hresult.1
  rw [hopts, hoptg, hsizes] at heq
  simp [listed] at heq

/-- All sizes are used and printed up to 31, as long as there is room to print them. -/
theorem honours_iff (args : List Opt) (hs : sizes args ≠ []) :
    Honours args ↔ ((sizes args).length ≤ 32 →
      (sizes args).length ≠ 32 ∧ (listed (globCount args) (sizes args)).length < 256) := by
  obtain ⟨globals, hparse, h⟩ := parse_parsed args
  constructor
  · rintro ⟨globals', hparse', -, huses⟩ hle
    obtain rfl := Except.ok.inj (hparse.symm.trans hparse')
    have huses := huses hle
    refine ⟨fun hlen ↦ h.result_32 hlen huses.result, ?_⟩
    have hresult := huses.result
    rw [benchmarkResult_eq h.worker.2, shortListed_eq_iff] at hresult
    rw [hresult.1]
    exact hresult.2
  · intro hcond
    refine ⟨globals, hparse, h.inside, fun hle ↦ ?_⟩
    obtain ⟨hne, hshort⟩ := hcond hle
    exact h.uses hs (Nat.lt_of_le_of_ne hle hne) hshort

theorem honours_iff_two :
    Honours [.s 32, .g 4, .s 64] ↔ ((sizes [.s 32, .g 4, .s 64]).length ≤ 32 →
      (sizes [.s 32, .g 4, .s 64]).length ≠ 32 ∧
        (listed (globCount [.s 32, .g 4, .s 64]) (sizes [.s 32, .g 4, .s 64])).length < 256) :=
  honours_iff [.s 32, .g 4, .s 64] (by decide)

/-- The last of the 32 sizes that are accepted is one too many. -/
theorem malloc_forgets : ¬ ∀ args, sizes args ≠ [] → 1 ≤ globCount args → Honours args := by
  intro h
  obtain ⟨globals, hparse, -, huses⟩ := h (List.replicate 32 (.s 8)) (by decide) (by decide)
  obtain ⟨globals', hparse', hparsed⟩ := parse_parsed (List.replicate 32 (.s 8))
  obtain rfl := Except.ok.inj (hparse.symm.trans hparse')
  exact hparsed.result_32 rfl (huses (by decide)).result

end LibMicro.Malloc
