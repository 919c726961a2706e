import LibMicro.PointerChain.Model
import LibMicro.Stride

namespace LibMicro.PointerChain

open ForLoop Stride

variable {n i k : ℕ} {data : Buffer}

def links (n : ℕ) : Buffer := (List.range n).map fun i ↦ (back n 128 i : ℤ)

theorem load_links (hi : i < n) : load (links n) i = .ok (back n 128 i) := by
  have hget : (links n)[i]? = some (back n 128 i : ℤ) := by
    simp [links, hi]
  rw [load, if_neg (by omega), Int.toNat_natCast, hget]

theorem store_load {ptr v : ℤ} (h : load data ptr = .ok v) : store data ptr v = .ok data := by
  unfold load at h
  split at h
  case isTrue => cases h
  case isFalse hptr =>
    cases hget : data[ptr.toNat]? with
    | none =>
      rw [hget] at h
      cases h
    | some u =>
      rw [hget] at h
      obtain rfl := Except.ok.inj h
      obtain ⟨hlt, hu⟩ := List.getElem?_eq_some_iff.mp hget
      rw [store, if_pos (by omega), ← hu, List.set_getElem_self]

def linked (data : Buffer) (n k : ℕ) : Buffer :=
  (List.range k).map (fun i ↦ (back n 128 i : ℤ)) ++ data.drop k

theorem store_next (p : Buffer) (h : p.length < data.length) (v : ℤ) :
    store (p ++ data.drop p.length) p.length v = .ok (p ++ [v] ++ data.drop (p.length + 1)) := by
  have hlen : (p ++ data.drop p.length).length = data.length := by
    rw [List.length_append, List.length_drop]
    omega
  have hset : (p ++ data.drop p.length).set p.length v = p ++ [v] ++ data.drop (p.length + 1) := by
    rw [List.drop_eq_getElem_cons h, List.set_append_right _ _ le_rfl, Nat.sub_self,
      List.set_cons_zero, List.append_assoc, List.singleton_append]
  rw [store, if_pos (by omega), Int.toNat_natCast, hset]

theorem store_linked (hdata : data.length = n) (hk : k < n) :
    store (linked data n k) k (back n 128 k) = .ok (linked data n (k + 1)) := by
  have hk' : ((List.range k).map fun i ↦ (back n 128 i : ℤ)).length < data.length := by
    simpa [hdata] using hk
  simpa [linked, List.range_succ] using store_next _ hk' (back n 128 k)

theorem setLinks_eq {opts : ℕ} (hn : 128 ≤ entries opts) (hdata : data.length = entries opts) :
    setLinks opts data = .ok (links (entries opts)) := by
  have hstart : linked data (entries opts) 0 = data := by
    simp [linked]
  have hend : linked data (entries opts) (entries opts) = links (entries opts) := by
    rw [linked, List.drop_of_length_le (Nat.le_of_eq hdata), List.append_nil, links]
  rw [setLinks, ← hend]
  nth_rewrite 2 [← hstart]
  apply forLoop_eq (linked data (entries opts))
  intro i hi
  have hj : (if (i : ℤ) - 128 < 0 then (i : ℤ) - 128 + entries opts else i - 128) =
      back (entries opts) 128 i := by
    unfold back
    split_ifs <;> omega
  dsimp only
  rw [hj]
  exact store_linked hdata hi

theorem follow_links (hi : i < n) (k : ℕ) :
    follow (links n) k i = .ok ((back n 128)^[k] i : ℕ) := by
  induction k generalizing i with
  | zero => rfl
  | succ k ih =>
    have hrest := ih (back_lt (s := 128) hi)
    rw [follow, load_links hi]
    exact hrest

theorem follow_first (hn : 0 < n) (k : ℕ) :
    follow (links n) k 0 = .ok ((back n 128)^[k] 0 : ℕ) := follow_links hn k

theorem memrand_benchmark_links (hn : 0 < n) :
    Memrand.benchmark (links n) = .ok ((back n 128)^[10 + 1] 0 : ℕ) := by
  have hload := load_links (back_iterate_lt (s := 128) hn 10)
  rw [← Function.iterate_succ_apply' (back n 128)] at hload
  rw [Memrand.benchmark, follow_first hn]
  exact hload

def chain (n k : ℕ) : Chain where
  data := links n
  ptr := (back n 128)^[k] 0
  visited := (List.range k).map fun i ↦ ((back n 128)^[i + 1] 0 : ℕ)

theorem load_chain (hn : 0 < n) (k : ℕ) :
    load (links n) (chain n k).ptr = .ok ((back n 128)^[k + 1] 0 : ℕ) := by
  rw [Function.iterate_succ_apply']
  exact load_links (back_iterate_lt hn k)

theorem add_chain (hn : 0 < n) (k : ℕ) : (chain n k).add 0 = .ok (chain n k) := by
  have hload := load_chain hn k
  have hstore := store_load hload
  have hdata : (chain n k).data = links n := rfl
  rw [Chain.add, hdata, hload]
  simp only [bind, Except.bind, add_zero, hstore]
  rfl

theorem hop_chain (hn : 0 < n) (k : ℕ) : (chain n k).hop = .ok (chain n (k + 1)) := by
  have hload := load_chain hn k
  have hdata : (chain n k).data = links n := rfl
  rw [Chain.hop, hdata, hload]
  simp [bind, Except.bind, pure, Except.pure, chain, List.range_succ]

theorem round_chain (hn : 0 < n) (k : ℕ) : (chain n k).round 0 = .ok (chain n (k + 10)) := by
  have hloop : forLoop 10 (fun _ s ↦ do
      let s ← Chain.add 0 s
      s.hop) (chain n k) = .ok (chain n (k + 10)) := by
    apply forLoop_eq fun i ↦ chain n (k + i)
    intro i _
    rw [add_chain hn]
    exact hop_chain hn (k + i)
  rw [Chain.round, hloop]
  exact add_chain hn (k + 10)

theorem traversePtrchain_links (hn : 0 < n) (count : ℕ) :
    traversePtrchain (links n) 0 count 0 =
      .ok (chain n (10 * ((count + 9) / 10)), (back n 128)^[10 * ((count + 9) / 10) + 1] 0) := by
  have hloop : forLoop ((count + 9) / 10) (fun _ ↦ Chain.round 0) (chain n 0) =
      .ok (chain n (10 * ((count + 9) / 10))) := by
    apply forLoop_eq fun i ↦ chain n (10 * i)
    intro i _
    exact round_chain hn (10 * i)
  have hload := load_chain hn (10 * ((count + 9) / 10))
  have hstart : (⟨links n, 0, []⟩ : Chain) = chain n 0 := rfl
  rw [traversePtrchain, hstart, hloop]
  simp only [bind, Except.bind]
  have hdata : (chain n (10 * ((count + 9) / 10))).data = links n := rfl
  rw [hdata, hload]
  rfl

theorem period_dvd_iff {opts : ℕ} (hn : 128 ≤ entries opts) (k : ℕ) :
    (back (entries opts) 128)^[k] 0 = 0 ↔ period opts ∣ k :=
  back_iterate_eq_iff hn (by omega)

theorem entries_of_dvd {opts : ℕ} (h : 1024 ∣ opts) :
    entries opts = opts / 1024 * 128 ∧ count opts = opts / 1024 := by
  unfold entries count
  omega

theorem period_of_dvd {opts : ℕ} (h : 1024 ∣ opts) : period opts = opts / 1024 := by
  rw [period, (entries_of_dvd h).1, Nat.gcd_mul_left_left]
  omega

theorem eachBlock_hops {opts : ℕ} (h : 1024 ∣ opts) :
    EachBlock opts ((List.range (opts / 1024)).map fun i ↦
      (((back (entries opts) 128)^[i + 1] 0 : ℕ) : ℤ)) := by
  have hblocks : blocks ((List.range (opts / 1024)).map fun i ↦
      (((back (entries opts) 128)^[i + 1] 0 : ℕ) : ℤ)) =
      ((List.range (opts / 1024)).reverse).map Nat.cast := by
    rw [blocks, List.map_map, List.range_eq_range', List.reverse_range', ← List.range_eq_range',
      List.map_map]
    apply List.map_congr_left
    intro i hi
    have hback := back_iterate_mul (s := 128) (List.mem_range.mp hi)
    rw [Function.comp_apply, (entries_of_dvd h).1, hback]
    simp
    omega
  rw [EachBlock, hblocks]
  exact (List.reverse_perm _).map _

/-- The links of a buffer of at least one block turn as they should, whatever `malloc` left in
it. -/
theorem benchmark_initworker_turns (opts : ℕ) (data : Buffer) (hn : 128 ≤ entries opts)
    (hdata : data.length = entries opts) :
    ∃ links, Memrand.benchmarkInitworker opts data = .ok links ∧
      Cachetocache.benchmarkInitworker opts data = .ok links ∧ Turns opts links := by
  have hlinks := setLinks_eq hn hdata
  have hpos : 0 < entries opts := by omega
  refine ⟨links (entries opts), hlinks, hlinks, ?_⟩
  constructor
  case permutation =>
    refine ⟨backPerm (entries opts) 128 hn, ?_⟩
    apply List.ext_getElem
    · simp [links]
    · intro i h₁ h₂
      simp [links, backPerm]
  case returns =>
    rw [follow_first hpos, (period_dvd_iff hn _).mpr (Nat.dvd_refl _)]
    rfl
  case first =>
    intro k hk hlt
    refine ⟨_, follow_first hpos k, fun hzero ↦ ?_⟩
    have hdvd := (period_dvd_iff hn k).mp (Int.natCast_eq_zero.mp hzero)
    exact Nat.not_le_of_lt hlt (Nat.le_of_dvd hk hdvd)
  case turn =>
    intro h
    refine ⟨_, ?_, ?_, eachBlock_hops h⟩
    · rw [List.length_map, List.length_range, period_of_dvd h]
    · intro k ptr hptr
      obtain ⟨hk, rfl⟩ := List.getElem?_eq_some_iff.mp hptr
      rw [List.getElem_map, List.getElem_range]
      exact follow_first hpos (k + 1)
  case traverse =>
    intro h hten
    have hcount := (entries_of_dvd h).2
    have hround : 10 * ((count opts + 9) / 10) = opts / 1024 := by omega
    refine ⟨_, _, traversePtrchain_links hpos (count opts), ?_, ?_, rfl⟩
    · rw [hround]
      exact eachBlock_hops h
    · have hzero := (period_dvd_iff hn (period opts)).mpr (Nat.dvd_refl _)
      rw [period_of_dvd h] at hzero
      rw [hround, chain, hzero]
      rfl

theorem benchmark_initworker_turns_20k :
    ∃ links, Memrand.benchmarkInitworker 20480 (List.replicate 2560 0) = .ok links ∧
      Cachetocache.benchmarkInitworker 20480 (List.replicate 2560 0) = .ok links ∧
      Turns 20480 links :=
  benchmark_initworker_turns 20480 (List.replicate 2560 0) (by decide) List.length_replicate

end LibMicro.PointerChain
