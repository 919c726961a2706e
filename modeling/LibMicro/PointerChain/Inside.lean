import LibMicro.PointerChain.Turns

namespace LibMicro.PointerChain

open ForLoop Stride

variable {n i k opts : ℕ} {data : Buffer}

/-- The link of an entry, also where the wrap-around is not enough. -/
def link (n i : ℕ) : ℤ :=
  let j : ℤ := i - 128
  if j < 0 then j + n else j

theorem setLinks_link (hdata : data.length = entries opts) :
    setLinks opts data = .ok ((List.range (entries opts)).map (link (entries opts))) := by
  let linked (k : ℕ) : Buffer := (List.range k).map (link (entries opts)) ++ data.drop k
  have hstart : linked 0 = data := by
    simp [linked]
  have hend : linked (entries opts) = (List.range (entries opts)).map (link (entries opts)) := by
    simp [linked, ← hdata]
  have hnext : ∀ i < entries opts,
      store (linked i) i (link (entries opts) i) = .ok (linked (i + 1)) := by
    intro i hi
    have hi' : ((List.range i).map (link (entries opts))).length < data.length := by
      simpa [hdata] using hi
    simpa [linked, List.range_succ] using store_next _ hi' (link (entries opts) i)
  have hloop : setLinks opts (linked 0) = .ok (linked (entries opts)) := forLoop_eq linked hnext
  rw [hstart, hend] at hloop
  exact hloop

structure Inside (opts : ℕ) (links : Buffer) : Prop where
  stored : ∀ j ∈ links, 0 ≤ j ∧ j < entries opts
  followed : ∃ ptr, follow links 10 0 = .ok ptr

theorem link_inside (hn : 128 ≤ n) (hi : i < n) : 0 ≤ link n i ∧ link n i < n := by
  unfold link
  dsimp only
  split <;> omega

theorem link_zero (hn : n < 128) : link n 0 < 0 := by
  unfold link
  dsimp only
  split <;> omega

theorem not_inside (hn : entries opts < 128) :
    ¬ Inside opts ((List.range (entries opts)).map (link (entries opts))) := by
  rintro ⟨hstored, ptr, hptr⟩
  rcases Nat.eq_zero_or_pos (entries opts) with h₀ | hpos
  · rw [h₀] at hptr
    cases hptr
  · have hmem := List.mem_map_of_mem (f := link (entries opts)) (List.mem_range.mpr hpos)
    exact (link_zero hn).not_ge (hstored _ hmem).1

/-- The chain stays in its buffer if and only if that is not smaller than a step. -/
theorem memrand_inside_iff (opts : ℕ) (data : Buffer) (hdata : data.length = entries opts) :
    (∃ links, Memrand.benchmarkInitworker opts data = .ok links ∧ Inside opts links) ↔
      1024 ≤ opts := by
  have hlink := setLinks_link hdata
  have hsize : 1024 ≤ opts ↔ 128 ≤ entries opts := by
    unfold entries
    omega
  rw [hsize]
  constructor
  · rintro ⟨links, hlinks, hinside⟩
    obtain rfl := Except.ok.inj (hlink.symm.trans hlinks)
    by_contra hn
    exact not_inside (not_le.mp hn) hinside
  · intro hn
    have heq := Except.ok.inj (hlink.symm.trans (setLinks_eq hn hdata))
    refine ⟨_, hlink, ?_, ?_⟩
    · intro j hj
      obtain ⟨i, hi, rfl⟩ := List.mem_map.mp hj
      exact link_inside hn (List.mem_range.mp hi)
    · rw [heq]
      exact ⟨_, follow_first (Nat.zero_lt_of_lt hn) 10⟩

theorem memrand_inside_iff_1m :
    (∃ links, Memrand.benchmarkInitworker (1024 * 1024) (List.replicate 131072 0) = .ok links ∧
      Inside (1024 * 1024) links) ↔ 1024 ≤ 1024 * 1024 :=
  memrand_inside_iff (1024 * 1024) (List.replicate 131072 0) List.length_replicate

theorem memrand_outside : ¬ ∀ opts data, data.length = entries opts →
    ∃ links, Memrand.benchmarkInitworker opts data = .ok links ∧ Inside opts links := by
  intro h
  obtain ⟨links, hlinks, hinside⟩ := h 8 [0] rfl
  have hlink : setLinks 8 [0] = .ok ((List.range (entries 8)).map (link (entries 8))) :=
    setLinks_link rfl
  obtain rfl := Except.ok.inj (hlink.symm.trans hlinks)
  exact not_inside (by decide) hinside

end LibMicro.PointerChain
