import LibMicro.Stats.Histogram

namespace LibMicro.Stats

variable {data : List ℚ} {n k : ℕ}

def percent (n k : ℕ) : Except Fault ℕ := do
  let product ← int32 (n * k)
  return product / 100

def bytes (count : ℕ) : ℤ := Int.bmod (8 * count) (2 ^ 32)

/-- The places that are read from `n` sorted samples, and the size of their copy. -/
structure InRange (n : ℕ) : Prop where
  places : ∃ p95 p99, percent n 95 = .ok p95 ∧ percent n 99 = .ok p99 ∧
    n / 2 ≤ p95 ∧ p95 ≤ p99 ∧ p99 < n
  bytes : bytes n = 8 * n

theorem percent_of_lt (h : n * k < 2 ^ 31) : percent n k = .ok (n * k / 100) :=
  ok_bind (int32_of_lt h) _

theorem percent_inv {p : ℕ} (h : percent n k = .ok p) : n * k < 2 ^ 31 := by
  obtain ⟨product, hp, -⟩ := bind_ok h
  exact (int32_inv hp).1

theorem bytes_of_lt (h : n < 2 ^ 28) : bytes n = 8 * n := by
  apply Int.bmod_eq_of_le
  · norm_num
    omega
  · norm_num
    omega

theorem inRange_iff (h : 1 ≤ n) : InRange n ↔ n * 99 < 2 ^ 31 := by
  constructor
  · intro hr
    obtain ⟨p95, p99, -, h99, -⟩ := hr.places
    exact percent_inv h99
  · intro hn
    refine ⟨⟨n * 95 / 100, n * 99 / 100, percent_of_lt (by omega), percent_of_lt hn, ?_⟩,
      bytes_of_lt (by omega)⟩
    omega

theorem crunchStats_returns_iff (h : data ≠ []) :
    (∃ st, crunchStats data = .ok (data, st)) ↔ data.length * 99 < 2 ^ 31 := by
  constructor
  · rintro ⟨st, hst⟩
    exact (crunchStats_inv hst).2
  · intro hn
    exact ⟨_, crunchStats_eq h hn⟩

theorem fillHisto_overflow_iff (h : data ≠ []) (hn : data.length < 2 ^ 31) :
    fillHisto data = .error .overflow ↔ 2 ^ 31 ≤ data.length * 95 := by
  constructor
  · intro he
    by_contra hlt
    rw [fillHisto_eq h (not_le.mp hlt)] at he
    simp only [findScale] at he
    split_ifs at he <;> cases he
  · intro hle
    have hover : int32 (data.length * 95) = .error .overflow := if_neg hle.not_gt
    have hlen := List.length_pos_iff.mpr h
    simp only [fillHisto, ok_bind (int32_of_lt hn), ok_bind (index_qsort hlen), hover]
    rfl

/-- The products are in range up to `99`, and then so is everything else. Beyond that
`crunch_stats` has no result, and soon `print_histo` has none either. -/
theorem counts_in_range (n : ℕ) (h : 1 ≤ n) (hn : n < 2 ^ 31) :
    (InRange n ↔ n * 99 < 2 ^ 31) ∧
      ∀ data : List ℚ, data.length = n →
        ((∃ st, crunchStats data = .ok (data, st)) ↔ n * 99 < 2 ^ 31) ∧
        (fillHisto data = .error .overflow ↔ 2 ^ 31 ≤ n * 95) := by
  refine ⟨inRange_iff h, ?_⟩
  rintro data rfl
  have hne : data ≠ [] := List.ne_nil_of_length_pos h
  exact ⟨crunchStats_returns_iff hne, fillHisto_overflow_iff hne hn⟩

/-- With 22 million samples only `count * 99` is too large. -/
theorem counts_in_range_millions :
    ¬ InRange 22000000 ∧ ∀ data : List ℚ, data.length = 22000000 →
      (¬ ∃ st, crunchStats data = .ok (data, st)) ∧ fillHisto data ≠ .error .overflow := by
  obtain ⟨hrange, hdata⟩ := counts_in_range 22000000 (by norm_num) (by norm_num)
  refine ⟨fun h ↦ absurd (hrange.mp h) (by norm_num), fun data hlen ↦ ?_⟩
  obtain ⟨hcrunch, hhisto⟩ := hdata data hlen
  exact ⟨fun h ↦ absurd (hcrunch.mp h) (by norm_num), fun h ↦ absurd (hhisto.mp h) (by norm_num)⟩

/-- The samples of `-C 30m`. -/
theorem counts_overflow : ¬ ∀ n, 1 ≤ n → n < 2 ^ 31 → InRange n := by
  intro h
  obtain ⟨p95, p99, h95, -⟩ := (h (30 * 2 ^ 20) (by norm_num) (by norm_num)).places
  exact absurd (percent_inv h95) (by norm_num)

end LibMicro.Stats
