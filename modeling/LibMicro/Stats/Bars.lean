import LibMicro.Stats.RoundedScale

namespace LibMicro.Stats

variable {histo : ℤ → HistoT} {c c' t : ℤ}

def stars (count total : ℤ) : ℕ := if count = 0 then 0 else max 1 (32 * count / total).toNat

theorem bar_eq (hc : 0 ≤ c) (t : ℤ) :
    bar c t = List.replicate (stars c t) '*' ++ List.replicate (32 - stars c t) ' ' := by
  have hdiv : (32 * c).tdiv t = 32 * c / t := Int.tdiv_eq_ediv_of_nonneg (by omega)
  rcases eq_or_ne c 0 with rfl | h
  · simp [bar, stars, List.replicate_succ]
  · obtain ⟨k, hk⟩ : ∃ k, max 1 (32 * c / t).toNat = k + 1 :=
      ⟨_, (Nat.sub_add_cancel (by omega)).symm⟩
    have hk' : (32 * c / t).toNat - 1 = k := by omega
    simp only [bar, stars, hdiv, if_neg h, if_pos h]
    rw [hk, hk', List.replicate_succ]

theorem count_bar (hc : 0 ≤ c) (t : ℤ) : (bar c t).count '*' = stars c t := by
  simp [bar_eq hc, List.count_replicate]

theorem stars_mono (ht : 0 < t) (hc : 0 ≤ c) (h : c ≤ c') : stars c t ≤ stars c' t := by
  unfold stars
  have hdiv : 32 * c / t ≤ 32 * c' / t := Int.ediv_le_ediv ht (by omega)
  split_ifs <;> omega

/-- A bar is too long from about one column beyond `total` on. -/
theorem stars_le_iff (hc : 0 < c) (ht : 0 < t) : stars c t ≤ 32 ↔ 32 * c < 33 * t := by
  rw [stars, if_neg hc.ne', ← Int.ediv_lt_iff_lt_mul ht]
  omega

/-- Every bar has 32 columns, and a higher one stands for more samples. -/
structure Bars (r : Report) : Prop where
  wide : ∀ row ∈ r.rows ++ [r.beyond], ∃ k ≤ 32,
    row.bar = List.replicate k '*' ++ List.replicate (32 - k) ' ' ∧
      (0 < row.count → 0 < k) ∧ (row.count = 0 → k = 0)
  mono : ∀ row ∈ r.rows ++ [r.beyond], ∀ row' ∈ r.rows ++ [r.beyond],
    row.count ≤ row'.count → row.bar.count '*' ≤ row'.bar.count '*'

theorem larger_attained (histo : ℤ → HistoT) (n : ℕ) :
    ((List.range n).foldl (larger histo) (0, 0)).2 = 0 ∨
      ∃ i < n, (histo i).count = ((List.range n).foldl (larger histo) (0, 0)).2 := by
  induction n with
  | zero => exact .inl rfl
  | succ n ih =>
    rw [List.range_succ, List.foldl_append, List.foldl_cons, List.foldl_nil]
    generalize (List.range n).foldl (larger histo) (0, 0) = best at *
    have hbest : best.2 = 0 ∨ ∃ i < n + 1, (histo i).count = best.2 := by
      apply ih.imp_right
      rintro ⟨i, hi, he⟩
      exact ⟨i, by omega, he⟩
    unfold larger
    split_ifs
    · exact .inr ⟨n, n.lt_succ_self, rfl⟩
    · exact hbest
    · exact hbest

theorem lt_largest_iff (hc : 0 ≤ c) :
    c < 33 * (findLargest histo).2 ↔ ∃ i < histosize, c < 33 * (histo i).count := by
  have hspec := findLargest_spec histo
  constructor
  · intro h
    rcases larger_attained histo histosize with h₀ | ⟨i, hi, he⟩
    · rw [findLargest, h₀] at h
      omega
    · exact ⟨i, hi, by rwa [he]⟩
  · rintro ⟨i, hi, hlt⟩
    have := (hspec.bound i hi (by omega)).2
    omega

def beyond (ns : List ℤ) : ℕ := ns.length - ns.length * 95 / 100

namespace Rounded

open FloatingPoint

variable {R : Rounding 53} {rd : ℚ → ℚ} {ns : List ℤ} {sc : Scale} {x : ℚ}

def barWidth (rd : ℚ → ℚ) (ns : List ℤ) : ℤ := width rd ⌊least rd ns⌋ (percentile rd ns)

/-- The multiple of the width that is not above the least sample. -/
def base (rd : ℚ → ℚ) (ns : List ℤ) : ℤ := ⌊least rd ns⌋ / barWidth rd ns * barWidth rd ns

/-- How many times the width a sample is above that. From the 31st on they count as one. -/
def group (rd : ℚ → ℚ) (ns : List ℤ) (x : ℚ) : ℤ :=
  min ⌊rd (x - rd (base rd ns)) / barWidth rd ns⌋ 31

/-- Some group is so large that the bar of those above the percentile is not longer
by more than a column. -/
def Crowded (rd : ℚ → ℚ) (ns : List ℤ) : Prop :=
  ∃ q, 32 * beyond ns < 33 * ((below (usecs rd ns)).filter (group rd ns · = q)).length

theorem least_nonneg (h₀ : ∀ a ∈ ns, 0 ≤ a) (h2 : 2 ≤ ns.length) : 0 ≤ least R ns := by
  obtain ⟨a, ha, he⟩ := List.mem_map.mp (below_subset (least_mem R h2))
  have ha' : (0 : ℚ) ≤ a := by exact_mod_cast h₀ a ha
  rw [← he]
  exact R.ge isFloat_zero (div_nonneg (R.ge isFloat_zero ha') (by norm_num))

theorem bucket_eq_group (hb : ∀ a ∈ ns, |a| ≤ 2 ^ 63) (h₀ : ∀ a ∈ ns, 0 ≤ a) (h2 : 2 ≤ ns.length)
    (hs : Scaled R (least R ns) (percentile R ns) sc) (hx : x ∈ below (usecs R ns)) :
    bucket R sc x = group R ns x ∧ 0 ≤ bucket R sc x := by
  have hl := least_nonneg (R := R) h₀ h2
  have hd : Sample (least R ns) := sample_of_mem hb (below_subset (least_mem R h2))
  have hstart : start R (least R ns) = ⌊least R ns⌋ := start_of_nonneg hd hl
  have hy : sc.y = barWidth R ns := by rw [hs.y, hstart, barWidth]
  have hmin : sc.min = base R ns := by
    rw [hs.min_eq, hstart, hy, Int.tdiv_eq_ediv_of_nonneg (Int.floor_nonneg.mpr hl), base]
  have hbucket := hs.bucket_eq (x := x) ((hs.min_le hd hl).trans (place_zero_le hx))
  rw [offset, hmin, hy] at hbucket
  exact hbucket

theorem crowded_iff (hb : ∀ a ∈ ns, |a| ≤ 2 ^ 63) (h₀ : ∀ a ∈ ns, 0 ≤ a) (h2 : 2 ≤ ns.length)
    (hs : Scaled R (least R ns) (percentile R ns) sc) :
    32 * (beyond ns : ℤ) < 33 * (findLargest (filled R (usecs R ns) sc).loop.histo).2 ↔
      Crowded R ns := by
  have hgroup (j : ℤ) : (below (usecs R ns)).filter (bucket R sc · = j) =
      (below (usecs R ns)).filter (group R ns · = j) := by
    apply List.filter_congr
    intro x hx
    rw [decide_eq_decide, (bucket_eq_group hb h₀ h2 hs hx).1]
  rw [lt_largest_iff (by omega)]
  constructor
  · rintro ⟨j, -, hj⟩
    rw [count_filled, hgroup] at hj
    exact ⟨_, by exact_mod_cast hj⟩
  · rintro ⟨q, hq⟩
    obtain ⟨x, hx⟩ := List.exists_mem_of_length_pos
      (show 0 < ((below (usecs R ns)).filter (group R ns · = q)).length by omega)
    obtain ⟨hx, hgx⟩ := List.mem_filter.mp hx
    obtain ⟨hbucket, hnonneg⟩ := bucket_eq_group hb h₀ h2 hs hx
    rw [of_decide_eq_true hgx] at hbucket
    have hlt := bucket_lt R sc x
    obtain ⟨j, hj⟩ := Int.eq_ofNat_of_zero_le hnonneg
    refine ⟨j, by omega, ?_⟩
    rw [count_filled, hgroup, show (j : ℤ) = q by omega]
    exact_mod_cast hq

theorem mem_bars (rd : ℚ → ℚ) {f : Filled} {row : Row}
    (h : row ∈ (reportOf rd f).rows ++ [(reportOf rd f).beyond]) :
    row.bar = bar row.count (findLargest f.loop.histo).2 ∧
      ((∃ i < histosize, row.count = (f.loop.histo i).count) ∨
        row.count = (f.data.drop f.i95).length) := by
  rcases List.mem_append.mp h with h | h
  · obtain ⟨i, hi, rfl⟩ := List.mem_map.mp h
    have hlast := last_lt f.loop.histo
    rw [List.mem_range] at hi
    exact ⟨rfl, .inl ⟨i, by omega, rfl⟩⟩
  · obtain rfl := List.mem_singleton.mp h
    refine ⟨rfl, .inr ?_⟩
    simp [reportOf, Rounded.row, count_foldl]

theorem beyond_pos (h2 : 2 ≤ ns.length) : 0 < beyond ns := by
  unfold beyond
  omega

theorem length_rest (rd : ℚ → ℚ) (ns : List ℤ) (sc : Scale) :
    ((filled rd (usecs rd ns) sc).data.drop (filled rd (usecs rd ns) sc).i95).length =
      beyond ns := by
  simp [filled, beyond]

/-- The bar of the samples above the percentile is the only one that can be too long. -/
theorem bars_reportOf (h2 : 2 ≤ ns.length)
    (hpos : 0 < (findLargest (filled rd (usecs rd ns) sc).loop.histo).2) :
    Bars (reportOf rd (filled rd (usecs rd ns) sc)) ↔
      32 * (beyond ns : ℤ) < 33 * (findLargest (filled rd (usecs rd ns) sc).loop.histo).2 := by
  have hbeyond : (0 : ℤ) < beyond ns := by exact_mod_cast beyond_pos h2
  have hnonneg : ∀ row ∈ (reportOf rd (filled rd (usecs rd ns) sc)).rows ++
      [(reportOf rd (filled rd (usecs rd ns) sc)).beyond], 0 ≤ row.count := by
    intro row hrow
    rcases (mem_bars rd hrow).2 with ⟨i, -, hc⟩ | hc
    · rw [hc, count_filled]
      exact Int.natCast_nonneg _
    · rw [hc]
      exact Int.natCast_nonneg _
  rw [← stars_le_iff hbeyond hpos]
  constructor
  · intro h
    have hmem := List.mem_append_right (reportOf rd (filled rd (usecs rd ns) sc)).rows
      (List.mem_singleton_self (reportOf rd (filled rd (usecs rd ns) sc)).beyond)
    have hcount : (reportOf rd (filled rd (usecs rd ns) sc)).beyond.count = beyond ns := by
      rw [← length_rest rd ns sc]
      simp [reportOf, Rounded.row, count_foldl]
    obtain ⟨k, hk, hbar, -⟩ := h.wide _ hmem
    rw [(mem_bars rd hmem).1, hcount] at hbar
    rw [← count_bar hbeyond.le, hbar]
    simpa [List.count_replicate] using hk
  · intro h
    constructor
    case wide =>
      intro row hrow
      obtain ⟨hbar, hcases⟩ := mem_bars rd hrow
      refine ⟨_, ?_, hbar.trans (bar_eq (hnonneg row hrow) _), fun hc ↦ ?_, fun hc ↦ if_pos hc⟩
      · rcases hcases with ⟨i, hi, hc⟩ | hc
        · rcases (hnonneg row hrow).eq_or_lt with h₀ | h₀
          · rw [stars, if_pos h₀.symm]
            omega
          · have hle := ((findLargest_spec _).bound i hi (hc ▸ h₀)).2
            rw [stars_le_iff h₀ hpos]
            omega
        · rwa [hc, length_rest]
      · rw [stars, if_neg hc.ne']
        omega
    case mono =>
      intro row hrow row' hrow' hle
      rw [(mem_bars rd hrow).1, (mem_bars rd hrow').1, count_bar (hnonneg row hrow),
        count_bar (hnonneg row' hrow')]
      exact stars_mono hpos (hnonneg row hrow) hle

/-- The bars of timings have their 32 columns if and only if the samples are crowded. -/
theorem bars_iff (R : Rounding 53) (ns : List ℤ) (hb : ∀ a ∈ ns, |a| ≤ 2 ^ 63)
    (h₀ : ∀ a ∈ ns, 0 ≤ a) (h2 : 2 ≤ ns.length) :
    (∃ d r, printHisto R (usecs R ns) = .ok (d, r) ∧ Bars r) ↔
      ns.length * 95 < 2 ^ 31 ∧ Crowded R ns := by
  have hreport (hn : ns.length * 95 < 2 ^ 31) :
      ∃ d r, printHisto R (usecs R ns) = .ok (d, r) ∧ (Bars r ↔ Crowded R ns) := by
    rcases fillHisto_cases R hb h2 hn with ⟨hl, -⟩ | ⟨-, sc, hf, hs⟩
    · exact absurd hl.1.1 (least_nonneg h₀ h2).not_gt
    · have hmem := least_mem R h2
      have hpos := counted R hmem (bucket_eq_group hb h₀ h2 hs hmem).2
      refine ⟨_, _, printHisto_eq R hf hpos.ne', ?_⟩
      rw [bars_reportOf h2 hpos, crowded_iff hb h₀ h2 hs]
  constructor
  · rintro ⟨d, r, hr, hbars⟩
    obtain ⟨f, hf, -⟩ := bind_ok hr
    have hn := fillHisto_inv hf
    rw [length_usecs] at hn
    obtain ⟨d', r', hr', hiff⟩ := hreport hn
    cases hr.symm.trans hr'
    exact ⟨hn, hiff.mp hbars⟩
  · rintro ⟨hn, hc⟩
    obtain ⟨d, r, hr, hiff⟩ := hreport hn
    exact ⟨d, r, hr, hiff.mpr hc⟩

/-- No two samples below the percentile of this list share a bucket. The range is
31 times the width but for what gets lost in the rounding. -/
def spread : List ℤ :=
  (List.range 19).map (fun i : ℕ ↦ (50000000000 * i : ℤ)) ++ List.replicate 2 1549999999031

theorem bars_iff_twentyone :
    barWidth double spread = 50000000 ∧ ¬ Crowded double spread ∧
      ¬ ∃ d r, printHisto double (usecs double spread) = .ok (d, r) ∧ Bars r := by
  have hmap : (below (usecs double spread)).map (group double spread) =
      (List.range 19).map Int.ofNat := by decide +kernel
  have hnot : ¬ Crowded double spread := by
    rintro ⟨q, hq⟩
    have hcount : ((below (usecs double spread)).filter (group double spread · = q)).length =
        ((List.range 19).map Int.ofNat).count q := by
      rw [← hmap, List.count, List.countP_map, List.countP_eq_length_filter]
      rfl
    have hone := List.nodup_iff_count_le_one.mp
      (List.nodup_range.map Int.ofNat_injective : ((List.range 19).map Int.ofNat).Nodup) q
    have hbeyond : beyond spread = 2 := by decide
    omega
  have hiff := bars_iff double spread (by decide) (by decide) (by decide)
  exact ⟨by decide +kernel, hnot, fun h ↦ hnot (hiff.mp h).2⟩

/-- With samples of 0 to 20 microseconds every bucket has one, and there are two above
the percentile. -/
theorem bars_overlong :
    ¬ ∀ ns : List ℤ, (∀ a ∈ ns, |a| ≤ 2 ^ 63) → (∀ a ∈ ns, 0 ≤ a) → 2 ≤ ns.length →
      ∀ d r, printHisto double (usecs double ns) = .ok (d, r) → Bars r := by
  intro h
  have hrun : (printHisto double (usecs double ((List.range 21).map fun i : ℕ ↦ (1000 * i : ℤ)))).map
      (fun p ↦ p.2.beyond.bar.length) = .ok 64 := by decide +kernel
  cases hr : printHisto double (usecs double ((List.range 21).map fun i : ℕ ↦ (1000 * i : ℤ))) with
  | error e =>
    rw [hr] at hrun
    cases hrun
  | ok p =>
    rw [hr] at hrun
    have hbars := h _ (by decide) (by decide) (by decide) p.1 p.2 hr
    obtain ⟨k, hk, hbar, -⟩ := hbars.wide _ (List.mem_append_right _ (List.mem_singleton_self _))
    have hlen : p.2.beyond.bar.length = 64 := Except.ok.inj hrun
    rw [hbar, List.length_append, List.length_replicate, List.length_replicate] at hlen
    omega

end Rounded

theorem mem_bars {f : Filled} {row : Row}
    (h : row ∈ (reportOf f).rows ++ [(reportOf f).beyond]) :
    row.bar = bar row.count (findLargest f.loop.histo).2 ∧
      ((∃ i < histosize, row.count = (f.loop.histo i).count) ∨
        row.count = (f.data.drop f.i95).length) :=
  Rounded.mem_bars id h

end LibMicro.Stats
