import LibMicro.Stats.RoundedScale

namespace LibMicro.Stats.Rounded

open FloatingPoint

variable {R : Rounding 53} {rd : ℚ → ℚ} {ns : List ℤ} {sc : Scale} {raw : StatsT} {x : ℚ}

/-- The report on the nanoseconds is printed, and every quotient in it has a value. -/
def Divides (rd : ℚ → ℚ) (ns : List ℤ) (raw : StatsT) : Prop :=
  ∃ st r, report rd (ns.map fun a : ℤ ↦ rd a) raw = .ok (some (st, r)) ∧
    st.stMean.isSome ∧ st.stVariance.isSome ∧ r.m95.isSome

/-- Nothing below the 95th percentile can be drawn: the least sample is lifted, and
either it is the percentile too, or a multiple of the width and all there is. -/
def Empty (rd : ℚ → ℚ) (ns : List ℤ) : Prop :=
  Lifted rd (least rd ns) ∧
    (percentile rd ns = least rd ns ∨
      width rd (start rd (least rd ns)) (percentile rd ns) ∣ (least rd ns).num ∧
        place (usecs rd ns) (ns.length * 95 / 100 - 1) = least rd ns)

instance (rd : ℚ → ℚ) (ns : List ℤ) : Decidable (Empty rd ns) :=
  inferInstanceAs (Decidable (_ ∧ _))

theorem computeStats_eq (h : 1 ≤ ns.length) (raw : StatsT) :
    computeStats rd (ns.map fun a : ℤ ↦ rd a) raw = crunchStats rd (usecs rd ns) := by
  have hmap : (ns.map fun a : ℤ ↦ rd a).map (fun x ↦ rd (x / 1000)) = usecs rd ns := List.map_map
  rw [computeStats, hmap]
  exact if_pos (by rwa [length_usecs])

theorem fdiv_isSome (rd : ℚ → ℚ) {a b : ℚ} : (fdiv rd a b).isSome ↔ b ≠ 0 := by
  unfold fdiv
  split_ifs with h <;> simp [h]

theorem mean_isSome (rd : ℚ → ℚ) (h : 1 ≤ ns.length) : (crunched rd (usecs rd ns)).stMean.isSome := by
  refine (fdiv_isSome rd).mpr ?_
  rw [length_usecs]
  exact_mod_cast (Nat.lt_of_lt_of_le zero_lt_one h).ne'

theorem variance_isSome (h : 1 ≤ ns.length) :
    (crunched rd (usecs rd ns)).stVariance.isSome ↔ 2 ≤ ns.length := by
  obtain ⟨mean, hmean⟩ := Option.isSome_iff_exists.mp (mean_isSome rd h)
  change ((crunched rd (usecs rd ns)).stMean.bind _).isSome ↔ _
  rw [hmean, Option.bind_some, fdiv_isSome, length_usecs, sub_ne_zero]
  norm_cast
  omega

theorem bucket_neg_iff (hb : ∀ a ∈ ns, |a| ≤ 2 ^ 63) (h2 : 2 ≤ ns.length)
    (hs : Scaled R (least R ns) (percentile R ns) sc) (hx : x ∈ below (usecs R ns)) :
    bucket R sc x < 0 ↔ x = least R ns ∧ Lifted R (least R ns) ∧ sc.y ∣ (least R ns).num := by
  rw [← not_le, bucket_nonneg_iff, not_le]
  exact hs.quotient_neg_iff (sample_of_mem hb (below_subset (least_mem R h2)))
    (sample_of_mem hb (below_subset hx)) (place_zero_le hx)

theorem maxcount_eq_zero_iff (rd : ℚ → ℚ) (data : List ℚ) (sc : Scale) :
    (findLargest (filled rd data sc).loop.histo).2 = 0 ↔
      ∀ x ∈ below data, bucket rd sc x < 0 := by
  constructor
  · intro hzero x hx
    by_contra! h
    exact (counted rd hx h).ne' hzero
  · intro hall
    have hspec := findLargest_spec (filled rd data sc).loop.histo
    by_contra hne
    obtain ⟨j, -, hj⟩ := hspec.some (lt_of_le_of_ne hspec.nonneg (Ne.symm hne))
    rw [count_filled] at hj
    obtain ⟨x, hx⟩ := List.exists_mem_of_length_pos (by exact_mod_cast hj)
    obtain ⟨hx, hbucket⟩ := List.mem_filter.mp hx
    have hneg := hall x hx
    rw [of_decide_eq_true hbucket] at hneg
    exact hneg.not_ge (Int.natCast_nonneg j)

theorem all_below_iff (rd : ℚ → ℚ) (h2 : 2 ≤ ns.length) :
    (∀ x ∈ below (usecs rd ns), x = least rd ns) ↔
      place (usecs rd ns) (ns.length * 95 / 100 - 1) = least rd ns := by
  have hlen := length_usecs rd ns
  constructor
  · exact fun h ↦ h _ (mem_below.mpr ⟨_, by omega, rfl⟩)
  · intro h x hx
    obtain ⟨i, hi, rfl⟩ := mem_below.mp hx
    exact le_antisymm (h ▸ place_le (by omega) (by omega)) (place_zero_le hx)

/-- `print_histo` divides only by numbers that are not zero unless the histogram
stays empty. -/
theorem printHisto_ok_iff (hb : ∀ a ∈ ns, |a| ≤ 2 ^ 63) (h2 : 2 ≤ ns.length)
    (hn : ns.length * 95 < 2 ^ 31) :
    (∃ d r, printHisto R (usecs R ns) = .ok (d, r) ∧ r.m95.isSome) ↔ ¬ Empty R ns := by
  rcases fillHisto_cases R hb h2 hn with ⟨hl, he⟩ | ⟨hno, sc, hf, hs⟩
  · have herr : printHisto R (usecs R ns) = .error .divide := by
      rw [printHisto, he]
      rfl
    exact iff_of_false (by simp [herr]) (not_not.mpr ⟨hl.1, .inl hl.2⟩)
  · have hempty : Empty R ns ↔ ∀ x ∈ below (usecs R ns), bucket R sc x < 0 := by
      have hmem := least_mem (R : ℚ → ℚ) h2
      rw [Empty, ← hs.y, ← all_below_iff R h2]
      constructor
      · rintro ⟨hl, hp | ⟨hdvd, hall⟩⟩ x hx
        · exact absurd ⟨hl, hp⟩ hno
        · exact (bucket_neg_iff hb h2 hs hx).mpr ⟨hall x hx, hl, hdvd⟩
      · intro h
        obtain ⟨-, hl, hdvd⟩ := (bucket_neg_iff hb h2 hs hmem).mp (h _ hmem)
        exact ⟨hl, .inr ⟨hdvd, fun x hx ↦ ((bucket_neg_iff hb h2 hs hx).mp (h x hx)).1⟩⟩
    rw [hempty, ← maxcount_eq_zero_iff]
    constructor
    · rintro ⟨d, r, hr, -⟩ hzero
      cases hr.symm.trans (printHisto_divide hf hzero)
    · intro hne
      refine ⟨_, _, printHisto_eq R hf hne, (fdiv_isSome R).mpr ?_⟩
      rw [filled, (populate_foldl _ _).2, length_below, length_usecs]
      simp only [Loop.start, zero_add]
      exact_mod_cast (show ns.length * 95 / 100 ≠ 0 by omega)

theorem printStats_ok_iff (h : 1 ≤ ns.length) {d : List ℚ} {st : StatsT} {r : Report} :
    printStats rd (usecs rd ns) raw = .ok (d, some (st, r)) ↔
      st = raw ∧ printHisto rd (usecs rd ns) = .ok (d, r) := by
  have hlen : ¬ (usecs rd ns).length = 0 := by
    rw [length_usecs]
    omega
  rw [printStats, if_neg hlen]
  cases printHisto rd (usecs rd ns) with
  | error e => simp [Except.map]
  | ok p =>
    simp only [Except.map, Except.ok.injEq, Prod.ext_iff, Option.some.injEq]
    tauto

/-- No divisor is zero in the report if and only if there are at least two samples
and the histogram does not stay empty; and with more samples than fit, it overflows. -/
theorem divides_iff (R : Rounding 53) (ns : List ℤ) (hb : ∀ a ∈ ns, |a| ≤ 2 ^ 63)
    (h : 1 ≤ ns.length) (raw : StatsT) :
    Divides R ns raw ↔ ns.length * 99 < 2 ^ 31 ∧ 2 ≤ ns.length ∧ ¬ Empty R ns := by
  have hne : usecs R ns ≠ [] := by
    rwa [← List.length_pos_iff, length_usecs]
  unfold Divides report
  rw [computeStats_eq h]
  constructor
  · rintro ⟨st, r, hr, -, hvariance, hm95⟩
    obtain ⟨⟨d, st'⟩, hc, hr⟩ := bind_ok hr
    obtain ⟨-, hn⟩ := crunchStats_inv R hc
    obtain ⟨rfl, rfl⟩ := crunchStats_ok R hc
    obtain ⟨⟨d, o⟩, hp, hr⟩ := bind_ok hr
    cases hr
    obtain ⟨hst, hhisto⟩ := (printStats_ok_iff h).mp hp
    rw [hst] at hvariance
    rw [length_usecs] at hn
    have h2 := (variance_isSome h).mp hvariance
    exact ⟨hn, h2, (printHisto_ok_iff hb h2 (by omega)).mp ⟨d, r, hhisto, hm95⟩⟩
  · rintro ⟨hn, h2, hempty⟩
    obtain ⟨d, r, hr, hm95⟩ := (printHisto_ok_iff hb h2 (by omega)).mpr hempty
    have hc := crunchStats_eq R hne (by rwa [length_usecs])
    have hp : printStats R (usecs R ns) (crunched R (usecs R ns)) =
        .ok (d, some (crunched R (usecs R ns), r)) := (printStats_ok_iff h).mpr ⟨rfl, hr⟩
    refine ⟨crunched R (usecs R ns), r, ?_, mean_isSome R h, (variance_isSome h).mpr h2, hm95⟩
    rw [ok_bind hc]
    dsimp only
    rw [ok_bind hp]
    rfl

/-- The range of these samples is 31 times the least one but for what gets lost in
the rounding. -/
def nearMultiple : List ℤ :=
  List.replicate 19 (-50000000000) ++ List.replicate 2 1500000000031

theorem divides_iff_twentyone :
    Empty double nearMultiple ∧ ¬ Divides double nearMultiple (crunched double []) := by
  have hempty : Empty double nearMultiple := by decide +kernel
  have hiff := divides_iff double nearMultiple (by decide) (by decide) (crunched double [])
  exact ⟨hempty, fun h ↦ (hiff.mp h).2.2 hempty⟩

/-- One sample makes the histogram empty, and the first bar is divided by zero. -/
theorem report_divides :
    report double [1000] (crunched double []) = .error .divide ∧
      ¬ ∀ ns : List ℤ, (∀ a ∈ ns, |a| ≤ 2 ^ 63) → 1 ≤ ns.length → ∀ raw, Divides double ns raw := by
  have hrun : report double [1000] (crunched double []) = .error .divide := by decide +kernel
  refine ⟨hrun, fun h ↦ ?_⟩
  obtain ⟨st, r, hr, -⟩ := h [1000] (by decide) (by decide) (crunched double [])
  have hone : double 1000 = 1000 := double.self ⟨1000, 0, by norm_num, by norm_num⟩
  rw [List.map_singleton, Int.cast_ofNat, hone] at hr
  cases hrun.symm.trans hr

end LibMicro.Stats.Rounded
