import Mathlib.Algebra.Order.BigOperators.Group.List
import Mathlib.Algebra.Order.Field.Basic
import LibMicro.OrderStatistics
import LibMicro.Stats.Rounded

namespace LibMicro.Stats

open OrderStatistics

variable {rd : ℚ → ℚ} {data d : List ℚ} {st : StatsT} {x : ℚ}

@[simp]
theorem doublecmp_nonpos_iff (a b : ℚ) : doublecmp a b ≤ 0 ↔ a ≤ b := by
  unfold doublecmp
  split_ifs with h h'
  · exact iff_of_false (by decide) h.not_ge
  · exact iff_of_true (by decide) h'.le
  · exact iff_of_true le_rfl (not_lt.mp h)

theorem qsort_eq (data : List ℚ) : qsort data = data.insertionSort (· ≤ ·) := by
  simp only [qsort, doublecmp_nonpos_iff]

theorem qsort_perm (data : List ℚ) : (qsort data).Perm data :=
  qsort_eq data ▸ List.perm_insertionSort _ data

theorem qsort_pairwise (data : List ℚ) : (qsort data).Pairwise (· ≤ ·) :=
  qsort_eq data ▸ List.pairwise_insertionSort _ data

@[simp]
theorem length_qsort (data : List ℚ) : (qsort data).length = data.length :=
  (qsort_perm data).length_eq

theorem ok_bind {α β : Type} {a : Except Fault α} {x : α} (h : a = .ok x)
    (f : α → Except Fault β) : a >>= f = f x := by
  rw [h]
  rfl

theorem bind_ok {α β : Type} {a : Except Fault α} {f : α → Except Fault β} {y : β}
    (h : a >>= f = .ok y) : ∃ x, a = .ok x ∧ f x = .ok y := by
  cases a with
  | error e => cases h
  | ok x => exact ⟨x, rfl, h⟩

theorem int32_of_lt {n : ℕ} (h : n < 2 ^ 31) : int32 n = .ok n := if_pos h

theorem index_getElem {a : List ℚ} {i : ℕ} (h : i < a.length) : index a i = .ok a[i] := by
  rw [index, List.getElem?_eq_getElem h]

theorem fdiv_of_ne {a b : ℚ} (h : b ≠ 0) : fdiv a b = some (a / b) := if_neg h

theorem assert_of_true {p : Prop} {_ : Decidable p} (h : p) : assert p = .ok () := if_pos h

theorem total_eq_sum (data : List ℚ) : total data = data.sum := List.sum_eq_foldl.symm

theorem findMax_eq_foldl (data : List ℚ) : findMax data = data.foldl max (-1) := by
  have hf : (fun stMax x : ℚ ↦ if x > stMax then x else stMax) = max := by
    funext a b
    exact (max_def_lt a b).symm
  rw [findMax, hf]

theorem Rounded.findMin_eq_foldl (rd : ℚ → ℚ) (data : List ℚ) :
    Rounded.findMin rd data = data.foldl min (rd (10 ^ 99)) := by
  have hf : (fun stMin x : ℚ ↦ if x < stMin then x else stMin) = min := by
    funext a b
    rw [min_comm]
    exact (min_def_lt b a).symm
  rw [Rounded.findMin, hf]

theorem findMin_eq_foldl (data : List ℚ) : findMin data = data.foldl min (10 ^ 99) :=
  Rounded.findMin_eq_foldl id data

theorem findMax_eq (h : data ≠ []) : findMax data = max (-1) (data.max h) :=
  (findMax_eq_foldl data).trans (List.foldl_max_eq_max h)

theorem Rounded.findMin_eq (rd : ℚ → ℚ) (h : data ≠ []) :
    Rounded.findMin rd data = min (rd (10 ^ 99)) (data.min h) :=
  (Rounded.findMin_eq_foldl rd data).trans (List.foldl_min_eq_min h)

theorem findMin_eq (h : data ≠ []) : findMin data = min (10 ^ 99) (data.min h) :=
  Rounded.findMin_eq id h

theorem le_findMax (hx : x ∈ data) : x ≤ findMax data := by
  rw [findMax_eq (List.ne_nil_of_mem hx)]
  exact le_max_of_le_right (List.le_max_of_mem hx)

theorem Rounded.findMin_le (rd : ℚ → ℚ) (hx : x ∈ data) : Rounded.findMin rd data ≤ x := by
  rw [Rounded.findMin_eq rd (List.ne_nil_of_mem hx)]
  exact min_le_of_right_le (List.min_le_of_mem hx)

theorem findMin_le (hx : x ∈ data) : findMin data ≤ x := Rounded.findMin_le id hx

def place (data : List ℚ) (k : ℕ) : ℚ := (qsort data).getD k 0

theorem place_eq {k : ℕ} (hk : k < (qsort data).length) : place data k = (qsort data)[k] :=
  List.getD_eq_getElem?_getD.trans (by rw [List.getElem?_eq_getElem]; rfl)

theorem index_qsort {k : ℕ} (hk : k < data.length) : index (qsort data) k = .ok (place data k) := by
  rw [← length_qsort] at hk
  rw [place_eq hk]
  exact index_getElem hk

theorem place_mem {k : ℕ} (hk : k < data.length) : place data k ∈ data := by
  rw [← length_qsort] at hk
  rw [place_eq hk]
  exact (qsort_perm data).mem_iff.mp (List.getElem_mem hk)

theorem place_rank {k : ℕ} (hk : k < data.length) : HasRank data k (place data k) := by
  rw [← length_qsort] at hk
  rw [place_eq hk]
  exact (hasRank_getElem (qsort_pairwise data) hk).perm (qsort_perm data)

theorem place_le {i k : ℕ} (hik : i ≤ k) (hk : k < data.length) : place data i ≤ place data k := by
  rw [← length_qsort] at hk
  rw [place_eq (hik.trans_lt hk), place_eq hk]
  rcases hik.lt_or_eq with h | rfl
  · exact List.pairwise_iff_getElem.mp (qsort_pairwise data) i k (h.trans hk) hk h
  · exact le_rfl

def crunched (data : List ℚ) : StatsT where
  stMin := findMin data
  stMax := findMax data
  stRange := findMax data - findMin data
  stMean := fdiv (total data) data.length
  stMedian := place data (data.length / 2)
  stVariance := (fdiv (total data) data.length).bind fun mean ↦
    fdiv (deviations mean data) (data.length - 1)
  stP95 := place data (data.length * 95 / 100)
  stP99 := place data (data.length * 99 / 100)

def Rounded.crunched (rd : ℚ → ℚ) (data : List ℚ) : StatsT where
  stMin := Rounded.findMin rd data
  stMax := findMax data
  stRange := rd (findMax data - Rounded.findMin rd data)
  stMean := Rounded.fdiv rd (Rounded.total rd data) data.length
  stMedian := place data (data.length / 2)
  stVariance := (Rounded.fdiv rd (Rounded.total rd data) data.length).bind fun mean ↦
    Rounded.fdiv rd (Rounded.deviations rd mean data) (data.length - 1)
  stP95 := place data (data.length * 95 / 100)
  stP99 := place data (data.length * 99 / 100)

theorem crunched_asserts (rd : ℚ → ℚ) (h : data ≠ []) :
    Rounded.findMin rd data ≤ place data (data.length * 95 / 100) ∧
      place data (data.length * 95 / 100) ≤ place data (data.length * 99 / 100) ∧
      place data (data.length * 99 / 100) ≤ findMax data := by
  have hlen := List.length_pos_iff.mpr h
  exact ⟨Rounded.findMin_le rd (place_mem (by omega)), place_le (by omega) (by omega),
    le_findMax (place_mem (by omega))⟩

theorem sortedCopy_of_lt {n : ℕ} (hn : n < 2 ^ 28) : sortedCopy data n = .ok (qsort data) := by
  have hb : Int.bmod (8 * (n : ℤ)) (2 ^ 32) = 8 * n := by
    apply Int.bmod_eq_of_le <;> norm_num <;> omega
  exact if_pos hb

theorem Rounded.crunchStats_eq (rd : ℚ → ℚ) (h : data ≠ []) (hn : data.length * 99 < 2 ^ 31) :
    Rounded.crunchStats rd data = .ok (data, Rounded.crunched rd data) := by
  have hlen := List.length_pos_iff.mpr h
  obtain ⟨h₁, h₂, h₃⟩ := crunched_asserts rd h
  simp only [Rounded.crunchStats, ok_bind (int32_of_lt (show data.length < 2 ^ 31 by omega)),
    ok_bind (int32_of_lt (show data.length * 95 < 2 ^ 31 by omega)), ok_bind (int32_of_lt hn),
    ok_bind (sortedCopy_of_lt (show data.length < 2 ^ 28 by omega)),
    ok_bind (index_qsort (show data.length / 2 < data.length by omega)),
    ok_bind (index_qsort (show data.length * 95 / 100 < data.length by omega)),
    ok_bind (index_qsort (show data.length * 99 / 100 < data.length by omega)),
    ok_bind (assert_of_true h₁), ok_bind (assert_of_true h₂), ok_bind (assert_of_true h₃)]
  rfl

theorem crunchStats_eq (h : data ≠ []) (hn : data.length * 99 < 2 ^ 31) :
    crunchStats data = .ok (data, crunched data) :=
  Rounded.crunchStats_eq id h hn

theorem int32_inv {n m : ℕ} (h : int32 n = .ok m) : n < 2 ^ 31 ∧ m = n := by
  unfold int32 at h
  split_ifs at h with hn
  exact ⟨hn, (Except.ok.inj h).symm⟩

theorem sortedCopy_inv {n : ℕ} (h : sortedCopy data n = .ok d) : qsort data = d := by
  unfold sortedCopy at h
  split_ifs at h
  exact Except.ok.inj h

theorem index_inv {a : List ℚ} {i : ℕ} (h : index a i = .ok x) : a[i]? = some x := by
  unfold index at h
  split at h
  · rename_i ha
    exact ha.trans (congrArg some (Except.ok.inj h))
  · cases h

theorem Rounded.crunchStats_inv (rd : ℚ → ℚ) (h : Rounded.crunchStats rd data = .ok (d, st)) :
    data ≠ [] ∧ data.length * 99 < 2 ^ 31 := by
  obtain ⟨count, hc, h⟩ := bind_ok h
  obtain ⟨-, rfl⟩ := int32_inv hc
  obtain ⟨dup, hdup, h⟩ := bind_ok h
  obtain rfl := sortedCopy_inv hdup
  obtain ⟨m, hm, h⟩ := bind_ok h
  obtain ⟨_, _, h⟩ := bind_ok h
  obtain ⟨_, _, h⟩ := bind_ok h
  obtain ⟨n, hn, h⟩ := bind_ok h
  refine ⟨fun he ↦ ?_, (int32_inv hn).1⟩
  subst he
  cases index_inv hm

theorem crunchStats_inv (h : crunchStats data = .ok (d, st)) :
    data ≠ [] ∧ data.length * 99 < 2 ^ 31 :=
  Rounded.crunchStats_inv id h

theorem Rounded.crunchStats_ok (rd : ℚ → ℚ) (h : Rounded.crunchStats rd data = .ok (d, st)) :
    d = data ∧ st = Rounded.crunched rd data := by
  obtain ⟨h₀, hn⟩ := Rounded.crunchStats_inv rd h
  cases (Rounded.crunchStats_eq rd h₀ hn).symm.trans h
  exact ⟨rfl, rfl⟩

theorem crunchStats_ok (h : crunchStats data = .ok (d, st)) : d = data ∧ st = crunched data :=
  Rounded.crunchStats_ok id h

/-- The asserts let every run pass, and the percentiles have their ranks. -/
theorem order_statistics (data : List ℚ) (h : data ≠ []) (hn : data.length * 99 < 2 ^ 31) :
    ∃ st, crunchStats data = .ok (data, st) ∧
      HasRank data (data.length / 2) st.stMedian ∧
      HasRank data (data.length * 95 / 100) st.stP95 ∧
      HasRank data (data.length * 99 / 100) st.stP99 ∧
      st.stMin ≤ st.stP95 ∧ st.stP95 ≤ st.stP99 ∧ st.stP99 ≤ st.stMax := by
  have hlen := List.length_pos_iff.mpr h
  exact ⟨crunched data, crunchStats_eq h hn, place_rank (by omega), place_rank (by omega),
    place_rank (by omega), crunched_asserts id h⟩

theorem order_statistics_three :
    ∃ st, crunchStats [3, -2, 1] = .ok ([3, -2, 1], st) ∧
      HasRank [3, -2, 1] 1 st.stMedian ∧ HasRank [3, -2, 1] 2 st.stP95 ∧
      HasRank [3, -2, 1] 2 st.stP99 ∧
      st.stMin ≤ st.stP95 ∧ st.stP95 ≤ st.stP99 ∧ st.stP99 ≤ st.stMax :=
  order_statistics [3, -2, 1] (by decide) (by decide)

structure RealExtremes (data : List ℚ) (st : StatsT) : Prop where
  least : st.stMin ∈ data ∧ ∀ x ∈ data, st.stMin ≤ x
  greatest : st.stMax ∈ data ∧ ∀ x ∈ data, x ≤ st.stMax
  range : st.stRange = st.stMax - st.stMin
  mean : ∃ m, st.stMean = some m ∧ st.stMin ≤ m ∧ m ≤ st.stMax

theorem findMin_mem (h : data ≠ []) (hb : ∀ x ∈ data, x < 10 ^ 99) : findMin data ∈ data := by
  rw [findMin_eq h, min_eq_right (hb _ (List.min_mem h)).le]
  exact List.min_mem h

theorem findMax_mem_iff (h : data ≠ []) : findMax data ∈ data ↔ ∃ x ∈ data, -1 ≤ x := by
  refine ⟨fun hm ↦ ⟨_, hm, findMax_eq h ▸ le_max_left _ _⟩, fun ⟨x, hx, hle⟩ ↦ ?_⟩
  rw [findMax_eq h, max_eq_right (hle.trans (List.le_max_of_mem hx))]
  exact List.max_mem h

theorem mean_between (h : data ≠ []) :
    ∃ m, fdiv (total data) data.length = some m ∧ findMin data ≤ m ∧ m ≤ findMax data := by
  have hlen : (0 : ℚ) < data.length := Nat.cast_pos.mpr (List.length_pos_iff.mpr h)
  refine ⟨_, fdiv_of_ne hlen.ne', ?_, ?_⟩
  · rw [le_div_iff₀ hlen, total_eq_sum, mul_comm, ← nsmul_eq_mul]
    exact List.card_nsmul_le_sum _ _ fun x hx ↦ findMin_le hx
  · rw [div_le_iff₀ hlen, total_eq_sum, mul_comm, ← nsmul_eq_mul]
    exact List.sum_le_card_nsmul _ _ fun x hx ↦ le_findMax hx

/-- The greatest sample is looked for from -1 on, and below it none is found. -/
theorem extremes_real (data : List ℚ) (h : data ≠ []) (hb : ∀ x ∈ data, x < 10 ^ 99) :
    (data.length * 99 < 2 ^ 31 → ∃ st, crunchStats data = .ok (data, st)) ∧
      ∀ d st, crunchStats data = .ok (d, st) →
        (RealExtremes data st ↔ ∃ x ∈ data, -1 ≤ x) := by
  refine ⟨fun hn ↦ ⟨_, crunchStats_eq h hn⟩, fun d st hst ↦ ?_⟩
  rw [(crunchStats_ok hst).2]
  refine ⟨fun hr ↦ (findMax_mem_iff h).mp hr.greatest.1, fun hx ↦ ?_⟩
  exact ⟨⟨findMin_mem h hb, fun x ↦ findMin_le⟩, ⟨(findMax_mem_iff h).mpr hx, fun x ↦ le_findMax⟩,
    rfl, mean_between h⟩

theorem extremes_real_four :
    ∃ st, crunchStats [-3, 4, -1 / 2, 2] = .ok ([-3, 4, -1 / 2, 2], st) ∧
      (RealExtremes [-3, 4, -1 / 2, 2] st ↔ ∃ x ∈ [-3, 4, -1 / 2, (2 : ℚ)], -1 ≤ x) := by
  obtain ⟨hok, hiff⟩ := extremes_real [-3, 4, -1 / 2, 2] (by decide) (by decide +kernel)
  obtain ⟨st, hst⟩ := hok (by decide)
  exact ⟨st, hst, hiff _ st hst⟩

/-- One sample of -2 microseconds is reported with the maximum -1. -/
theorem extremes_below :
    ¬ ∀ data : List ℚ, data ≠ [] → (∀ x ∈ data, -10 ^ 99 < x ∧ x < 10 ^ 99) →
      ∀ d st, crunchStats data = .ok (d, st) → RealExtremes data st := by
  intro h
  have hst := crunchStats_eq (show [(-2 : ℚ)] ≠ [] by decide) (by decide)
  have hr := h [-2] (by decide) (by decide +kernel) _ _ hst
  have hmax : findMax [(-2 : ℚ)] = -1 := by decide +kernel
  have hmem : findMax [(-2 : ℚ)] ∈ [(-2 : ℚ)] := hr.greatest.1
  rw [hmax] at hmem
  exact absurd hmem (by decide)

end LibMicro.Stats
