import LibMicro.Binning
import LibMicro.Stats.Crunch
import LibMicro.Stats.Scaling

namespace LibMicro.Stats

open Binning

variable {rd : ℚ → ℚ} {data l : List ℚ} {sc : Scale} {f : Filled} {histo : ℤ → HistoT}

theorem foldl_add (l : List ℚ) (h : HistoT) :
    l.foldl HistoT.add h = ⟨h.sum + l.sum, h.count + l.length⟩ := by
  induction l generalizing h with
  | nil => simp
  | cons x l ih =>
    rw [List.foldl_cons, ih, HistoT.add, List.sum_cons, List.length_cons]
    push_cast
    rw [HistoT.mk.injEq]
    constructor <;> ring

theorem Rounded.count_foldl (l : List ℚ) (h : HistoT) :
    (l.foldl (Rounded.add rd) h).count = h.count + l.length := by
  induction l generalizing h with
  | nil => simp
  | cons x l ih =>
    rw [List.foldl_cons, ih, Rounded.add, List.length_cons]
    push_cast
    ring

theorem Rounded.populate_foldl (l : List ℚ) (L : Loop) :
    (l.foldl (Rounded.populate rd sc) L).histo =
        accumulate (Rounded.add rd) (Rounded.bucket rd sc) L.histo l ∧
      (l.foldl (Rounded.populate rd sc) L).count = L.count + l.length := by
  induction l generalizing L with
  | nil => simp [accumulate]
  | cons x l ih =>
    obtain ⟨hh, hc⟩ := ih (Rounded.populate rd sc L x)
    rw [List.foldl_cons, hh, hc, accumulate_cons, List.length_cons]
    refine ⟨rfl, ?_⟩
    simp only [Rounded.populate]
    push_cast
    ring

theorem populate_foldl (l : List ℚ) (L : Loop) :
    l.foldl (populate sc) L =
      { histo := accumulate HistoT.add sc.bucket L.histo l
        sum := L.sum + l.sum
        count := L.count + l.length
        panics := L.panics + l.countP sc.panics
        used := L.used ++ l.map sc.bucket } := by
  induction l generalizing L with
  | nil => simp [accumulate]
  | cons x l ih =>
    rw [List.foldl_cons, ih, accumulate_cons, List.countP_cons]
    simp only [populate, List.sum_cons, List.length_cons, List.map_cons, List.append_assoc,
      List.singleton_append, Loop.mk.injEq, true_and, and_true]
    refine ⟨by ring, by push_cast; ring, ?_⟩
    split_ifs <;> omega

def below (data : List ℚ) : List ℚ := (qsort data).take (data.length * 95 / 100)

def Rounded.filled (rd : ℚ → ℚ) (data : List ℚ) (sc : Scale) : Filled where
  data := qsort data
  i95 := data.length * 95 / 100
  p95 := place data (data.length * 95 / 100)
  scale := sc
  loop := (below data).foldl (Rounded.populate rd sc) .start

def filled (data : List ℚ) (sc : Scale) : Filled where
  data := qsort data
  i95 := data.length * 95 / 100
  p95 := place data (data.length * 95 / 100)
  scale := sc
  loop := (below data).foldl (populate sc) .start

theorem Rounded.fillHisto_eq (rd : ℚ → ℚ) (h : data ≠ []) (hn : data.length * 95 < 2 ^ 31) :
    Rounded.fillHisto rd data = (Rounded.findScale rd (place data 0)
      (place data (data.length * 95 / 100))).map (Rounded.filled rd data) := by
  have hlen := List.length_pos_iff.mpr h
  simp only [Rounded.fillHisto, ok_bind (int32_of_lt (show data.length < 2 ^ 31 by omega)),
    ok_bind (index_qsort hlen), ok_bind (int32_of_lt hn),
    ok_bind (index_qsort (show data.length * 95 / 100 < data.length by omega))]
  cases Rounded.findScale rd (place data 0) (place data (data.length * 95 / 100)) <;> rfl

theorem fillHisto_eq (h : data ≠ []) (hn : data.length * 95 < 2 ^ 31) :
    fillHisto data =
      (findScale (place data 0) (place data (data.length * 95 / 100))).map (filled data) := by
  rw [← Rounded.fillHisto_id, Rounded.fillHisto_eq id h hn, Rounded.findScale_id]
  rfl

theorem length_below (data : List ℚ) : (below data).length = data.length * 95 / 100 := by
  rw [below, List.length_take, length_qsort]
  omega

theorem mem_below {x : ℚ} :
    x ∈ below data ↔ ∃ i < data.length * 95 / 100, x = place data i := by
  rw [below, List.mem_take_iff_getElem]
  constructor
  · rintro ⟨i, hi, rfl⟩
    exact ⟨i, by omega, (place_eq _).symm⟩
  · rintro ⟨i, hi, rfl⟩
    have hlt : i < (qsort data).length := by
      rw [length_qsort]
      omega
    exact ⟨i, by omega, (place_eq hlt).symm⟩

theorem loop_filled (data : List ℚ) (sc : Scale) :
    (filled data sc).loop =
      { histo := accumulate HistoT.add sc.bucket (fun _ ↦ ⟨0, 0⟩) (below data)
        sum := 0 + (below data).sum
        count := 0 + (below data).length
        panics := 0 + (below data).countP sc.panics
        used := [] ++ (below data).map sc.bucket } :=
  populate_foldl (below data) .start

theorem place_zero_le {x : ℚ} (hx : x ∈ below data) : place data 0 ≤ x := by
  obtain ⟨i, hi, rfl⟩ := mem_below.mp hx
  exact place_le (Nat.zero_le i) (by omega)

theorem le_place_percentile {x : ℚ} (hx : x ∈ below data) :
    x ≤ place data (data.length * 95 / 100) := by
  obtain ⟨i, hi, rfl⟩ := mem_below.mp hx
  exact place_le hi.le (by omega)

theorem below_subset {x : ℚ} (hx : x ∈ below data) : x ∈ data :=
  (qsort_perm data).mem_iff.mp (List.mem_of_mem_take hx)

theorem Rounded.count_filled (rd : ℚ → ℚ) (data : List ℚ) (sc : Scale) (j : ℤ) :
    ((Rounded.filled rd data sc).loop.histo j).count =
      ((below data).filter (Rounded.bucket rd sc · = j)).length := by
  rw [Rounded.filled]
  dsimp only
  rw [(Rounded.populate_foldl _ _).1, accumulate_apply, Rounded.count_foldl]
  exact zero_add _

theorem count_filled (j : ℤ) :
    ((filled data sc).loop.histo j).count = ((below data).filter (sc.bucket · = j)).length :=
  Rounded.count_filled id data sc j

structure Largest (histo : ℤ → HistoT) (n : ℕ) (best : ℕ × ℤ) : Prop where
  last_le : best.1 ≤ n - 1
  nonneg : 0 ≤ best.2
  bound : ∀ i < n, 0 < (histo i).count → i ≤ best.1 ∧ (histo i).count ≤ best.2
  some : 0 < best.2 → ∃ i < n, 0 < (histo i).count

theorem Largest.larger {n : ℕ} {best : ℕ × ℤ} (h : Largest histo n best) :
    Largest histo (n + 1) (larger histo best n) := by
  unfold Stats.larger
  split_ifs with hn hm
  · refine ⟨le_rfl, hn.le, fun i hi hc ↦ ?_, fun _ ↦ ⟨n, n.lt_succ_self, hn⟩⟩
    rcases Nat.lt_succ_iff_lt_or_eq.mp hi with hi | rfl
    · exact ⟨hi.le, (h.bound i hi hc).2.trans hm.le⟩
    · exact ⟨le_rfl, le_rfl⟩
  · refine ⟨le_rfl, h.nonneg, fun i hi hc ↦ ?_, fun _ ↦ ⟨n, n.lt_succ_self, hn⟩⟩
    rcases Nat.lt_succ_iff_lt_or_eq.mp hi with hi | rfl
    · exact ⟨hi.le, (h.bound i hi hc).2⟩
    · exact ⟨le_rfl, not_lt.mp hm⟩
  · refine ⟨h.last_le.trans (Nat.sub_le n 1), h.nonneg, fun i hi hc ↦ ?_, fun hb ↦ ?_⟩
    · rcases Nat.lt_succ_iff_lt_or_eq.mp hi with hi | rfl
      · exact h.bound i hi hc
      · exact absurd hc hn
    · obtain ⟨i, hi, hc⟩ := h.some hb
      exact ⟨i, hi.trans n.lt_succ_self, hc⟩

theorem findLargest_spec (histo : ℤ → HistoT) : Largest histo histosize (findLargest histo) := by
  unfold findLargest
  induction histosize with
  | zero => exact ⟨le_rfl, le_rfl, fun i hi ↦ absurd hi (Nat.not_lt_zero i), fun h ↦ absurd h (lt_irrefl 0)⟩
  | succ n ih =>
    rw [List.range_succ, List.foldl_append]
    exact ih.larger

theorem last_lt (histo : ℤ → HistoT) : (findLargest histo).1 < histosize := by
  have := (findLargest_spec histo).last_le
  unfold histosize at this ⊢
  omega

def Rounded.row (rd : ℚ → ℚ) (label : Option ℚ) (h : HistoT) (maxcount : ℤ) : Row :=
  ⟨h.count, label, bar h.count maxcount, if h.count > 0 then some (rd (h.sum / h.count)) else none⟩

def row (label : Option ℚ) (h : HistoT) (maxcount : ℤ) : Row :=
  ⟨h.count, label, bar h.count maxcount, if h.count > 0 then some (h.sum / h.count) else none⟩

theorem Rounded.printRow_eq (label : Option ℚ) (h : HistoT) {m : ℤ} (hm : m ≠ 0) :
    Rounded.printRow rd label h m = .ok (Rounded.row rd label h m) :=
  ok_bind (if_neg hm) _

theorem Rounded.printRow_zero (label : Option ℚ) (h : HistoT) :
    Rounded.printRow rd label h 0 = .error .divide := rfl

def Rounded.reportOf (rd : ℚ → ℚ) (f : Filled) : Report where
  panics := f.loop.panics
  rows := (List.range ((findLargest f.loop.histo).1 + 1)).map fun i : ℕ ↦
    Rounded.row rd (some (Rounded.label rd f.scale i)) (f.loop.histo i) (findLargest f.loop.histo).2
  beyond := Rounded.row rd none ((f.data.drop f.i95).foldl (Rounded.add rd) ⟨0, 0⟩)
    (findLargest f.loop.histo).2
  m95 := Rounded.fdiv rd f.loop.sum f.loop.count
  p95 := f.p95

def reportOf (f : Filled) : Report where
  panics := f.loop.panics
  rows := (List.range ((findLargest f.loop.histo).1 + 1)).map fun i : ℕ ↦
    row (some (f.scale.label i)) (f.loop.histo i) (findLargest f.loop.histo).2
  beyond := row none ((f.data.drop f.i95).foldl HistoT.add ⟨0, 0⟩) (findLargest f.loop.histo).2
  m95 := fdiv f.loop.sum f.loop.count
  p95 := f.p95

theorem Rounded.printHisto_eq (rd : ℚ → ℚ) (hf : Rounded.fillHisto rd data = .ok f)
    (hm : (findLargest f.loop.histo).2 ≠ 0) :
    Rounded.printHisto rd data = .ok (f.data, Rounded.reportOf rd f) := by
  rw [Rounded.printHisto, ok_bind hf]
  simp only [Rounded.printRow_eq _ _ hm]
  refine (ok_bind (List.mapM_pure ..) _).trans ?_
  rfl

theorem printHisto_eq (hf : fillHisto data = .ok f) (hm : (findLargest f.loop.histo).2 ≠ 0) :
    printHisto data = .ok (f.data, reportOf f) := by
  rw [← Rounded.fillHisto_id] at hf
  rw [← Rounded.printHisto_id]
  exact Rounded.printHisto_eq id hf hm

theorem Rounded.printHisto_divide (hf : Rounded.fillHisto rd data = .ok f)
    (hm : (findLargest f.loop.histo).2 = 0) : Rounded.printHisto rd data = .error .divide := by
  have hrows : (List.range ((findLargest f.loop.histo).1 + 1)).mapM
      (fun i : ℕ ↦ Rounded.printRow rd (some (Rounded.label rd f.scale i)) (f.loop.histo i)
        (findLargest f.loop.histo).2) = .error .divide := by
    simp only [hm, Rounded.printRow_zero]
    rw [List.range_succ_eq_map, List.mapM_cons]
    rfl
  rw [Rounded.printHisto, ok_bind hf]
  simp only
  rw [hrows]
  rfl

theorem printHisto_divide (hf : fillHisto data = .ok f) (hm : (findLargest f.loop.histo).2 = 0) :
    printHisto data = .error .divide := by
  rw [← Rounded.fillHisto_id] at hf
  rw [← Rounded.printHisto_id]
  exact Rounded.printHisto_divide hf hm

def usecs (ns : List ℤ) : List ℚ := ns.map fun a : ℤ ↦ (a : ℚ) / 1000

variable {ns : List ℤ}

@[simp]
theorem length_usecs (ns : List ℤ) : (usecs ns).length = ns.length := List.length_map _

theorem place_usecs (ns : List ℤ) {k : ℕ} (hk : k < ns.length) :
    ∃ a ∈ ns, place (usecs ns) k = a / 1000 := by
  rw [← length_usecs ns] at hk
  obtain ⟨a, ha, he⟩ := List.mem_map.mp (place_mem hk)
  exact ⟨a, ha, he.symm⟩

def least (ns : List ℤ) : ℚ := place (usecs ns) 0

def percentile (ns : List ℤ) : ℚ := place (usecs ns) (ns.length * 95 / 100)

theorem least_le {x : ℚ} (hx : x ∈ below (usecs ns)) : least ns ≤ x := place_zero_le hx

theorem le_percentile {x : ℚ} (hx : x ∈ below (usecs ns)) : x ≤ percentile ns := by
  have := le_place_percentile hx
  rwa [length_usecs] at this

theorem least_mem (h2 : 2 ≤ ns.length) : least ns ∈ below (usecs ns) := by
  refine mem_below.mpr ⟨0, ?_, rfl⟩
  rw [length_usecs]
  omega

theorem fillHisto_cases (h2 : 2 ≤ ns.length) (hn : ns.length * 95 < 2 ^ 31) :
    (bucketWidth (percentile ns - start (least ns) + 1) = 0 ∧
        fillHisto (usecs ns) = .error .divide) ∨
      ∃ sc, fillHisto (usecs ns) = .ok (filled (usecs ns) sc) ∧
        Scaled (least ns) (percentile ns) sc := by
  have hne : usecs ns ≠ [] := by
    rw [← List.length_pos_iff, length_usecs]
    omega
  have hfill := fillHisto_eq hne (by rwa [length_usecs])
  obtain ⟨a, -, ha⟩ := place_usecs ns (show 0 < ns.length by omega)
  have hle : least ns ≤ percentile ns := place_le (Nat.zero_le _) (by rw [length_usecs]; omega)
  rw [length_usecs] at hfill
  have hrange : 0 ≤ percentile ns - start (least ns) + 1 := by
    rw [least, ha]
    exact range_nonneg (ha ▸ hle)
  rcases findScale_cases hrange with ⟨hzero, he⟩ | ⟨sc, hsc, hs⟩
  · refine .inl ⟨hzero, hfill.trans ?_⟩
    rw [← least, ← percentile, he]
    rfl
  · refine .inr ⟨sc, hfill.trans ?_, hs⟩
    rw [← least, ← percentile, hsc]
    rfl

theorem Rounded.bucket_lt (rd : ℚ → ℚ) (sc : Scale) (x : ℚ) :
    Rounded.bucket rd sc x < histosize := by
  unfold Rounded.bucket Rounded.panics
  split_ifs with h
  · omega
  · exact not_le.mp (by simpa using h)

theorem Rounded.bucket_nonneg_iff (rd : ℚ → ℚ) (sc : Scale) (x : ℚ) :
    0 ≤ Rounded.bucket rd sc x ↔ 0 ≤ Rounded.quotient rd sc x := by
  unfold Rounded.bucket Rounded.panics
  split_ifs with h
  · have h : (histosize : ℤ) ≤ Rounded.quotient rd sc x := by simpa using h
    simp only [histosize] at h ⊢
    omega
  · rfl

theorem bucket_lt (sc : Scale) (x : ℚ) : sc.bucket x < histosize := Rounded.bucket_lt id sc x

theorem bucket_nonneg_iff (sc : Scale) (x : ℚ) : 0 ≤ sc.bucket x ↔ 0 ≤ sc.quotient x :=
  Rounded.bucket_nonneg_iff id sc x

theorem quotient_neg_iff (hs : Scaled (least ns) (percentile ns) sc) (h2 : 2 ≤ ns.length) {x : ℚ}
    (hx : x ∈ below (usecs ns)) :
    sc.quotient x < 0 ↔ x = least ns ∧ Misplaced (least ns) (percentile ns) := by
  obtain ⟨a, -, ha⟩ := place_usecs ns (show 0 < ns.length by omega)
  have hle := least_le hx
  rw [least, ha] at hs hle ⊢
  exact hs.quotient_neg_iff hle

theorem mem_indices {j : ℤ} :
    j ∈ (filled data sc).indices ↔ (∃ x ∈ below data, sc.bucket x = j) ∨
      (∃ i < histosize, (i : ℤ) = j) ∨
      ∃ i < (findLargest (filled data sc).loop.histo).1 + 1, (i : ℤ) = j := by
  simp [Filled.indices, loop_filled]

theorem indices_iff (hs : Scaled (least ns) (percentile ns) sc) (h2 : 2 ≤ ns.length) :
    (∀ j ∈ (filled (usecs ns) sc).indices, 0 ≤ j ∧ j < histosize) ↔
      ¬ Misplaced (least ns) (percentile ns) := by
  constructor
  · intro h hm
    have hmem := least_mem h2
    have hneg := (quotient_neg_iff hs h2 hmem).mpr ⟨rfl, hm⟩
    have hpos := (h _ (mem_indices.mpr (.inl ⟨_, hmem, rfl⟩))).1
    exact hneg.not_ge ((bucket_nonneg_iff sc _).mp hpos)
  · intro hm j hj
    have hlast := last_lt (filled (usecs ns) sc).loop.histo
    rcases mem_indices.mp hj with ⟨x, hx, rfl⟩ | ⟨i, hi, rfl⟩ | ⟨i, hi, rfl⟩
    · refine ⟨(bucket_nonneg_iff sc x).mpr (not_lt.mp fun hneg ↦ ?_), bucket_lt sc x⟩
      exact hm ((quotient_neg_iff hs h2 hx).mp hneg).2
    · omega
    · omega

theorem Rounded.fillHisto_inv (h : Rounded.fillHisto rd data = .ok f) :
    data.length * 95 < 2 ^ 31 := by
  obtain ⟨n, hn, h⟩ := bind_ok h
  obtain ⟨-, rfl⟩ := int32_inv hn
  obtain ⟨_, _, h⟩ := bind_ok h
  obtain ⟨n, hn, h⟩ := bind_ok h
  exact (int32_inv hn).1

theorem fillHisto_inv (h : fillHisto data = .ok f) : data.length * 95 < 2 ^ 31 := by
  rw [← Rounded.fillHisto_id] at h
  exact Rounded.fillHisto_inv h

/-- Every access to the histogram stays within it, unless the least sample is a
negative whole number of microseconds and divisible by the width of the buckets. -/
theorem histogram_in_bounds (ns : List ℤ) (h2 : 2 ≤ ns.length) (f : Filled)
    (hf : fillHisto (usecs ns) = .ok f) :
    (∀ j ∈ f.indices, 0 ≤ j ∧ j < histosize) ↔ ¬ Misplaced (least ns) (percentile ns) := by
  have hn := fillHisto_inv hf
  rw [length_usecs] at hn
  rcases fillHisto_cases h2 hn with ⟨-, he⟩ | ⟨sc, he, hs⟩
  · cases he.symm.trans hf
  · cases he.symm.trans hf
    exact indices_iff hs h2

theorem histogram_in_bounds_two :
    (∀ j ∈ (filled (usecs [1000, 2500]) ⟨1, 1, 31⟩).indices, 0 ≤ j ∧ j < histosize) ↔
      ¬ Misplaced (least [1000, 2500]) (percentile [1000, 2500]) :=
  histogram_in_bounds [1000, 2500] (by decide) _ <| by
    rw [fillHisto_eq (by decide) (by decide)]
    have hscale : findScale (place (usecs [1000, 2500]) 0)
        (place (usecs [1000, 2500]) ((usecs [1000, 2500]).length * 95 / 100)) =
          .ok ⟨1, 1, 31⟩ := by decide +kernel
    rw [hscale]
    rfl

/-- With samples of -1 and 0 microseconds the element in front of the histogram is
counted up. -/
theorem histogram_early :
    ¬ ∀ ns : List ℤ, 2 ≤ ns.length → percentile ns - least ns + 2 < 31 * 10 ^ 9 →
      ∀ f, fillHisto (usecs ns) = .ok f → ∀ j ∈ f.indices, 0 ≤ j ∧ j < histosize := by
  intro h
  have hrun : (fillHisto (usecs [-1000, 0])).map (fun f ↦ decide (-1 ∈ f.indices)) = .ok true := by
    decide +kernel
  cases hf : fillHisto (usecs [-1000, 0]) with
  | error e =>
    rw [hf] at hrun
    cases hrun
  | ok f =>
    rw [hf] at hrun
    have hmem : -1 ∈ f.indices := of_decide_eq_true (Except.ok.inj hrun)
    have := (h _ (by decide) (by decide +kernel) f hf (-1) hmem).1
    omega

/-- The histogram tells exactly how many samples lie between which labels. -/
structure ExactHisto (ns : List ℤ) (f : Filled) (r : Report) : Prop where
  ends : let x := (percentile ns - start (least ns) + 1) / 31
    (scaleDown ⌊x⌋₊ x 0).1 < 10
  y : 1 ≤ f.scale.y
  dvd : f.scale.y ∣ f.scale.min
  min_le : f.scale.min ≤ least ns
  between : ∀ i < f.i95, ∀ x, f.data[i]? = some x →
    0 ≤ f.scale.quotient x ∧ f.scale.quotient x < histosize ∧
      f.scale.label (f.scale.quotient x) ≤ x ∧ x < f.scale.label (f.scale.quotient x + 1)
  panics : r.panics = 0
  printed : ∀ j < histosize, (f.loop.histo j).count ≠ 0 → ∃ row, r.rows[j]? = some row ∧
    row.count = (f.loop.histo j).count ∧ row.label = some (f.scale.label j)
  total : ((List.range histosize).map fun j : ℕ ↦ (f.loop.histo j).count).sum = f.i95
  rest : f.i95 + r.beyond.count = ns.length

theorem quotient_of_nonneg (hs : Scaled (least ns) (percentile ns) sc) (h₀ : ∀ a ∈ ns, 0 ≤ a)
    (h2 : 2 ≤ ns.length) (hp : percentile ns - least ns + 2 < 31 * 10 ^ 9) :
    sc.min ≤ least ns ∧ ∀ x ∈ below (usecs ns), 0 ≤ sc.quotient x ∧
      sc.quotient x < histosize ∧ sc.label (sc.quotient x) ≤ x ∧
      x < sc.label (sc.quotient x + 1) := by
  obtain ⟨a, hmem, ha⟩ := place_usecs ns (show 0 < ns.length by omega)
  have hle : least ns = a / 1000 := ha
  rw [hle] at hs hp ⊢
  have hmin := hs.min_le_of_nonneg (h₀ a hmem)
  refine ⟨hmin, fun x hx ↦ ?_⟩
  obtain ⟨hq, hl, hr⟩ := hs.between (hmin.trans (hle ▸ least_le hx))
  refine ⟨hq, hs.quotient_lt (by decide) ?_, hl, hr⟩
  exact (le_percentile hx).trans_lt (hs.fits_of_nonneg (h₀ a hmem) hp)

theorem bucket_of_lt {x : ℚ} (h : sc.quotient x < histosize) :
    sc.panics x = false ∧ sc.bucket x = sc.quotient x := by
  have hp : sc.panics x = false := decide_eq_false (not_le.mpr h)
  exact ⟨hp, if_neg (by simp [hp])⟩

theorem Rounded.counted (rd : ℚ → ℚ) {x : ℚ} (hx : x ∈ below data)
    (h₀ : 0 ≤ Rounded.bucket rd sc x) :
    0 < (findLargest (Rounded.filled rd data sc).loop.histo).2 := by
  obtain ⟨j, hj⟩ := Int.eq_ofNat_of_zero_le h₀
  have hlt := Rounded.bucket_lt rd sc x
  have hpos : 0 < ((Rounded.filled rd data sc).loop.histo j).count := by
    rw [Rounded.count_filled]
    exact_mod_cast List.length_pos_of_mem (List.mem_filter.mpr ⟨hx, by simpa using hj⟩)
  have := ((findLargest_spec _).bound j (by omega) hpos).2
  omega

theorem counted {x : ℚ} (hx : x ∈ below data) (h₀ : 0 ≤ sc.bucket x) :
    0 < (findLargest (filled data sc).loop.histo).2 := Rounded.counted id hx h₀

theorem sum_counts (h : ∀ x ∈ below data, 0 ≤ sc.bucket x) :
    ((List.range histosize).map fun j : ℕ ↦ ((filled data sc).loop.histo j).count).sum =
      ((data.length * 95 / 100 : ℕ) : ℤ) := by
  have hsum := sum_length_filter (f := sc.bucket) (n := histosize) fun x hx ↦
    ⟨h x hx, bucket_lt sc x⟩
  rw [length_below] at hsum
  rw [← hsum, ← Nat.coe_castRingHom, map_list_sum, List.map_map]
  exact congrArg List.sum (List.map_congr_left fun j _ ↦ count_filled j)

theorem fillHisto_of_nonneg (h₀ : ∀ a ∈ ns, 0 ≤ a) (h2 : 2 ≤ ns.length)
    (hn : ns.length * 95 < 2 ^ 31) :
    ∃ sc, fillHisto (usecs ns) = .ok (filled (usecs ns) sc) ∧
      Scaled (least ns) (percentile ns) sc := by
  rcases fillHisto_cases h2 hn with ⟨hzero, -⟩ | h
  · exfalso
    obtain ⟨a, hmem, ha⟩ := place_usecs ns (show 0 < ns.length by omega)
    have hle : least ns = a / 1000 := ha
    have hstart := start_le (h₀ a hmem)
    have hrange := bucketWidth_eq_zero hzero
    have := le_percentile (least_mem h2)
    rw [← hle] at hstart
    linarith
  · exact h

/-- Timings are put into the right buckets, and `panic!` is never printed. -/
theorem histogram_exact (ns : List ℤ) (h₀ : ∀ a ∈ ns, 0 ≤ a) (h2 : 2 ≤ ns.length)
    (hn : ns.length * 95 < 2 ^ 31) (hp : percentile ns - least ns + 2 < 31 * 10 ^ 9) :
    ∃ f r, fillHisto (usecs ns) = .ok f ∧ printHisto (usecs ns) = .ok (f.data, r) ∧
      ExactHisto ns f r := by
  obtain ⟨sc, hf, hs⟩ := fillHisto_of_nonneg h₀ h2 hn
  obtain ⟨hmin, hq⟩ := quotient_of_nonneg hs h₀ h2 hp
  have hb : ∀ x ∈ below (usecs ns), sc.bucket x = sc.quotient x := fun x hx ↦
    (bucket_of_lt (hq x hx).2.1).2
  have hpos : ∀ x ∈ below (usecs ns), 0 ≤ sc.bucket x := fun x hx ↦
    hb x hx ▸ (hq x hx).1
  have hmax := (counted (least_mem h2) (hpos _ (least_mem h2))).ne'
  refine ⟨_, _, hf, printHisto_eq hf hmax, ?_⟩
  constructor
  case ends =>
    intro x
    rw [(scaleDown_floor x).1]
    exact (scaleDown_floor x).2
  case y => exact hs.pos
  case dvd => exact hs.dvd
  case min_le => exact hmin
  case between =>
    intro i hi x hx
    refine hq x (List.mem_take_iff_getElem.mpr ?_)
    obtain ⟨hlt, rfl⟩ := List.getElem?_eq_some_iff.mp hx
    exact ⟨i, lt_min hi hlt, rfl⟩
  case panics =>
    simp only [reportOf, loop_filled, Nat.zero_add, List.countP_eq_zero]
    intro x hx
    simp [(bucket_of_lt (hq x hx).2.1).1]
  case printed =>
    intro j hj hne
    have hc : 0 < ((filled (usecs ns) sc).loop.histo j).count := by
      rw [count_filled] at hne ⊢
      omega
    have hle := ((findLargest_spec _).bound j hj hc).1
    refine ⟨row (some (sc.label j)) ((filled (usecs ns) sc).loop.histo j)
      (findLargest (filled (usecs ns) sc).loop.histo).2, ?_, rfl, rfl⟩
    rw [reportOf, List.getElem?_map, List.getElem?_range (Nat.lt_succ_of_le hle)]
    rfl
  case total =>
    exact sum_counts hpos
  case rest =>
    simp only [reportOf, row, filled, foldl_add, List.length_drop, length_qsort, length_usecs]
    omega

theorem histogram_exact_three :
    ∃ f r, fillHisto (usecs [1000, 2500, 1700]) = .ok f ∧
      printHisto (usecs [1000, 2500, 1700]) = .ok (f.data, r) ∧
      ExactHisto [1000, 2500, 1700] f r :=
  histogram_exact [1000, 2500, 1700] (by decide) (by decide) (by decide) (by decide +kernel)

end LibMicro.Stats
