import LibMicro.Polling.Pairs

namespace LibMicro.Polling

open ForLoop RangeCount

structure Counts (o : Options) (m r w : ℕ) : Prop where
  optn : o.optn.toInt = (2 * m : ℕ)
  optr : o.optr.toInt = r
  optw : o.optw.toInt = w
  le : r ≤ 2 * m ∧ w ≤ 2 * m

variable {o : Options} {pair : ℕ → ℕ × ℕ} {m r w i : ℕ}

theorem check_counts (h : check o = .ok ()) : ∃ m r w, Counts o m r w := by
  unfold check at h
  dsimp only at h
  split_ifs at h with heven hneg hle
  have hmod : o.optn.toInt % 2 = 0 := by
    have := Int.tmod_eq_emod_of_nonneg (a := o.optn.toInt) (b := 2) (by omega)
    omega
  refine ⟨(o.optn.toInt / 2).toNat, o.optr.toInt.toNat, o.optw.toInt.toNat, ?_, ?_, ?_, ?_⟩ <;>
    omega

theorem Counts.pairs (h : Counts o m r w) : o.pairs = m := by
  rw [Options.pairs, h.optn]
  omega

theorem element_opened (pair : ℕ → ℕ × ℕ) (hi : i < 2 * m) :
    element (opened pair m).fds i = .ok (number pair i) := by
  have hget : (opened pair m).fds[i]? = some (number pair i) := by
    simp [opened, hi]
  rw [element, if_neg (by omega), Int.toNat_natCast, hget]

theorem forLoop_socketpair (pair : ℕ → ℕ × ℕ) (m : ℕ) :
    @forLoop Failure _ m (fun k s ↦ .ok (s.socketpair (pair k))) Files.none =
      .ok (opened pair m) := by
  apply forLoop_eq (opened pair)
  intro k _
  rw [opened_succ]

def place (o : Options) (m i : ℕ) : ℕ := if o.optx then 2 * m - 1 - i else i

theorem place_lt (h : r ≤ 2 * m) (hi : i < r) : place o m i < 2 * m := by
  unfold place
  split <;> omega

def written (o : Options) (pair : ℕ → ℕ × ℕ) (m r : ℕ) : Kernel :=
  ⟨(List.range m).map pair, (List.range r).map fun i ↦ number pair (mate (place o m i))⟩

theorem writes_eq (pair : ℕ → ℕ × ℕ) (h : Counts o m r w) :
    writes o (opened pair m).fds (opened pair m).kernel = .ok (written o pair m r) := by
  have hr : o.optr.toInt.toNat = r := by
    rw [h.optr, Int.toNat_natCast]
  rw [writes, hr]
  apply forLoop_eq (written o pair m)
  intro i hi
  have hplace := place_lt (o := o) h.le.1 hi
  have hj : (if o.optx then o.optn.toInt - 1 - i else (i : ℤ)) = (place o m i : ℕ) := by
    unfold place
    rw [h.optn]
    split
    · have := h.le.1
      omega
    · rfl
  have helement := element_opened pair (mate_lt (Nat.mul_mod_right 2 m) hplace)
  dsimp only
  rw [hj, peerIndex_natCast, helement]
  simp [written, Kernel.write, List.range_succ]

theorem reads_iff (h : Counts o m r w) (hi : i < 2 * m) :
    o.Reads i ↔ ∃ j < r, place o m j = i := by
  unfold Options.Reads place
  rw [h.optn, h.optr]
  have hr := h.le.1
  split
  · constructor
    · intro hle
      exact ⟨2 * m - 1 - i, by omega, by omega⟩
    · rintro ⟨j, hj, rfl⟩
      omega
  · constructor
    · intro hlt
      exact ⟨i, by omega, rfl⟩
    · rintro ⟨j, hj, rfl⟩
      omega

theorem place_inj {j : ℕ} (h : r ≤ 2 * m) (hi : i < r) (hj : j < r)
    (he : place o m i = place o m j) : i = j := by
  unfold place at he
  split at he <;> omega

theorem mate_inj {i j : ℕ} (h : mate i = mate j) : i = j := by
  rw [← mate_mate i, h, mate_mate]

theorem readable_iff (h : Counts o m r w) (hpair : Allots pair m) (hi : i < 2 * m) :
    (written o pair m r).readable (number pair i) ↔ o.Reads i := by
  have hmate : ∀ j < 2 * m, mate j < 2 * m := fun j ↦ mate_lt (Nat.mul_mod_right 2 m)
  rw [Kernel.readable, List.any_eq_true, reads_iff h hi]
  constructor
  · rintro ⟨fd, hfd, hp⟩
    obtain ⟨j, hj, rfl⟩ := List.mem_map.mp hfd
    have hj' := List.mem_range.mp hj
    have he := (peers_iff hpair hi _).mp (of_decide_eq_true hp)
    have hplace := place_lt (o := o) h.le.1 hj'
    exact ⟨j, hj', mate_inj (number_inj hpair (hmate _ hplace) (hmate _ hi) he)⟩
  · rintro ⟨j, hj, rfl⟩
    refine ⟨_, List.mem_map_of_mem (List.mem_range.mpr hj), decide_eq_true ?_⟩
    exact (peers_iff hpair hi _).mpr rfl

theorem writable_number (o : Options) (pair : ℕ → ℕ × ℕ) (r : ℕ) (hi : i < 2 * m) :
    (written o pair m r).writable (number pair i) := by
  rw [Kernel.writable, List.any_eq_true]
  refine ⟨pair (i / 2), List.mem_map_of_mem (List.mem_range.mpr (by omega)), ?_⟩
  rw [Bool.or_eq_true, beq_iff_eq, beq_iff_eq]
  unfold number
  split <;> omega

instance (o : Options) (i : ℕ) : Decidable (o.Reads i) := by
  unfold Options.Reads
  infer_instance

theorem countP_reads (h : Counts o m r w) {v : ℕ} (hv : v ≤ 2 * m) :
    (List.range (2 * m)).countP (fun i ↦ decide (o.Reads i ∨ i < v)) =
      if o.optx then min (r + v) (2 * m) else max r v := by
  have hr := h.le.1
  split
  case isTrue hx =>
    have hcongr : ∀ i, (o.Reads i ∨ i < v) ↔ 2 * m - r ≤ i ∨ i < v := by
      intro i
      rw [Options.Reads, if_pos hx, h.optn, h.optr]
      omega
    simp only [hcongr]
    rw [countP_range_or]
    omega
  case isFalse hx =>
    have hcongr : ∀ i, (o.Reads i ∨ i < v) ↔ i < max r v := by
      intro i
      rw [Options.Reads, if_neg hx, h.optr]
      omega
    simp only [hcongr]
    rw [countP_range_lt]
    omega

theorem countP_readable (h : Counts o m r w) (hpair : Allots pair m) :
    (opened pair m).fds.countP (written o pair m r).readable = r := by
  have hreads := countP_reads h (Nat.zero_le (2 * m))
  have hcongr : (opened pair m).fds.countP (written o pair m r).readable =
      (List.range (2 * m)).countP fun i ↦ decide (o.Reads i ∨ i < 0) := by
    rw [opened, List.countP_map]
    apply List.countP_congr
    intro i hi
    have hread := readable_iff h hpair (List.mem_range.mp hi)
    simp [hread]
  rw [hcongr, hreads]
  have hr := h.le.1
  split <;> omega

theorem opened_getElem? {fd : ℕ} (hget : (opened pair m).fds[i]? = some fd) :
    i < 2 * m ∧ number pair i = fd := by
  have hi : i < (opened pair m).fds.length := (List.getElem?_eq_some_iff.mp hget).1
  have hlt : i < 2 * m := by simpa [opened] using hi
  refine ⟨hlt, ?_⟩
  simpa [opened, hlt] using hget

theorem readied (h : Counts o m r w) (hpair : Allots pair m) :
    Readied o (opened pair m).fds (written o pair m r) := by
  have hlt : ∀ j ∈ List.range r, mate (place o m j) < 2 * m := fun j hj ↦
    mate_lt (Nat.mul_mod_right 2 m) (place_lt h.le.1 (List.mem_range.mp hj))
  constructor
  case length =>
    rw [h.optn]
    simp [opened]
  case distinct => exact opened_nodup hpair
  case readable =>
    intro i fd hget
    obtain ⟨hi, rfl⟩ := opened_getElem? hget
    exact readable_iff h hpair hi
  case only =>
    intro fd hfd
    obtain ⟨fd', hfd', hp⟩ := List.any_eq_true.mp hfd
    obtain ⟨j, hj, rfl⟩ := List.mem_map.mp hfd'
    have hp' : Kernel.Peers ⟨(List.range m).map pair, _⟩ (number pair (mate (place o m j))) fd :=
      (of_decide_eq_true hp).symm
    rw [(peers_iff hpair (hlt j hj) _).mp hp', mate_mate]
    apply List.mem_map_of_mem
    exact List.mem_range.mpr (place_lt h.le.1 (List.mem_range.mp hj))
  case count =>
    rw [countP_readable h hpair, h.optr]
  case once =>
    apply List.Nodup.map_on _ List.nodup_range
    intro i hi j hj he
    have hplace := mate_inj (number_inj hpair (hlt i hi) (hlt j hj) he)
    exact place_inj h.le.1 (List.mem_range.mp hi) (List.mem_range.mp hj) hplace
  case writes =>
    rw [h.optr]
    simp [written]

namespace Poll

theorem initrun_eq (pair : ℕ → ℕ × ℕ) (hcheck : check o = .ok ())
    (h : Counts o m r w) :
    initrun o pair = .ok ⟨(opened pair m).fds, written o pair m r, target o⟩ := by
  rw [initrun, hcheck, h.pairs]
  simp only [bind, Except.bind, forLoop_socketpair, writes_eq pair h]
  rfl

def entries (pair : ℕ → ℕ × ℕ) (n v : ℕ) : List Pollfd :=
  (List.range n).map fun i ↦ ⟨number pair i, true, decide (i < v)⟩

theorem modify_map_range {α : Type} (f : ℕ → α) (g : α → α) (n i : ℕ) :
    ((List.range n).map f).modify i g =
      (List.range n).map fun j ↦ if j = i then g (f j) else f j := by
  apply List.ext_getElem
  · simp
  · intro j h₁ h₂
    rw [List.getElem_modify]
    simp only [List.getElem_map, List.getElem_range, eq_comm]

theorem entries_modify (pair : ℕ → ℕ × ℕ) (n v : ℕ) :
    (entries pair n v).modify v Pollfd.addOut = entries pair n (v + 1) := by
  rw [entries, modify_map_range]
  apply List.map_congr_left
  intro i _
  by_cases hi : i = v
  · simp [hi, Pollfd.addOut]
  · have hlt : i < v + 1 ↔ i < v := by omega
    simp [hi, hlt]

theorem benchmarkPre_eq (h : Counts o m r w) :
    benchmarkPre o (opened pair m).fds = .ok (entries pair (2 * m) w) := by
  have hn : o.optn.toInt.toNat = 2 * m := by
    rw [h.optn, Int.toNat_natCast]
  have hw : o.optw.toInt.toNat = w := by
    rw [h.optw, Int.toNat_natCast]
  have hfirst : forLoop (2 * m) (fun i pfds ↦ do
      let fd ← element (opened pair m).fds i
      return pfds ++ [⟨fd, true, false⟩]) [] = .ok (entries pair (2 * m) 0) := by
    apply forLoop_eq fun i ↦ entries pair i 0
    intro i hi
    rw [element_opened pair hi]
    simp [bind, Except.bind, pure, Except.pure, entries, List.range_succ]
  have hsecond : forLoop w (fun i pfds ↦
      if i < pfds.length then .ok (pfds.modify i Pollfd.addOut) else .error Failure.outside)
      (entries pair (2 * m) 0) = .ok (entries pair (2 * m) w) := by
    apply forLoop_eq fun i ↦ entries pair (2 * m) i
    intro i hi
    have hlt : i < (entries pair (2 * m) i).length := by
      have := h.le.2
      simp [entries]
      omega
    rw [if_pos hlt, entries_modify]
  rw [benchmarkPre, hn, hw, hfirst]
  exact hsecond

theorem poll_eq (h : Counts o m r w) (hpair : Allots pair m) :
    poll (written o pair m r) (entries pair (2 * m) w) =
      if o.optx then min (r + w) (2 * m) else max r w := by
  rw [← countP_reads h h.le.2, poll, entries, List.countP_map]
  apply List.countP_congr
  intro i hi
  have hread := readable_iff h hpair (List.mem_range.mp hi)
  have hwrite := writable_number o pair r (List.mem_range.mp hi)
  simp only [Function.comp_apply, revents, hwrite, Bool.true_and, Bool.and_true,
    decide_eq_true_iff, ← hread]
  cases (written o pair m r).readable (number pair i) <;> simp

end Poll

theorem toInt_sum (h : Counts o m r w) : (o.optr + o.optw).toInt =
    if r + w < 2 ^ 31 then ((r + w : ℕ) : ℤ) else (r + w : ℕ) - 2 ^ 32 := by
  have hr := o.optr.toInt_lt
  have hw := o.optw.toInt_lt
  rw [h.optr] at hr
  rw [h.optw] at hw
  rw [BitVec.toInt_add, h.optr, h.optw, Int.bmod_def]
  split_ifs <;> omega

namespace Select

def bits (l : List ℕ) : FdSet := fun fd ↦ decide (fd ∈ l)

theorem bits_insert (l : List ℕ) (fd : ℕ) : (bits l).insert fd = bits (l ++ [fd]) := by
  funext i
  by_cases hi : i = fd
  · simp [FdSet.insert, bits, hi]
  · simp [FdSet.insert, bits, hi]

def after (pair : ℕ → ℕ × ℕ) (n : ℕ) : Opened where
  files := opened pair n
  maxfd := if n = 0 then 0 else max (pair (n - 1)).1 (pair (n - 1)).2 + 1
  iset := bits (opened pair n).fds

theorem openPair_after {fdSetsize k : ℕ} (hk : max (pair k).1 (pair k).2 < fdSetsize) :
    openPair fdSetsize (pair k) (after pair k) = .ok (after pair (k + 1)) := by
  have hbits : ((bits (opened pair k).fds).insert (min (pair k).1 (pair k).2)).insert
      (max (pair k).1 (pair k).2) = bits (opened pair (k + 1)).fds := by
    rw [bits_insert, bits_insert, ← opened_succ, List.append_assoc]
    rfl
  rw [openPair, if_neg (Nat.not_lt.mpr hk)]
  simp only [after, hbits, opened_succ, if_neg (Nat.succ_ne_zero k), Nat.add_sub_cancel]

theorem forLoop_openPair {fdSetsize : ℕ} (hk : ∀ k < m, max (pair k).1 (pair k).2 < fdSetsize) :
    forLoop m (fun k ↦ openPair fdSetsize (pair k)) ⟨Files.none, 0, fdZero⟩ =
      .ok (after pair m) :=
  forLoop_eq (after pair) fun k hlt ↦ openPair_after (hk k hlt)

theorem forLoop_oset (pair : ℕ → ℕ × ℕ) (h : Counts o m r w) :
    forLoop w (fun i oset ↦ do
      let fd ← element (opened pair m).fds i
      return FdSet.insert oset fd) fdZero = .ok (bits ((List.range w).map (number pair))) := by
  apply forLoop_eq fun i ↦ bits ((List.range i).map (number pair))
  intro i hi
  have hlt := h.le.2
  rw [element_opened pair (by omega), List.range_succ, List.map_append, List.map_singleton,
    ← bits_insert]
  rfl

theorem lt_maxfd (hpair : Allots pair m) (hi : i < 2 * m) : number pair i < (after pair m).maxfd := by
  have hm : m ≠ 0 := by omega
  have hlast := number_double_succ pair (m - 1)
  have hle : number pair i ≤ number pair (2 * (m - 1) + 1) := by
    rcases Nat.lt_or_eq_of_le (show i ≤ 2 * (m - 1) + 1 by omega) with hlt | heq
    · exact Nat.le_of_lt (number_lt hpair (by omega) hlt)
    · rw [heq]
  simp only [after, if_neg hm]
  omega

theorem initrun_eq {fdSetsize : ℕ} (hcheck : check o = .ok ()) (h : Counts o m r w)
    (hk : ∀ k < m, max (pair k).1 (pair k).2 < fdSetsize) :
    initrun fdSetsize o pair = .ok ⟨(opened pair m).fds, written o pair m r,
      (o.optr + o.optw).toInt, (after pair m).maxfd, (after pair m).iset,
      bits ((List.range w).map (number pair))⟩ := by
  have hw : o.optw.toInt.toNat = w := by
    rw [h.optw, Int.toNat_natCast]
  have hset := forLoop_oset pair h
  have hwrites := writes_eq pair h
  have hfiles : (after pair m).files = opened pair m := rfl
  rw [initrun, hcheck, h.pairs, hw, forLoop_openPair hk]
  simp only [bind, Except.bind, hfiles] at hset ⊢
  rw [hset]
  simp only [hwrites]
  rfl

theorem countP_bits (hpair : Allots pair m) {v : ℕ} (hv : v ≤ 2 * m) (p : ℕ → Bool) :
    (List.range (after pair m).maxfd).countP
        (fun fd ↦ bits ((List.range v).map (number pair)) fd && p fd) =
      ((List.range v).map (number pair)).countP p := by
  apply countP_range_mem
  · apply List.Nodup.map_on _ List.nodup_range
    intro i hi j hj he
    have hi' := List.mem_range.mp hi
    have hj' := List.mem_range.mp hj
    exact number_inj hpair (by omega) (by omega) he
  · intro fd hfd
    obtain ⟨i, hi, rfl⟩ := List.mem_map.mp hfd
    have hi' := List.mem_range.mp hi
    exact lt_maxfd hpair (by omega)

theorem select_eq (h : Counts o m r w) (hpair : Allots pair m) :
    select (written o pair m r) (after pair m).maxfd (after pair m).iset
      (if o.optw ≠ 0 then some (bits ((List.range w).map (number pair))) else none) = r + w := by
  have hread := countP_bits hpair (Nat.le_refl (2 * m)) (written o pair m r).readable
  have hwrite := countP_bits hpair h.le.2 (written o pair m r).writable
  have hall : ((List.range w).map (number pair)).countP (written o pair m r).writable = w := by
    rw [List.countP_eq_length.mpr]
    · simp
    · intro fd hfd
      obtain ⟨i, hi, rfl⟩ := List.mem_map.mp hfd
      have hlt := h.le.2
      have hi' := List.mem_range.mp hi
      exact writable_number o pair r (by omega)
  have hin : (List.range (after pair m).maxfd).countP
      (fun fd ↦ (after pair m).iset fd && (written o pair m r).readable fd) = r :=
    hread.trans (countP_readable h hpair)
  by_cases hw : o.optw = 0
  · have hzero : w = 0 := by
      have hoptw := h.optw
      have hint : (0 : BitVec 32).toInt = 0 := rfl
      rw [hw, hint] at hoptw
      omega
    rw [if_neg (not_not.mpr hw), hzero]
    exact hin
  · rw [if_pos hw, select, hin, hwrite, hall]

end Select

theorem two_mul_le {fdSetsize : ℕ} (hpair : Allots pair m)
    (hk : ∀ k < m, max (pair k).1 (pair k).2 < fdSetsize) : 2 * m ≤ fdSetsize := by
  have hle : ∀ i < 2 * m, i ≤ number pair i := by
    intro i
    induction i with
    | zero => exact fun _ ↦ Nat.zero_le _
    | succ i ih =>
      intro hi
      have hlt := number_lt hpair hi (Nat.lt_succ_self i)
      have := ih (by omega)
      omega
  by_cases hm : m = 0
  · omega
  · have hlast := hle (2 * (m - 1) + 1) (by omega)
    have := hk (m - 1) (by omega)
    rw [number_double_succ] at hlast
    omega

theorem select_expects {fdSetsize : ℕ} (hcheck : check o = .ok ()) (h : Counts o m r w)
    (hpair : Allots pair m) (hk : ∀ k < m, max (pair k).1 (pair k).2 < fdSetsize)
    (hset : 2 * fdSetsize < 2 ^ 31) : SelectExpects fdSetsize o pair := by
  have hle := two_mul_le hpair hk
  have hrw := h.le
  have hsum : (o.optr + o.optw).toInt = (r + w : ℕ) := by
    rw [toInt_sum h, if_pos (by omega)]
  refine ⟨_, Select.initrun_eq hcheck h hk, readied h hpair, ?_, ?_⟩
  · rw [Select.benchmark, Select.select_eq h hpair, hsum]
  · rw [hsum, h.optr, h.optw, Int.natCast_add]

theorem poll_expects_iff (hcheck : check o = .ok ()) (h : Counts o m r w)
    (hpair : Allots pair m) : PollExpects o pair ↔ (o.optx → r + w < 2 ^ 31) := by
  have hinit := Poll.initrun_eq pair hcheck h
  constructor
  · rintro ⟨s, pfds, hs, -, -, -, htarget⟩ hx
    obtain rfl := Except.ok.inj (hinit.symm.trans hs)
    by_contra hge
    simp only [Poll.target, if_pos hx, toInt_sum h, if_neg hge, h.optn, h.optr, h.optw] at htarget
    have hlt := o.optn.toInt_lt
    rw [h.optn] at hlt
    have hrw := h.le
    omega
  · intro hfits
    have htarget : Poll.target o = if o.optx then min ((r : ℤ) + w) (2 * m : ℕ) else max (r : ℤ) w := by
      rw [Poll.target, h.optn, h.optr, h.optw]
      split
      case isTrue hx => rw [toInt_sum h, if_pos (hfits hx), Int.natCast_add]
      case isFalse => rfl
    refine ⟨_, _, hinit, readied h hpair, Poll.benchmarkPre_eq h, ?_, ?_⟩
    · dsimp only
      rw [Poll.poll_eq h hpair, htarget]
      split <;> omega
    · rw [htarget, h.optn, h.optr, h.optw]

/-- Both programs expect what the kernel reports if and only if the sum of the counts, where
`poll` takes one, is an `int`. -/
theorem polling_expects_iff (o : Options) (pair : ℕ → ℕ × ℕ) (fdSetsize : ℕ)
    (hcheck : check o = .ok ()) (hpair : Allots pair o.pairs) (hset : 2 * fdSetsize < 2 ^ 31) :
    (PollExpects o pair ∧ ((∀ k < o.pairs, max (pair k).1 (pair k).2 < fdSetsize) →
      SelectExpects fdSetsize o pair)) ↔ (o.optx → o.optr.toInt + o.optw.toInt < 2 ^ 31) := by
  obtain ⟨m, r, w, h⟩ := check_counts hcheck
  rw [h.pairs] at hpair ⊢
  rw [poll_expects_iff hcheck h hpair, h.optr, h.optw]
  constructor
  · intro hexpects hx
    have := hexpects.1 hx
    omega
  · intro hfits
    refine ⟨fun hx ↦ ?_, fun hk ↦ select_expects hcheck h hpair hk hset⟩
    have := hfits hx
    omega

def pairFrom3 (k : ℕ) : ℕ × ℕ := (2 * k + 4, 2 * k + 3)

theorem allots_from3 (n : ℕ) : Allots pairFrom3 n where
  distinct k _ := by
    simp [pairFrom3]
  later k _ i hi := by
    simp only [pairFrom3]
    omega

theorem polling_expects_iff_six :
    (PollExpects ⟨6, 3, 2, true⟩ pairFrom3 ∧
      ((∀ k < Options.pairs ⟨6, 3, 2, true⟩, max (pairFrom3 k).1 (pairFrom3 k).2 < 1024) →
        SelectExpects 1024 ⟨6, 3, 2, true⟩ pairFrom3)) ↔
      (true → (3 : BitVec 32).toInt + (2 : BitVec 32).toInt < 2 ^ 31) :=
  polling_expects_iff ⟨6, 3, 2, true⟩ pairFrom3 1024 (by decide) (allots_from3 _) (by decide)

/-- With `-x` and two counts of 2^30 `poll` expects a negative number. -/
theorem poll_expects_negative :
    let o : Options := ⟨1073741824, 1073741824, 1073741824, true⟩
    check o = .ok () ∧ Allots pairFrom3 o.pairs ∧ Poll.target o = -2 ^ 31 ∧
      ¬ PollExpects o pairFrom3 := by
  intro o
  have hcheck : check o = .ok () := by decide
  have htarget : Poll.target o = -2 ^ 31 := by decide
  refine ⟨hcheck, allots_from3 _, htarget, fun hexpects ↦ ?_⟩
  obtain ⟨s, pfds, hs, -, -, hpoll, -⟩ := hexpects
  have h : Counts o (2 ^ 29) (2 ^ 30) (2 ^ 30) := ⟨by decide, by decide, by decide, by decide⟩
  obtain rfl := Except.ok.inj ((Poll.initrun_eq _ hcheck h).symm.trans hs)
  dsimp only at hpoll
  rw [htarget] at hpoll
  omega

end LibMicro.Polling
