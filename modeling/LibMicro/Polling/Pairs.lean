import LibMicro.Polling.Model
import LibMicro.RangeCount

namespace LibMicro.Polling

open ForLoop RangeCount

def mate (i : ℕ) : ℕ := if i % 2 = 0 then i + 1 else i - 1

theorem peerIndex_natCast (i : ℕ) : peerIndex i = mate i := by
  unfold peerIndex mate
  have htmod : (i : ℤ).tmod 2 = (i % 2 : ℕ) := rfl
  rw [htmod]
  split
  · omega
  · omega

theorem mate_mate (i : ℕ) : mate (mate i) = i := by
  unfold mate
  split
  · rw [if_neg (by omega)]
    omega
  · rw [if_pos (by omega)]
    omega

theorem mate_lt {i n : ℕ} (hn : n % 2 = 0) (hi : i < n) : mate i < n := by
  unfold mate
  split <;> omega

theorem mate_double (k : ℕ) : mate (2 * k) = 2 * k + 1 := if_pos (by omega)

theorem mate_double_succ (k : ℕ) : mate (2 * k + 1) = 2 * k := if_neg (by omega)

variable {pair : ℕ → ℕ × ℕ} {n i j fd fd' : ℕ}

def number (pair : ℕ → ℕ × ℕ) (i : ℕ) : ℕ :=
  if i % 2 = 0 then min (pair (i / 2)).1 (pair (i / 2)).2
  else max (pair (i / 2)).1 (pair (i / 2)).2

theorem number_double (pair : ℕ → ℕ × ℕ) (k : ℕ) :
    number pair (2 * k) = min (pair k).1 (pair k).2 := by
  rw [number, if_pos (by omega), show 2 * k / 2 = k by omega]

theorem number_double_succ (pair : ℕ → ℕ × ℕ) (k : ℕ) :
    number pair (2 * k + 1) = max (pair k).1 (pair k).2 := by
  rw [number, if_neg (by omega), show (2 * k + 1) / 2 = k by omega]

theorem double_or (i : ℕ) : ∃ k, i = 2 * k ∨ i = 2 * k + 1 := ⟨i / 2, by omega⟩

theorem le_number (pair : ℕ → ℕ × ℕ) (i : ℕ) :
    min (pair (i / 2)).1 (pair (i / 2)).2 ≤ number pair i ∧
      number pair i ≤ max (pair (i / 2)).1 (pair (i / 2)).2 := by
  unfold number
  split <;> omega

theorem number_lt (h : Allots pair n) (hj : j < 2 * n) (hij : i < j) :
    number pair i < number pair j := by
  have hi' := le_number pair i
  have hj' := le_number pair j
  rcases Nat.lt_or_ge (i / 2) (j / 2) with hlt | hge
  · have hlater := h.later (j / 2) (by omega) (i / 2) hlt
    omega
  · obtain ⟨k, rfl | rfl⟩ := double_or i
    · obtain rfl : j = 2 * k + 1 := by omega
      have hne := h.distinct k (by omega)
      rw [number_double, number_double_succ]
      omega
    · omega

theorem number_inj (h : Allots pair n) (hi : i < 2 * n) (hj : j < 2 * n)
    (he : number pair i = number pair j) : i = j := by
  rcases Nat.lt_trichotomy i j with hlt | heq | hgt
  · exact absurd he (Nat.ne_of_lt (number_lt h hj hlt))
  · exact heq
  · exact absurd he (Nat.ne_of_gt (number_lt h hi hgt))

def opened (pair : ℕ → ℕ × ℕ) (n : ℕ) : Files :=
  ⟨(List.range (2 * n)).map (number pair), ⟨(List.range n).map pair, []⟩⟩

theorem opened_succ (pair : ℕ → ℕ × ℕ) (n : ℕ) :
    (opened pair n).socketpair (pair n) = opened pair (n + 1) := by
  have hfds : (List.range (2 * (n + 1))).map (number pair) =
      (List.range (2 * n)).map (number pair) ++
        [min (pair n).1 (pair n).2, max (pair n).1 (pair n).2] := by
    rw [Nat.mul_add, List.range_succ, List.range_succ]
    simp [number_double, number_double_succ]
  rw [Files.socketpair, opened, opened, hfds, List.range_succ, List.map_append,
    List.map_singleton]

theorem opened_nodup (h : Allots pair n) : (opened pair n).fds.Nodup := by
  apply List.Nodup.map_on _ List.nodup_range
  intro i hi j hj he
  exact number_inj h (List.mem_range.mp hi) (List.mem_range.mp hj) he

theorem peers_iff (h : Allots pair n) (hi : i < 2 * n) (written : List ℕ) :
    Kernel.Peers ⟨(List.range n).map pair, written⟩ (number pair i) fd ↔
      fd = number pair (mate i) := by
  have hpair : ∀ k, pair k = (number pair (2 * k), number pair (2 * k + 1)) ∨
      pair k = (number pair (2 * k + 1), number pair (2 * k)) := by
    intro k
    rw [number_double, number_double_succ]
    rcases Nat.le_total (pair k).1 (pair k).2 with hle | hle
    · left
      rw [Nat.min_eq_left hle, Nat.max_eq_right hle]
    · right
      rw [Nat.min_eq_right hle, Nat.max_eq_left hle]
  unfold Kernel.Peers
  constructor
  · intro hp
    obtain ⟨k, hk, hends⟩ : ∃ k < n, pair k = (number pair i, fd) ∨ pair k = (fd, number pair i) := by
      rcases hp with hp | hp
      · obtain ⟨k, hk, he⟩ := List.mem_map.mp hp
        exact ⟨k, List.mem_range.mp hk, .inl he⟩
      · obtain ⟨k, hk, he⟩ := List.mem_map.mp hp
        exact ⟨k, List.mem_range.mp hk, .inr he⟩
    have hcases : number pair i = number pair (2 * k) ∧ fd = number pair (2 * k + 1) ∨
        number pair i = number pair (2 * k + 1) ∧ fd = number pair (2 * k) := by
      rcases hpair k with he | he <;> rcases hends with he' | he' <;>
        simp only [he, Prod.mk.injEq] at he' <;> omega
    rcases hcases with ⟨hnum, rfl⟩ | ⟨hnum, rfl⟩
    · rw [number_inj h hi (by omega) hnum, mate_double]
    · rw [number_inj h hi (by omega) hnum, mate_double_succ]
  · rintro rfl
    have hmem : ∀ k < n, pair k ∈ (List.range n).map pair :=
      fun k hk ↦ List.mem_map_of_mem (List.mem_range.mpr hk)
    obtain ⟨k, rfl | rfl⟩ := double_or i
    · rw [mate_double]
      rcases hpair k with he | he
      · exact .inl (he ▸ hmem k (by omega))
      · exact .inr (he ▸ hmem k (by omega))
    · rw [mate_double_succ]
      rcases hpair k with he | he
      · exact .inr (he ▸ hmem k (by omega))
      · exact .inl (he ▸ hmem k (by omega))

end LibMicro.Polling
