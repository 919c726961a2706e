import LibMicro.Tattle.Model
import LibMicro.Text

namespace LibMicro.Tattle

open WhileLoop

variable {s t u l l' rest : List Char} {c d : Char} {i k m : ℕ} {data : Buffer}

theorem load_of_getElem? (h : data[i]? = some c) : load data i = .ok c := by
  rw [load, if_neg (by omega), Int.toNat_natCast, h]

theorem store_append (l l' : List Char) (c d : Char) :
    store (l ++ c :: l') l.length d = .ok (l ++ d :: l') := by
  have hin : (0 : ℤ) ≤ l.length ∧ (l.length : ℤ) < (l ++ c :: l').length := by
    rw [List.length_append, List.length_cons]
    omega
  rw [store, if_pos hin, Int.toNat_natCast, List.set_append_right _ _ (Nat.le_refl _),
    Nat.sub_self, List.set_cons_zero]

theorem load_append (l l' : List Char) (c : Char) : load (l ++ c :: l') l.length = .ok c := by
  apply load_of_getElem?
  simp

structure Solid (u : List Char) : Prop where
  terminated : nul ∉ u
  begins : ∃ c l, u = c :: l ∧ c ≠ ' '
  ends : ∃ l c, u = l ++ [c] ∧ c ≠ ' '

def padded (k m : ℕ) (u rest : List Char) : Buffer :=
  List.replicate k ' ' ++ (u ++ (List.replicate m ' ' ++ nul :: rest))

theorem settles_skipBlanks (hc : c ≠ ' ') (k : ℕ) :
    Settles (skipBlanks (List.replicate k ' ' ++ c :: l) · 0) (.ok k) := by
  apply settles_while (fun i : ℕ ↦ (i : ℤ)) k
  · intro i hi
    have hload : load (List.replicate k ' ' ++ c :: l) i = .ok ' ' := by
      apply load_of_getElem?
      rw [List.getElem?_append_left (by simpa using hi), List.getElem?_replicate, if_pos hi]
    rw [hload]
    exact ⟨rfl, rfl⟩
  · have hload := load_append (List.replicate k ' ') l c
    rw [List.length_replicate] at hload
    rw [hload]
    exact congrArg Except.ok (decide_eq_false hc)

theorem load_of_drop (h : data.drop k = c :: l) : load data k = .ok c := by
  apply load_of_getElem?
  rw [← Nat.add_zero k, ← List.getElem?_drop, h]
  rfl

theorem store_of_le (hi : i < data.length) (c : Char) :
    store data i c = .ok (data.set i c) := by
  rw [store, if_pos (by omega), Int.toNat_natCast]

theorem lt_length_of_drop (h : data.drop k = c :: l) : k < data.length := by
  by_contra hge
  rw [List.drop_eq_nil_of_le (not_lt.mp hge)] at h
  cases h

theorem settles_strcpy (ht : nul ∉ t) (hik : i ≤ k) (hk : data.drop k = t ++ nul :: rest) :
    ∃ rest' s, Settles (strcpy · ⟨data, i, k⟩) (.ok s) ∧
      s.data = data.take i ++ (t ++ nul :: rest') := by
  induction t generalizing data i k with
  | nil =>
    have hi := hik.trans_lt (lt_length_of_drop hk)
    have hload := load_of_drop hk
    have hstore := store_of_le hi nul
    refine ⟨data.drop (i + 1), ⟨data.set i nul, i + 1, k + 1⟩, ?_, ?_⟩
    · apply settles_done
      simp only [hload, hstore, bind, Except.bind, pure, Except.pure, ne_eq, not_true_eq_false,
        decide_false]
    · exact List.set_eq_take_cons_drop nul hi
  | cons c t ih =>
    have hi := hik.trans_lt (lt_length_of_drop hk)
    have hload := load_of_drop hk
    have hstore := store_of_le hi c
    obtain ⟨hc, ht⟩ := List.ne_and_not_mem_of_not_mem_cons ht
    have hrest : (data.set i c).drop (k + 1) = t ++ nul :: rest := by
      rw [List.drop_set_of_lt (Nat.lt_add_one_of_le hik), ← List.drop_drop, hk]
      rfl
    obtain ⟨rest', s, hs, hdata⟩ := ih ht (Nat.succ_le_succ hik) hrest
    refine ⟨rest', s, ?_, ?_⟩
    · refine settles_again ?_ hs
      simp only [hload, hstore, bind, Except.bind, pure, Except.pure, hc.symm, ne_eq,
        not_false_eq_true, decide_true]
      rfl
    · have htake : (data.set i c).take (i + 1) = data.take i ++ [c] := by
        have hi' : i < (data.set i c).length := by
          rwa [List.length_set]
        rw [List.take_succ_eq_append_getElem hi', List.getElem_set_self, List.take_set_of_le le_rfl]
      rw [hdata, htake, List.append_assoc]
      rfl

theorem settles_shift (ht : nul ∉ t) (hk : data.drop k = t ++ nul :: rest) :
    ∃ rest', Settles (shift data k) (.ok (t ++ nul :: rest')) := by
  rcases Nat.eq_zero_or_pos k with rfl | hpos
  · exact ⟨rest, hk ▸ settles_const _⟩
  · obtain ⟨rest', s, hs, hdata⟩ := settles_strcpy ht (Nat.zero_le k) hk
    refine ⟨rest', ?_⟩
    have hshift : shift data k = fun n ↦ strcpy n ⟨data, 0, k⟩ >>= fun t ↦ .ok t.data := by
      funext n
      exact if_pos (by omega)
    rw [List.take_zero, List.nil_append] at hdata
    rw [hshift, ← hdata]
    exact hs.map Copy.data

theorem settles_findEnd (ht : nul ∉ t) (rest : List Char) :
    Settles (findEnd (t ++ nul :: rest) · 0) (.ok t.length) := by
  apply settles_while (fun i : ℕ ↦ (i : ℤ)) t.length
  · intro i hi
    have hload : load (t ++ nul :: rest) i = .ok t[i] := by
      apply load_of_getElem?
      rw [List.getElem?_append_left hi, List.getElem?_eq_getElem hi]
    have hne : t[i] ≠ nul := fun h ↦ ht (h ▸ List.getElem_mem hi)
    rw [hload]
    exact ⟨congrArg Except.ok (decide_eq_true hne), rfl⟩
  · rw [load_append]
    rfl

theorem settles_cleanup (hskip : Settles (skipBlanks data · 0) (.ok k)) (ht : nul ∉ t)
    (hk : data.drop k = t ++ nul :: rest) :
    ∃ rest', ∀ r, Settles (fun n ↦ dropBlanks n ⟨t ++ nul :: rest', t.length - 1⟩ >>= fun s ↦
      .ok s.data) r → Settles (cleanup data) r := by
  obtain ⟨rest', hshift⟩ := settles_shift ht hk
  refine ⟨rest', fun r hdrop ↦ ?_⟩
  let trim (data : Buffer) (e : ℤ) (n : ℕ) : Except (Halt Fault) Buffer :=
    dropBlanks n ⟨data, e - 1⟩ >>= fun s ↦ .ok s.data
  have hend := (settles_findEnd ht rest').bind (q := trim (t ++ nul :: rest')) hdrop
  have hrest := hshift.bind (q := fun data n ↦ findEnd data n 0 >>= fun e ↦ trim data e n) hend
  exact hskip.bind (q := fun s n ↦ shift data s n >>= fun data ↦
    findEnd data n 0 >>= fun e ↦ trim data e n) hrest

theorem settles_cleanup_blank (k : ℕ) :
    Settles (cleanup (List.replicate k ' ' ++ [nul])) (.error (.failed .outside)) := by
  have hskip := settles_skipBlanks (l := []) (c := nul) (by decide) k
  have hdrop : (List.replicate k ' ' ++ [nul]).drop k = [] ++ nul :: [] := by
    simp
  obtain ⟨rest', h⟩ := settles_cleanup hskip List.not_mem_nil hdrop
  have hfirst : Settles (dropBlanks · ⟨nul :: rest', -1⟩) (.error (.failed .outside)) :=
    settles_while_test (fun _ ↦ Trim.mk (nul :: rest') (-1)) 0 nofun rfl
  exact h _ hfirst.bind_failed

theorem settles_dropBlanks (hc : c ≠ ' ') (l : List Char) (m : ℕ) (rest : List Char) :
    ∃ rest' e, Settles (dropBlanks · ⟨l ++ [c] ++ List.replicate m ' ' ++ nul :: rest,
      (l ++ [c] ++ List.replicate m ' ').length - 1⟩) (.ok ⟨l ++ [c] ++ nul :: rest', e⟩) := by
  induction m generalizing rest with
  | zero =>
    refine ⟨rest, l.length, ?_⟩
    have hdata : l ++ [c] ++ List.replicate 0 ' ' ++ nul :: rest = l ++ c :: nul :: rest := by
      simp
    have hlen : ((l ++ [c] ++ List.replicate 0 ' ').length : ℤ) - 1 = l.length := by
      simp
    rw [hdata, hlen, List.append_assoc, List.singleton_append]
    apply settles_while (fun _ ↦ Trim.mk (l ++ c :: nul :: rest) l.length) 0 nofun
    simp only [load_append, bind, Except.bind, hc, false_and, decide_false]
    rfl
  | succ m ih =>
    obtain ⟨rest', e, h⟩ := ih (nul :: rest)
    refine ⟨rest', e, ?_⟩
    let q := l ++ [c] ++ List.replicate m ' '
    have hdata : l ++ [c] ++ List.replicate (m + 1) ' ' ++ nul :: rest = q ++ ' ' :: nul :: rest := by
      simp [q, List.replicate_succ']
    have hlen : ((l ++ [c] ++ List.replicate (m + 1) ' ').length : ℤ) - 1 = q.length := by
      simp [q, List.replicate_succ']
      omega
    have hpos : (q.length : ℤ) > 0 := by
      simp [q]
      omega
    rw [hdata, hlen]
    refine settles_again (whileRound_again ?_ ?_) h
    · simp only [load_append, bind, Except.bind, hpos, and_self, decide_true]
      rfl
    · simp only [store_append, bind, Except.bind]
      rfl

theorem settles_cleanup_solid (hu : Solid u) (k m : ℕ) (rest : List Char) :
    ∃ rest', Settles (cleanup (padded k m u rest)) (.ok (u ++ nul :: rest')) := by
  obtain ⟨c, l, rfl, hc⟩ := hu.begins
  obtain ⟨l', d, hld, hd⟩ := hu.ends
  have hskip : Settles (skipBlanks (padded k m (c :: l) rest) · 0) (.ok k) :=
    settles_skipBlanks hc k
  have ht : nul ∉ c :: l ++ List.replicate m ' ' := by
    rw [List.mem_append, List.mem_replicate]
    rintro (h | h)
    · exact hu.terminated h
    · exact absurd h.2 (by decide)
  have hk : (padded k m (c :: l) rest).drop k = c :: l ++ List.replicate m ' ' ++ nul :: rest := by
    simp [padded]
  obtain ⟨rest₁, h⟩ := settles_cleanup hskip ht hk
  obtain ⟨rest₂, e, hdrop⟩ := settles_dropBlanks hd l' m rest₁
  rw [← hld] at hdrop
  exact ⟨rest₂, h _ (hdrop.map Trim.data)⟩

theorem text_append (hu : nul ∉ u) (rest : List Char) : text (u ++ nul :: rest) = u :=
  Text.takeWhile_ne hu rest

theorem strip_padded (hu : Solid u) (k m : ℕ) :
    strip (List.replicate k ' ' ++ (u ++ List.replicate m ' ')) = u := by
  have hblank : ∀ n, ∀ c ∈ List.replicate n ' ', decide (c = ' ') = true := by
    intro n c hc
    exact decide_eq_true (List.eq_of_mem_replicate hc)
  have hleft : (u ++ List.replicate m ' ').dropWhile (· = ' ') = u ++ List.replicate m ' ' := by
    obtain ⟨c, l, rfl, hc⟩ := hu.begins
    exact List.dropWhile_cons_of_neg (by simpa using hc)
  have hright : u.reverse.dropWhile (· = ' ') = u.reverse := by
    obtain ⟨l, c, rfl, hc⟩ := hu.ends
    rw [List.reverse_append, List.reverse_singleton, List.singleton_append]
    exact List.dropWhile_cons_of_neg (by simpa using hc)
  rw [strip, List.dropWhile_append_of_pos (hblank k), hleft, List.rdropWhile, List.reverse_append,
    List.reverse_replicate, List.dropWhile_append_of_pos (hblank m), hright, List.reverse_reverse]

theorem exists_first (h : ∃ c ∈ s, c ≠ ' ') : ∃ k c l, c ≠ ' ' ∧ s = List.replicate k ' ' ++ c :: l := by
  induction s with
  | nil =>
    obtain ⟨c, hc, -⟩ := h
    cases hc
  | cons a s ih =>
    by_cases ha : a = ' '
    · obtain ⟨c, hc, hne⟩ := h
      have hs : c ∈ s := List.mem_of_ne_of_mem (fun he ↦ hne (he.trans ha)) hc
      obtain ⟨k, d, l, hd, rfl⟩ := ih ⟨c, hs, hne⟩
      exact ⟨k + 1, d, l, hd, by rw [ha, List.replicate_succ, List.cons_append]⟩
    · exact ⟨0, a, s, ha, rfl⟩

theorem exists_last (h : ∃ c ∈ s, c ≠ ' ') :
    ∃ m l c, c ≠ ' ' ∧ s = l ++ [c] ++ List.replicate m ' ' := by
  obtain ⟨c, hc, hne⟩ := h
  obtain ⟨m, d, l, hd, hs⟩ := exists_first ⟨c, List.mem_reverse.mpr hc, hne⟩
  refine ⟨m, l.reverse, d, hd, ?_⟩
  rw [← List.reverse_reverse s, hs]
  simp

theorem exists_solid (hs : nul ∉ s) (h : ∃ c ∈ s, c ≠ ' ') :
    ∃ k m u, Solid u ∧ s = List.replicate k ' ' ++ (u ++ List.replicate m ' ') := by
  obtain ⟨k, c, l, hc, rfl⟩ := exists_first h
  obtain ⟨m, l', d, hd, hl⟩ := exists_last ⟨c, List.mem_cons_self (l := l), hc⟩
  refine ⟨k, m, l' ++ [d], ⟨?_, ?_, l', d, rfl, hd⟩, by rw [hl]⟩
  · intro hmem
    apply hs
    rw [hl]
    exact List.mem_append_right _ (List.mem_append_left _ hmem)
  · cases l' with
    | nil => exact ⟨d, [], rfl, hd⟩
    | cons a l' =>
      obtain rfl : c = a := (List.cons.inj hl).1
      exact ⟨c, l' ++ [d], rfl, hc⟩

/-- The string is cleaned up unless nothing would be left of it. -/
theorem cleans_iff (s : List Char) (hs : nul ∉ s) : Cleans s ↔ ∃ c ∈ s, c ≠ ' ' := by
  constructor
  · rintro ⟨n, data, hn, -⟩
    by_contra hblank
    push Not at hblank
    have hrep := List.eq_replicate_of_mem hblank
    rw [hrep] at hn
    exact (settles_cleanup_blank s.length).not_returns n hn
  · intro h
    obtain ⟨k, m, u, hu, rfl⟩ := exists_solid hs h
    obtain ⟨rest, hfirst⟩ := settles_cleanup_solid hu k m []
    obtain ⟨rest', hsecond⟩ := settles_cleanup_solid hu 0 0 rest
    obtain ⟨n, hn⟩ := hfirst.returns
    obtain ⟨n', hn'⟩ := hsecond.returns
    refine ⟨n, u ++ nul :: rest, ?_, ?_, n', u ++ nul :: rest', hn', ?_⟩
    · rw [List.append_assoc, List.append_assoc]
      exact hn
    · rw [text_append hu.terminated, strip_padded hu]
    · rw [text_append hu.terminated, text_append hu.terminated]

theorem cleans_iff_flags : Cleans " -O2 -g ".toList ↔ ∃ c ∈ " -O2 -g ".toList, c ≠ ' ' :=
  cleans_iff " -O2 -g ".toList (by decide)

/-- With no flags at all the byte before the buffer is read. -/
theorem cleanup_before : ¬ ∀ s, nul ∉ s → Cleans s := by
  intro h
  obtain ⟨n, data, hn, -⟩ := h [] List.not_mem_nil
  exact (settles_cleanup_blank 0).not_returns n hn

end LibMicro.Tattle
