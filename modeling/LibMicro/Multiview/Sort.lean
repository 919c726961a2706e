import LibMicro.Multiview.Reading

namespace LibMicro.Multiview

variable {a : Name} {l q : List Name}

theorem exchangeFrom_perm (a : Name) (l : List Name) : (exchangeFrom a l).Perm (a :: l) := by
  induction l generalizing a with
  | nil => rfl
  | cons b l ih =>
    unfold exchangeFrom
    split
    · exact ((ih a).cons b).trans (.swap a b l)
    · exact (ih b).cons a

theorem exchange_perm (l : List Name) : (exchange l).Perm l := by
  cases l with
  | nil => rfl
  | cons a l => exact exchangeFrom_perm a l

theorem not_lt_trans {a b c : Name} (h : ¬ b < a) (h' : ¬ c < b) : ¬ c < a := List.le_trans h h'

theorem not_lt_of_lt {a b : Name} (h : a < b) : ¬ b < a := List.le_of_lt h

theorem exchangeFrom_greatest (a : Name) (l : List Name) :
    ∃ front greatest, exchangeFrom a l = front ++ [greatest] ∧ ∀ x ∈ a :: l, ¬ greatest < x := by
  induction l generalizing a with
  | nil => exact ⟨[], a, rfl, by simp⟩
  | cons b l ih =>
    rw [exchangeFrom]
    split_ifs with h
    · obtain ⟨front, greatest, he, hg⟩ := ih a
      refine ⟨b :: front, greatest, by rw [he, List.cons_append], ?_⟩
      rw [List.forall_mem_cons] at hg
      exact List.forall_mem_cons.mpr ⟨hg.1, List.forall_mem_cons.mpr
        ⟨not_lt_trans (not_lt_of_lt h) hg.1, hg.2⟩⟩
    · obtain ⟨front, greatest, he, hg⟩ := ih b
      refine ⟨a :: front, greatest, by rw [he, List.cons_append], ?_⟩
      have hb := (List.forall_mem_cons.mp hg).1
      exact List.forall_mem_cons.mpr ⟨not_lt_trans h hb, hg⟩

def Sorted (l : List Name) : Prop := l.Pairwise fun x y ↦ ¬ y < x

theorem exchangeFrom_append (hq : Sorted q) (hle : ∀ x ∈ a :: l, ∀ y ∈ q, ¬ y < x) :
    exchangeFrom a (l ++ q) = exchangeFrom a l ++ q := by
  induction l generalizing a with
  | nil =>
    rw [List.nil_append]
    induction q generalizing a with
    | nil => rfl
    | cons b q ih =>
      have hb := hle a List.mem_cons_self b List.mem_cons_self
      obtain ⟨hbq, hq⟩ := List.pairwise_cons.mp hq
      rw [exchangeFrom, exchangeFrom, if_neg hb, ih hq (by simpa using hbq)]
      rfl
  | cons b l ih =>
    rw [List.forall_mem_cons, List.forall_mem_cons] at hle
    rw [List.cons_append, exchangeFrom, exchangeFrom]
    split_ifs
    · rw [ih (List.forall_mem_cons.mpr ⟨hle.1, hle.2.2⟩), List.cons_append]
    · rw [ih (List.forall_mem_cons.mpr hle.2), List.cons_append]

def Passed (n : ℕ) (l : List Name) : Prop :=
  ∃ p q, l = p ++ q ∧ q.length = n ∧ Sorted q ∧ ∀ x ∈ p, ∀ y ∈ q, ¬ y < x

theorem Passed.exchange {n : ℕ} (h : Passed n l) (hn : n < l.length) :
    Passed (n + 1) (exchange l) := by
  obtain ⟨p, q, rfl, rfl, hq, hle⟩ := h
  cases p with
  | nil => simp at hn
  | cons a p =>
    obtain ⟨front, greatest, he, hg⟩ := exchangeFrom_greatest a p
    have hmem (x) : x ∈ front ++ [greatest] ↔ x ∈ a :: p := he ▸ (exchangeFrom_perm a p).mem_iff
    have happ : Multiview.exchange (a :: p ++ q) = front ++ greatest :: q := by
      rw [List.cons_append, Multiview.exchange, exchangeFrom_append hq hle, he, List.append_assoc]
      rfl
    refine ⟨front, greatest :: q, happ, rfl, ?_, fun x hx ↦ ?_⟩
    · have hgreatest := (hmem greatest).mp (by simp)
      exact List.pairwise_cons.mpr ⟨hle greatest hgreatest, hq⟩
    · have hxp := (hmem x).mp (List.mem_append_left _ hx)
      exact List.forall_mem_cons.mpr ⟨hg x hxp, hle x hxp⟩

/-- The script makes one pass less than there are names, which is enough. -/
theorem sort_spec (l : List Name) : (sort l).Perm l ∧ Sorted (sort l) := by
  have hpass : ∀ n < l.length, (exchange^[n] l).Perm l ∧ Passed n (exchange^[n] l) := by
    intro n
    induction n with
    | zero => exact fun _ ↦ ⟨.refl l, ⟨l, [], by simp, rfl, .nil, by simp⟩⟩
    | succ n ih =>
      intro hn
      obtain ⟨hp, hs⟩ := ih (Nat.lt_of_succ_lt hn)
      rw [Function.iterate_succ_apply']
      exact ⟨(exchange_perm _).trans hp, hs.exchange (by rw [hp.length_eq]; omega)⟩
  rcases Nat.eq_zero_or_pos l.length with h₀ | h₀
  · rw [List.eq_nil_of_length_eq_zero h₀]
    exact ⟨.refl [], .nil⟩
  · obtain ⟨hp, ⟨front, rest, he, hlen, hrest, hle⟩⟩ := hpass (l.length - 1) (by omega)
    refine ⟨hp, ?_⟩
    have hfront : front.length ≤ 1 := by
      have := hp.length_eq
      rw [he, List.length_append] at this
      omega
    rw [Sorted, sort, he, List.pairwise_append]
    refine ⟨?_, hrest, hle⟩
    match front, hfront with
    | [], _ => exact .nil
    | [x], _ => exact List.pairwise_singleton _ x

/-- The rows of the table are in the order of their names. -/
theorem multiview_sorted (contents : Name → List (List Char)) (argv : List Name)
    (table : List TableRow) (h : multiview contents argv = some table) :
    Sorted (table.map (·.name)) :=
  (rows_of_mapM h).1 ▸ (sort_spec _).2

end LibMicro.Multiview
