import Mathlib.Data.List.Basic

namespace LibMicro.Text

variable {w l : List Char} {n : ℕ}

def padLeft (n : ℕ) (w : List Char) : List Char := List.replicate (n - w.length) ' ' ++ w

def padRight (n : ℕ) (w : List Char) : List Char := w ++ List.replicate (n - w.length) ' '

def isBlank (c : Char) : Bool := c = ' ' ∨ c = '\t'

/-- What stands between runs of blanks. -/
def fields (l : List Char) : List (List Char) := (l.splitOnP isBlank).filter (· ≠ [])

theorem mem_of_mem_splitOnP {p : Char → Bool} {c : Char} (hw : w ∈ l.splitOnP p) (hc : c ∈ w) :
    c ∈ l := by
  induction l generalizing w with
  | nil =>
    rw [List.splitOnP_nil, List.mem_singleton] at hw
    rwa [hw] at hc
  | cons d l ih =>
    obtain ⟨v, vs, hsplit⟩ := List.exists_cons_of_ne_nil (List.splitOnP_ne_nil p l)
    rw [List.splitOnP_cons_eq_if_modifyHead, hsplit] at hw
    rw [hsplit] at ih
    split_ifs at hw
    · rcases List.mem_cons.mp hw with rfl | hw
      · cases hc
      · exact List.mem_cons_of_mem _ (ih hw hc)
    · rcases List.mem_cons.mp hw with rfl | hw
      · rcases List.mem_cons.mp hc with rfl | hc
        · exact List.mem_cons_self
        · exact List.mem_cons_of_mem _ (ih List.mem_cons_self hc)
      · exact List.mem_cons_of_mem _ (ih (List.mem_cons_of_mem _ hw) hc)

theorem mem_of_mem_fields {c : Char} (hw : w ∈ fields l) (hc : c ∈ w) : c ∈ l :=
  mem_of_mem_splitOnP (List.mem_of_mem_filter hw) hc

structure IsField (w : List Char) : Prop where
  ne_nil : w ≠ []
  solid : ∀ c ∈ w, isBlank c = false

theorem isField_iff : IsField w ↔ w ≠ [] ∧ w.all fun c ↦ !isBlank c := by
  constructor
  · intro h
    exact ⟨h.ne_nil, List.all_eq_true.mpr fun c hc ↦ by rw [h.solid c hc]; rfl⟩
  · intro h
    exact ⟨h.1, fun c hc ↦ (Bool.not_eq_true' _).mp (List.all_eq_true.mp h.2 c hc)⟩

instance (w : List Char) : Decidable (IsField w) := decidable_of_iff _ isField_iff.symm

theorem mem_padLeft {c : Char} (hc : c ≠ ' ') : c ∈ padLeft n w ↔ c ∈ w := by
  rw [padLeft, List.mem_append, or_iff_right]
  exact fun h ↦ hc (List.eq_of_mem_replicate h)

theorem takeWhile_append_of_head {f : Char → Bool} (hw : ∀ c ∈ w, f c)
    (hl : ∀ c, l.head? = some c → ¬ f c) : (w ++ l).takeWhile f = w := by
  rw [List.takeWhile_append_of_pos hw]
  cases l with
  | nil => exact List.append_nil w
  | cons c l => rw [List.takeWhile_cons_of_neg (hl c rfl), List.append_nil]

theorem takeWhile_ne {c : Char} (hw : c ∉ w) (l : List Char) :
    (w ++ c :: l).takeWhile (· ≠ c) = w := by
  apply takeWhile_append_of_head
  · intro d hd
    exact decide_eq_true fun h ↦ hw (h ▸ hd)
  · intro d hd
    obtain rfl := Option.some.inj hd
    simp

theorem fields_blank (l : List Char) : fields (' ' :: l) = fields l := by
  have hnil : ∀ c ∈ ([] : List Char), isBlank c = false := fun c hc ↦ nomatch hc
  have h := List.splitOnP_append_cons_of_forall_mem hnil ' ' rfl l
  rw [List.nil_append] at h
  rw [fields, h, List.filter_cons_of_neg (by simp)]
  rfl

theorem fields_replicate (n : ℕ) (l : List Char) : fields (List.replicate n ' ' ++ l) = fields l := by
  induction n with
  | zero => rfl
  | succ n ih => rw [List.replicate_succ, List.cons_append, fields_blank, ih]

theorem IsField.fields_append (h : IsField w) (l : List Char) :
    fields (w ++ ' ' :: l) = w :: fields l := by
  rw [fields, List.splitOnP_append_cons_of_forall_mem h.solid ' ' rfl,
    List.filter_cons_of_pos (by simpa using h.ne_nil)]
  rfl

theorem IsField.fields_padLeft (h : IsField w) (n : ℕ) (l : List Char) :
    fields (padLeft n w ++ ' ' :: l) = w :: fields l := by
  rw [padLeft, List.append_assoc, fields_replicate, h.fields_append]

theorem IsField.fields_padRight (h : IsField w) (n : ℕ) (l : List Char) :
    fields (padRight n w ++ ' ' :: l) = w :: fields l := by
  rw [padRight, List.append_assoc]
  cases hk : n - w.length with
  | zero => exact h.fields_append l
  | succ k =>
    rw [List.replicate_succ, List.cons_append, h.fields_append]
    exact congrArg (w :: ·) ((fields_replicate k _).trans (fields_blank l))

/-- The records of a text. What follows the last newline is one if it is not empty. -/
def lines (l : List Char) : List (List Char) :=
  if (l.splitOnP (· = '\n')).getLast? = some [] then (l.splitOnP (· = '\n')).dropLast
  else l.splitOnP (· = '\n')

def unlines (ls : List (List Char)) : List Char := ls.flatMap (· ++ ['\n'])

def Plain (w : List Char) : Prop := '\n' ∉ w

instance (w : List Char) : Decidable (Plain w) := inferInstanceAs (Decidable (_ ∉ _))

@[simp] theorem plain_nil : Plain [] := List.not_mem_nil

@[simp] theorem plain_append {v w : List Char} : Plain (v ++ w) ↔ Plain v ∧ Plain w := by
  simp [Plain, not_or]

@[simp] theorem plain_cons {c : Char} : Plain (c :: w) ↔ c ≠ '\n' ∧ Plain w := by
  simp [Plain, not_or, eq_comm]

@[simp] theorem plain_blanks (n : ℕ) : Plain (List.replicate n ' ') := by
  intro h
  cases List.eq_of_mem_replicate h

@[simp] theorem plain_padLeft : Plain (padLeft n w) ↔ Plain w := by
  rw [padLeft, plain_append, and_iff_right (plain_blanks _)]

@[simp] theorem plain_padRight : Plain (padRight n w) ↔ Plain w := by
  rw [padRight, plain_append, and_iff_left (plain_blanks _)]

theorem Plain.lines_append (h : Plain w) (l : List Char) :
    lines (w ++ '\n' :: l) = w :: lines l := by
  have hw : ∀ c ∈ w, (fun c ↦ decide (c = '\n')) c = false :=
    fun c hc ↦ decide_eq_false fun he ↦ h (he ▸ hc)
  have hsplit := List.splitOnP_append_cons_of_forall_mem hw '\n' rfl l
  have hne : l.splitOnP (· = '\n') ≠ [] := List.splitOnP_ne_nil _ _
  rw [lines, lines, hsplit, List.getLast?_cons, List.dropLast_cons_of_ne_nil hne,
    List.getLast?_eq_some_getLast hne]
  split_ifs with h₁ h₂ h₂
  · rfl
  · exact absurd h₁ h₂
  · exact absurd h₂ h₁
  · rfl

/-- What has been printed line by line is read line by line. -/
theorem lines_unlines {ls : List (List Char)} (h : ∀ w ∈ ls, Plain w) : lines (unlines ls) = ls := by
  induction ls with
  | nil => rfl
  | cons w ls ih =>
    rw [List.forall_mem_cons] at h
    have hcons : unlines (w :: ls) = w ++ '\n' :: unlines ls := by
      simp [unlines]
    rw [hcons, h.1.lines_append, ih h.2]

end LibMicro.Text
