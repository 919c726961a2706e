import LibMicro.Text

namespace LibMicro.Tags

/-- A tag that opens an element or closes it. -/
inductive Tag
  | opening (name : List Char)
  | closing (name : List Char)
  deriving DecidableEq

variable {t : List Tag} {a b stack : List (List Char)} {v w l x : List Char}

/-- What is open after a tag, the innermost element first. -/
def advance : List (List Char) → Tag → Option (List (List Char))
  | stack, .opening x => some (x :: stack)
  | x :: stack, .closing y => if x = y then some stack else none
  | [], .closing _ => none

def remaining (stack : List (List Char)) (t : List Tag) : Option (List (List Char)) :=
  t.foldlM advance stack

def WellNested (t : List Tag) : Prop := remaining [] t = some []

theorem remaining_cons (stack : List (List Char)) (y : Tag) (t : List Tag) :
    remaining stack (y :: t) = (advance stack y).bind fun stack ↦ remaining stack t := rfl

theorem remaining_append (stack : List (List Char)) (t t' : List Tag) :
    remaining stack (t ++ t') = (remaining stack t).bind fun stack ↦ remaining stack t' :=
  List.foldlM_append

/-- What has been open before is not touched. -/
theorem advance_frame {y : Tag} (h : advance a y = some b) (stack : List (List Char)) :
    advance (a ++ stack) y = some (b ++ stack) := by
  cases y with
  | opening x =>
    cases h
    rfl
  | closing x =>
    cases a with
    | nil => cases h
    | cons y a =>
      rw [advance] at h
      split_ifs at h with hx
      cases h
      exact if_pos hx

theorem remaining_frame (h : remaining a t = some b) (stack : List (List Char)) :
    remaining (a ++ stack) t = some (b ++ stack) := by
  induction t generalizing a with
  | nil =>
    cases h
    rfl
  | cons y t ih =>
    rw [remaining_cons] at h
    obtain ⟨c, hc, h⟩ := Option.bind_eq_some_iff.mp h
    rw [remaining_cons, advance_frame hc, Option.bind_some, ih h]

/-- What stands between angle brackets. Declarations and empty elements open nothing. -/
def tag (w : List Char) : Option Tag :=
  if w.head? = some '/' then some (.closing w.tail)
  else if w.head? = some '!' ∨ w.getLast? = some '/' then none
  else some (.opening (w.takeWhile (· ≠ ' ')))

/-- The tags of a text, and what has been read of one that is not complete. -/
def scan : Option (List Char) → List Char → List Tag × Option (List Char)
  | s, [] => ([], s)
  | none, c :: l => scan (if c = '<' then some [] else none) l
  | some w, c :: l =>
    if c = '>' then ((tag w).toList ++ (scan none l).1, (scan none l).2) else scan (some (w ++ [c])) l

def tags (l : List Char) : List Tag := (scan none l).1

theorem scan_append (s : Option (List Char)) (w l : List Char) :
    scan s (w ++ l) = ((scan s w).1 ++ (scan (scan s w).2 l).1, (scan (scan s w).2 l).2) := by
  induction w generalizing s with
  | nil => cases s <;> rfl
  | cons c w ih =>
    cases s with
    | none => exact ih _
    | some v =>
      rw [List.cons_append, scan, scan]
      split_ifs with hc
      · rw [ih none, List.append_assoc]
      · exact ih _

/-- A text with complete tags, which leaves the elements `a` open. -/
structure Leaves (w : List Char) (a : List (List Char)) : Prop where
  complete : (scan none w).2 = none
  remaining : remaining [] (tags w) = some a

theorem leaves_iff : Leaves w a ↔ (scan none w).2 = none ∧ remaining [] (tags w) = some a :=
  ⟨fun h ↦ ⟨h.complete, h.remaining⟩, fun h ↦ ⟨h.1, h.2⟩⟩

instance (w : List Char) (a : List (List Char)) : Decidable (Leaves w a) :=
  decidable_of_iff _ leaves_iff.symm

namespace Leaves

theorem tags_append (h : Leaves w a) (l : List Char) : tags (w ++ l) = tags w ++ tags l := by
  rw [tags, scan_append, h.complete]
  rfl

theorem remaining_append (h : Leaves w a) (l : List Char) :
    Tags.remaining [] (tags (w ++ l)) = Tags.remaining a (tags l) := by
  rw [h.tags_append, Tags.remaining_append, h.remaining, Option.bind_some]

theorem append (h : Leaves w a) (h' : Leaves v b) : Leaves (w ++ v) (b ++ a) where
  complete := by
    rw [scan_append, h.complete]
    exact h'.complete
  remaining := by
    rw [h.remaining_append]
    exact remaining_frame h'.remaining a

end Leaves

theorem leaves_nil : Leaves [] [] := ⟨rfl, rfl⟩

theorem scan_text (h : '<' ∉ w) : scan none w = ([], none) := by
  induction w with
  | nil => rfl
  | cons c w ih =>
    rw [List.mem_cons, not_or] at h
    rw [scan, if_neg (Ne.symm h.1)]
    exact ih h.2

theorem leaves_text (h : '<' ∉ w) : Leaves w [] := by
  constructor
  · rw [scan_text h]
  · rw [tags, scan_text h]
    rfl

theorem scan_some (h : '>' ∉ v) (w : List Char) : scan (some w) v = ([], some (w ++ v)) := by
  induction v generalizing w with
  | nil => rw [scan, List.append_nil]
  | cons c v ih =>
    rw [List.mem_cons, not_or] at h
    rw [scan, if_neg (Ne.symm h.1), ih h.2, List.append_assoc]
    rfl

theorem scan_tag (h : '>' ∉ v) : scan none ('<' :: v ++ ['>']) = ((tag v).toList, none) := by
  rw [List.cons_append, scan, if_pos rfl, scan_append, scan_some h]
  simp [scan]

theorem tag_closing (x : List Char) : tag ('/' :: x) = some (.closing x) := if_pos rfl

/-- A tag whose element has no attributes or others behind a blank. -/
theorem tag_opening {c : Char} (hc : c ≠ '/' ∧ c ≠ '!') (hw : (c :: w).getLast? ≠ some '/') :
    tag (c :: w) = some (.opening ((c :: w).takeWhile (· ≠ ' '))) := by
  rw [tag, if_neg (by simpa using hc.1), if_neg (not_or.mpr ⟨by simpa using hc.2, hw⟩)]

theorem leaves_opening (h : '>' ∉ v) (hv : tag v = some (.opening x)) :
    Leaves ('<' :: v ++ ['>']) [x] := by
  constructor
  · rw [scan_tag h]
  · rw [tags, scan_tag h, hv]
    rfl

theorem Leaves.close (h : Leaves w (x :: a)) (hx : '>' ∉ x) :
    Leaves (w ++ ('<' :: '/' :: x ++ ['>'])) a := by
  have hv : '>' ∉ '/' :: x := by simpa using hx
  constructor
  · rw [scan_append, h.complete, scan_tag hv]
  · rw [h.remaining_append, tags, scan_tag hv, tag_closing]
    simp [Tags.remaining, advance]

/-- Pieces that leave one element open, unless they are closed. -/
theorem leaves_flatMap {ι : Type} {f : ι → List Char} {p : ι → Bool} {s : List ι}
    (h : ∀ i ∈ s, Leaves (f i) (if p i then [] else [x])) :
    Leaves (s.flatMap f) (List.replicate (s.countP fun i ↦ !p i) x) := by
  induction s with
  | nil => exact leaves_nil
  | cons i s ih =>
    rw [List.forall_mem_cons] at h
    have happ := h.1.append (ih h.2)
    rw [List.flatMap_cons, List.countP_cons]
    cases hp : p i with
    | true => simpa [hp] using happ
    | false => simpa [hp, List.replicate_succ'] using happ

theorem leaves_balanced {ι : Type} {f : ι → List Char} {s : List ι}
    (h : ∀ i ∈ s, Leaves (f i) []) : Leaves (s.flatMap f) [] := by
  have hnone : s.countP (fun _ ↦ !true) = 0 := List.countP_eq_zero.mpr fun _ _ ↦ by simp
  have hall := leaves_flatMap (p := fun _ ↦ true) (x := []) h
  rwa [hnone] at hall

end LibMicro.Tags
