import Mathlib.Data.List.Basic
import Mathlib.Tactic.Common

namespace LibMicro.Getopt

/-- An option with its argument. -/
abbrev Opt := Char × Option (List Char)

/-- Whether an option takes an argument, if the option string names it. -/
def takes (optstring : List Char) (c : Char) : Option Bool :=
  if c = ':' then none
  else match optstring.dropWhile (· ≠ c) with
    | [] => none
    | _ :: rest => some (rest.head? = some ':')

/-- The options in one element, with `none` for one that is wrong, and the last one if its
argument is the next element. -/
def cluster (spec : Char → Option Bool) : List Char → List (Option Opt) × Option Char
  | [] => ([], none)
  | c :: cs =>
    match spec c with
    | none => (none :: (cluster spec cs).1, (cluster spec cs).2)
    | some false => (some (c, none) :: (cluster spec cs).1, (cluster spec cs).2)
    | some true => if cs = [] then ([], some c) else ([some (c, some cs)], none)

/-- What follows the hyphen in an element with options. -/
def body : List Char → Option (List Char)
  | '-' :: c :: cs => some (c :: cs)
  | _ => none

/-- All options and the operands. A library that does not `permute` stops at the first operand. -/
def scan (permute : Bool) (spec : Char → Option Bool) :
    Option Char → List (List Char) → List (Option Opt) × List (List Char)
  | none, [] => ([], [])
  | some _, [] => ([none], [])
  | some c, v :: rest =>
    (some (c, some v) :: (scan permute spec none rest).1, (scan permute spec none rest).2)
  | none, a :: rest =>
    if a = ['-', '-'] then ([], rest)
    else match body a with
      | none =>
        if permute then ((scan permute spec none rest).1, a :: (scan permute spec none rest).2)
        else ([], a :: rest)
      | some cs =>
        ((cluster spec cs).1 ++ (scan permute spec (cluster spec cs).2 rest).1,
          (scan permute spec (cluster spec cs).2 rest).2)

def getopt (permute : Bool) (spec : Char → Option Bool) (args : List (List Char)) :
    List (Option Opt) × List (List Char) := scan permute spec none args

/-- The ways to write options. -/
inductive Word
  | flags (cs : List Char)
  | attached (cs : List Char) (c : Char) (v : List Char)
  | separate (cs : List Char) (c : Char) (v : List Char)

namespace Word

def render : Word → List (List Char)
  | flags cs => ['-' :: cs]
  | attached cs c v => ['-' :: (cs ++ c :: v)]
  | separate cs c v => ['-' :: (cs ++ [c]), v]

def options : Word → List Opt
  | flags cs => cs.map (·, none)
  | attached cs c v | separate cs c v => cs.map (·, none) ++ [(c, some v)]

/-- The marker of the end is no word. -/
def Ok (spec : Char → Option Bool) : Word → Prop
  | flags cs => (∀ x ∈ cs, spec x = some false) ∧ cs ≠ [] ∧ cs ≠ ['-']
  | attached cs c v => (∀ x ∈ cs, spec x = some false) ∧ spec c = some true ∧ v ≠ []
  | separate cs c _ => (∀ x ∈ cs, spec x = some false) ∧ spec c = some true ∧ cs ++ [c] ≠ ['-']

end Word

/-- Command lines with their options and operands. -/
inductive Line (permute : Bool) (spec : Char → Option Bool) :
    List (List Char) → List Opt → List (List Char) → Prop
  | nil : Line permute spec [] [] []
  | stop (operands : List (List Char)) : Line permute spec (['-', '-'] :: operands) [] operands
  | rest {a : List Char} (args : List (List Char)) (hpermute : permute = false)
      (ha : body a = none) : Line permute spec (a :: args) [] (a :: args)
  | operand {a : List Char} {args : List (List Char)} {os : List Opt}
      {operands : List (List Char)} (hpermute : permute = true) (ha : body a = none)
      (h : Line permute spec args os operands) : Line permute spec (a :: args) os (a :: operands)
  | word {w : Word} {args : List (List Char)} {os : List Opt} {operands : List (List Char)}
      (hw : w.Ok spec) (h : Line permute spec args os operands) :
      Line permute spec (w.render ++ args) (w.options ++ os) operands

variable {permute : Bool} {spec : Char → Option Bool} {c : Char} {cs l : List Char}
  {args operands : List (List Char)} {os : List Opt} {p : Option Char}

theorem body_cons (h : cs ≠ []) : body ('-' :: cs) = some cs := by
  cases cs with
  | nil => exact absurd rfl h
  | cons c cs => rfl

theorem body_eq_some (h : body l = some cs) : l = '-' :: cs ∧ cs ≠ [] := by
  unfold body at h
  split at h
  · cases h
    exact ⟨rfl, List.cons_ne_nil _ _⟩
  · cases h

theorem cluster_append (h : ∀ x ∈ cs, spec x = some false) (l : List Char) :
    cluster spec (cs ++ l) = (cs.map (fun x ↦ some (x, none)) ++ (cluster spec l).1,
      (cluster spec l).2) := by
  induction cs with
  | nil => rfl
  | cons c cs ih =>
    have hrest := ih fun x hx ↦ h x (List.mem_cons_of_mem c hx)
    rw [List.cons_append, cluster, h c List.mem_cons_self]
    simp only [hrest]
    rfl

/-- An element is right if it is a word, or one up to its argument. -/
theorem cluster_eq (h : cluster spec l = (os.map some, p)) :
    ∃ cs, (∀ x ∈ cs, spec x = some false) ∧
      (p = none ∧ l = cs ∧ os = cs.map (·, none) ∨
        (∃ c v, p = none ∧ spec c = some true ∧ v ≠ [] ∧ l = cs ++ c :: v ∧
          os = cs.map (·, none) ++ [(c, some v)]) ∨
        ∃ c, p = some c ∧ spec c = some true ∧ l = cs ++ [c] ∧ os = cs.map (·, none)) := by
  induction l generalizing os with
  | nil =>
    obtain ⟨hos, rfl⟩ := Prod.mk.inj h
    have hnil := List.map_eq_nil_iff.mp hos.symm
    exact ⟨[], by simp, .inl ⟨rfl, rfl, hnil⟩⟩
  | cons c l ih =>
    rw [cluster] at h
    cases hc : spec c with
    | none =>
      rw [hc] at h
      obtain ⟨hos, -⟩ := Prod.mk.inj h
      cases os with
      | nil => cases hos
      | cons o os => cases (List.cons.inj hos).1
    | some b =>
      rw [hc] at h
      cases b with
      | false =>
        obtain ⟨hos, hp⟩ := Prod.mk.inj h
        cases os with
        | nil => cases hos
        | cons o os =>
          obtain ⟨ho, hrest⟩ := List.cons.inj hos
          cases ho
          obtain ⟨cs, hcs, hcase⟩ := ih (Prod.ext hrest hp)
          refine ⟨c :: cs, ?_, ?_⟩
          · intro x hx
            rcases List.mem_cons.mp hx with rfl | hx
            · exact hc
            · exact hcs x hx
          · rcases hcase with ⟨h₁, h₂, h₃⟩ | ⟨d, v, h₁, h₂, h₃, h₄, h₅⟩ | ⟨d, h₁, h₂, h₃, h₄⟩
            · exact .inl ⟨h₁, by rw [h₂], by rw [h₃]; rfl⟩
            · exact .inr (.inl ⟨d, v, h₁, h₂, h₃, by rw [h₄]; rfl, by rw [h₅]; rfl⟩)
            · exact .inr (.inr ⟨d, h₁, h₂, by rw [h₃]; rfl, by rw [h₄]; rfl⟩)
      | true =>
        refine ⟨[], by simp, ?_⟩
        by_cases hl : l = []
        · subst hl
          obtain ⟨hos, hp⟩ := Prod.mk.inj h
          have hnil := List.map_eq_nil_iff.mp hos.symm
          exact .inr (.inr ⟨c, hp.symm, hc, rfl, hnil⟩)
        · simp only [if_neg hl] at h
          obtain ⟨hos, hp⟩ := Prod.mk.inj h
          have hone : os = [(c, some l)] := by
            refine List.map_injective_iff.mpr (fun _ _ ↦ Option.some.inj) ?_
            rw [← hos]
            rfl
          exact .inr (.inl ⟨c, l, hp.symm, hc, hl, rfl, hone⟩)

theorem scan_word (w : Word) (hw : w.Ok spec) (args : List (List Char)) :
    scan permute spec none (w.render ++ args) =
      (w.options.map some ++ (scan permute spec none args).1, (scan permute spec none args).2) := by
  have hdash {l : List Char} (h : l ≠ ['-']) : ('-' :: l : List Char) ≠ ['-', '-'] :=
    fun he ↦ h (List.cons.inj he).2
  cases w with
  | flags cs =>
    obtain ⟨hcs, hne, hstop⟩ := hw
    have hcluster := cluster_append hcs []
    rw [List.append_nil] at hcluster
    simp only [Word.render, List.cons_append, List.nil_append, scan, if_neg (hdash hstop),
      body_cons hne, hcluster]
    simp [cluster, Word.options, Function.comp_def]
  | attached cs c v =>
    obtain ⟨hcs, hc, hv⟩ := hw
    have hne : cs ++ c :: v ≠ [] := by simp
    have hstop : cs ++ c :: v ≠ ['-'] := by
      intro he
      have hlen := congrArg List.length he
      have hpos := List.length_pos_iff.mpr hv
      simp only [List.length_append, List.length_cons, List.length_nil] at hlen
      omega
    simp only [Word.render, List.cons_append, List.nil_append, scan, if_neg (hdash hstop),
      body_cons hne, cluster_append hcs, cluster, hc, if_neg hv]
    simp [Word.options, Function.comp_def]
  | separate cs c v =>
    obtain ⟨hcs, hc, hstop⟩ := hw
    have hne : cs ++ [c] ≠ [] := by simp
    simp only [Word.render, List.cons_append, List.nil_append, scan, if_neg (hdash hstop),
      body_cons hne, cluster_append hcs, cluster, hc, if_true]
    simp [Word.options, Function.comp_def]

theorem Line.scan_eq (h : Line permute spec args os operands) :
    scan permute spec none args = (os.map some, operands) := by
  induction h with
  | nil => rfl
  | stop operands => simp only [scan, if_true, List.map_nil]
  | rest args hpermute ha =>
    have hne : ∀ a, body a = none → a ≠ ['-', '-'] := by
      rintro _ ha rfl
      cases ha
    subst hpermute
    simp only [scan, if_neg (hne _ ha), ha, Bool.false_eq_true, if_false, List.map_nil]
  | operand hpermute ha h ih =>
    have hne : ∀ a, body a = none → a ≠ ['-', '-'] := by
      rintro _ ha rfl
      cases ha
    subst hpermute
    simp only [scan, if_neg (hne _ ha), ha, if_true, ih]
  | word hw h ih => rw [scan_word _ hw, ih, List.map_append]

/-- What comes after an element, with the argument of its last option. -/
def After (permute : Bool) (spec : Char → Option Bool) (operands : List (List Char)) :
    Option Char → List (List Char) → List Opt → Prop
  | none, args, os => Line permute spec args os operands
  | some c, args, os => ∃ v rest os', args = v :: rest ∧ os = (c, some v) :: os' ∧
      Line permute spec rest os' operands

/-- What is read without a fault has been written so. -/
theorem after_of_scan (p : Option Char) (args : List (List Char)) (os : List Opt)
    (h : scan permute spec p args = (os.map some, operands)) :
    After permute spec operands p args os := by
  induction args generalizing p os operands with
  | nil =>
    cases p with
    | none =>
      obtain ⟨hos, rfl⟩ := Prod.mk.inj h
      obtain rfl := List.map_eq_nil_iff.mp hos.symm
      exact .nil
    | some c =>
      obtain ⟨hos, -⟩ := Prod.mk.inj h
      cases os with
      | nil => cases hos
      | cons o os => cases (List.cons.inj hos).1
  | cons a args ih =>
    cases p with
    | some c =>
      obtain ⟨hos, hoperands⟩ := Prod.mk.inj h
      cases os with
      | nil => cases hos
      | cons o os =>
        obtain ⟨ho, hrest⟩ := List.cons.inj hos
        cases ho
        exact ⟨a, args, os, rfl, rfl, ih none os (Prod.ext hrest hoperands)⟩
    | none =>
      simp only [scan] at h
      by_cases hstop : a = ['-', '-']
      · rw [if_pos hstop] at h
        obtain ⟨hos, rfl⟩ := Prod.mk.inj h
        obtain rfl := List.map_eq_nil_iff.mp hos.symm
        subst hstop
        exact .stop _
      rw [if_neg hstop] at h
      cases hbody : body a with
      | none =>
        rw [hbody] at h
        cases permute with
        | false =>
          obtain ⟨hos, rfl⟩ := Prod.mk.inj h
          obtain rfl := List.map_eq_nil_iff.mp hos.symm
          exact .rest args rfl hbody
        | true =>
          obtain ⟨hos, rfl⟩ := Prod.mk.inj h
          exact .operand rfl hbody (ih none os (Prod.ext hos rfl))
      | some l =>
        rw [hbody] at h
        obtain ⟨rfl, hne⟩ := body_eq_some hbody
        rcases hcluster : cluster spec l with ⟨o, p⟩
        simp only [hcluster] at h
        obtain ⟨hos, hoperands⟩ := Prod.mk.inj h
        obtain ⟨os₁, os₂, rfl, rfl, h₂⟩ := List.map_eq_append_iff.mp hos.symm
        have hstop' : l ≠ ['-'] := fun he ↦ hstop (by rw [he])
        have hrest := ih p os₂ (Prod.ext h₂.symm hoperands)
        obtain ⟨cs, hcs, hcase⟩ := cluster_eq hcluster
        rcases hcase with ⟨rfl, rfl, rfl⟩ | ⟨c, v, rfl, hc, hv, rfl, rfl⟩ | ⟨c, rfl, hc, rfl, rfl⟩
        · exact .word (w := .flags l) ⟨hcs, hne, hstop'⟩ hrest
        · exact .word (w := .attached cs c v) ⟨hcs, hc, hv⟩ hrest
        · obtain ⟨v, rest, os', rfl, rfl, hline⟩ := hrest
          have hword := Line.word (w := .separate cs c v) ⟨hcs, hc, hstop'⟩ hline
          simp only [Word.options, List.append_assoc, List.singleton_append] at hword
          exact hword

/-- Command lines are read as they are written. -/
theorem getopt_iff (args : List (List Char)) (os : List Opt) (operands : List (List Char)) :
    getopt permute spec args = (os.map some, operands) ↔ Line permute spec args os operands :=
  ⟨fun h ↦ after_of_scan none args os h, Line.scan_eq⟩

end LibMicro.Getopt
