import LibMicro.Output.Model
import LibMicro.Stats.Recorded

namespace LibMicro.Output

open Text Decimal Multiview
open Stats hiding Row

variable {c : Doubles} {name : Name} {rows rows' : List Row} {r : Run}

def heard (rows : List Row) : List Name := rows.filterMap fun r ↦ rowName r.line

@[simp] theorem heard_nil : heard [] = [] := rfl

@[simp] theorem heard_append : heard (rows ++ rows') = heard rows ++ heard rows' :=
  List.filterMap_append

theorem rowName_of_head {h : Char} (hh : h = '#' ∨ h = '!' ∨ startsName h = false)
    (l : List Char) : rowName (h :: l) = none := by
  rw [rowName, if_neg]
  rw [isRow, decide_eq_true_iff]
  rintro ⟨h₁, -, h₂, h₃⟩
  rcases hh with rfl | rfl | hh
  · exact h₁ rfl
  · exact h₂ rfl
  · rw [List.head?_cons, Option.any_some, hh] at h₃
    cases h₃

theorem rowName_hash (l : List Char) : rowName ('#' :: l) = none := rowName_of_head (.inl rfl) l

def Silent (rows : List Row) : Prop := ∀ r ∈ rows, r.benchmark = none ∧ rowName r.line = none

theorem Silent.heard (h : Silent rows) : heard rows = [] :=
  List.filterMap_eq_nil_iff.mpr fun r hr ↦ (h r hr).2

def Commented (rows : List Row) : Prop := ∀ r ∈ rows, ∃ l, r = .other ('#' :: l)

theorem commented_cons {r : Row} (h : ∃ l, r = .other ('#' :: l)) (hrows : Commented rows) :
    Commented (r :: rows) := List.forall_mem_cons.mpr ⟨h, hrows⟩

theorem commented_nil : Commented [] := List.forall_mem_nil _

theorem Commented.silent (h : Commented rows) : Silent rows := by
  intro r hr
  obtain ⟨l, rfl⟩ := h r hr
  exact ⟨rfl, rowName_hash l⟩

theorem silent_headerLine (lmHeader : List Char) : Silent [headerLine lmHeader] :=
  List.forall_mem_singleton.mpr ⟨rfl, rowName_of_head (.inr (.inr rfl)) _⟩

theorem commented_histo (rows : List Stats.Row) : Commented (rows.map histoLine) := by
  intro r hr
  obtain ⟨row, -, rfl⟩ := List.mem_map.mp hr
  exact ⟨_, rfl⟩

theorem silent_header (b : Bench c) :
    Silent (b.headers.map fun (key, value) ↦ .other (printHeader key value)) := by
  intro r hr
  obtain ⟨⟨key, value⟩, -, rfl⟩ := List.mem_map.mp hr
  exact ⟨rfl, rowName_of_head (.inr (.inl rfl)) _⟩

theorem silent_comment {a : List Char} (ha : a = [] ∨ a.head? = some '#') (l : List Char) :
    Silent [.other (a ++ ' ' :: l)] := by
  refine List.forall_mem_singleton.mpr ⟨rfl, ?_⟩
  cases a with
  | nil => exact rowName_of_head (.inr (.inr rfl)) l
  | cons h a =>
    obtain rfl : h = '#' := by simpa using ha
    exact rowName_hash _

theorem heard_const (h : ∀ r ∈ rows, rowName r.line = some name) :
    heard rows = List.replicate rows.length name := by
  induction rows with
  | nil => rfl
  | cons r rows ih =>
    rw [List.forall_mem_cons] at h
    have hcons : heard (r :: rows) = name :: heard rows := by simp [heard, h.1]
    rw [hcons, ih h.2, List.length_cons, List.replicate_succ]

def Others (rows : List Row) : Prop := ∀ r ∈ rows, r.benchmark = none

theorem others_append : Others (rows ++ rows') ↔ Others rows ∧ Others rows' :=
  List.forall_mem_append

theorem Silent.others (h : Silent rows) : Others rows := fun r hr ↦ (h r hr).1

def Unmarked (rows : List Row) : Prop := ∀ r ∈ rows, r.line.head? ≠ some '!'

/-- Lines that are neither headers nor rows of a benchmark, but count as rows of `names`, on
which the script can go on. -/
structure Stray (rows : List Row) (names : List Name) : Prop where
  others : Others rows
  unmarked : Unmarked rows
  sound : ∀ r ∈ rows, r.Sound
  heard : heard rows = names

theorem Silent.sound (h : Silent rows) : ∀ r ∈ rows, r.Sound := by
  intro r hr
  obtain ⟨hn, hline⟩ := h r hr
  cases r with
  | result | err => cases hn
  | other line =>
    intro hrow
    rw [Row.line, rowName, if_pos hrow] at hline
    cases hline

theorem Silent.stray (h : Silent rows) (hm : Unmarked rows) : Stray rows [] :=
  ⟨h.others, hm, h.sound, h.heard⟩

theorem stray_nil : Stray [] [] :=
  ⟨List.forall_mem_nil _, List.forall_mem_nil _, List.forall_mem_nil _, rfl⟩

theorem Commented.stray (h : Commented rows) : Stray rows [] := by
  refine h.silent.stray fun r hr ↦ ?_
  obtain ⟨l, rfl⟩ := h r hr
  exact fun hm ↦ absurd (Option.some.inj hm) (by decide)

theorem Stray.append {names names' : List Name} (h : Stray rows names) (h' : Stray rows' names') :
    Stray (rows ++ rows') (names ++ names') where
  others := others_append.mpr ⟨h.others, h'.others⟩
  unmarked := List.forall_mem_append.mpr ⟨h.unmarked, h'.unmarked⟩
  sound := List.forall_mem_append.mpr ⟨h.sound, h'.sound⟩
  heard := by rw [heard_append, h.heard, h'.heard]

theorem stray_replicate (n : ℕ) {l : List Char} (h : rowName l = some name)
    (hl : (Row.other l).Sound) : Stray (List.replicate n (.other l)) (List.replicate n name) where
  others r hr := by rw [List.eq_of_mem_replicate hr]; rfl
  unmarked r hr := by
    rw [List.eq_of_mem_replicate hr]
    intro hm
    rw [rowName, isRow] at h
    simp [show l.head? = some '!' from hm] at h
  sound r hr := by rw [List.eq_of_mem_replicate hr]; exact hl
  heard := by
    have hall : ∀ r ∈ List.replicate n (Row.other l), rowName r.line = some name :=
      fun r hr ↦ by rw [List.eq_of_mem_replicate hr]; exact h
    rw [heard_const hall, List.length_replicate]

theorem stray_warning : Stray [warning] ["warning:".toList] :=
  stray_replicate 1 (by decide +kernel) fun _ h ↦ absurd h (by decide +kernel)

theorem stray_zero : Stray [.other "zero samples".toList] ["zero".toList] :=
  stray_replicate 1 (by decide +kernel) fun _ h ↦ absurd h (by decide +kernel)

theorem stray_histoLines (rep : Report) :
    Stray (histoLines c rep) (List.replicate rep.panics "panic!".toList) := by
  have hpanics : Stray (List.replicate rep.panics (.other "panic!".toList))
      (List.replicate rep.panics "panic!".toList) := stray_replicate _ (by decide +kernel) fun _ h ↦ absurd h (by decide +kernel)
  have hlast : Commented [bare, histoLine rep.beyond, bare,
      totalLine "mean of 95%" (c.text rep.m95), totalLine "95th %ile" (c.text (some rep.p95))] := by
    repeat refine commented_cons ⟨_, rfl⟩ ?_
    exact commented_nil
  obtain ⟨head, hhead, hlines⟩ : ∃ head : Row, (∃ l, head = .other ('#' :: l)) ∧
      histoLines c rep = [head] ++ (List.replicate rep.panics (.other "panic!".toList) ++
        rep.rows.map histoLine ++ _) := ⟨_, ⟨_, rfl⟩, rfl⟩
  have h := (commented_cons hhead commented_nil).stray.append
    ((hpanics.append (commented_histo rep.rows).stray).append hlast.stray)
  rw [hlines]
  simpa only [List.append_nil, List.nil_append] using h

theorem stray_statsLines (clock : Clock) (n : ℕ) (stats : Option (StatsT × Report)) :
    Stray (statsLines c clock n stats) (match stats with
      | none => ["zero".toList]
      | some (_, rep) => List.replicate rep.panics "panic!".toList) := by
  cases stats with
  | none =>
    have hhead : Commented [bare, statsHead] := by
      repeat refine commented_cons ⟨_, rfl⟩ ?_
      exact commented_nil
    exact hhead.stray.append stray_zero
  | some stats =>
    obtain ⟨raw, rep⟩ := stats
    have happend {rows : List Row} (h : Commented rows) : Stray (rows ++ histoLines c rep)
        (List.replicate rep.panics "panic!".toList) :=
      h.stray.append (stray_histoLines rep)
    refine happend ?_
    repeat refine commented_cons ⟨_, rfl⟩ ?_
    exact commented_nil

def strayWords : List Name := ["warning:".toList, "zero".toList, "panic!".toList]

namespace Run

def strays (r : Run) : List Name :=
  (if r.options.overrides then ["warning:".toList] else []) ++
    match r.outcome with
    | .failed .. => []
    | .finished samples _ =>
      if r.options.lmOptS then
        if samples = [] then ["zero".toList]
        else
          match printHisto (samples.map (· / 1000)) with
          | .ok (_, rep) => List.replicate rep.panics "panic!".toList
          | .error _ => []
      else []

theorem strays_subset (r : Run) : r.strays ⊆ strayWords := by
  intro n hn
  rw [strays, List.mem_append] at hn
  rcases hn with hn | hn
  · split_ifs at hn
    · exact List.mem_singleton.mp hn ▸ (by decide)
    · cases hn
  · split at hn
    · cases hn
    · split_ifs at hn
      · exact List.mem_singleton.mp hn ▸ (by decide)
      · split at hn
        · exact List.eq_of_mem_replicate hn ▸ (by decide)
        · cases hn
      · cases hn

def status (r : Run) : Status :=
  match r.outcome with
  | .failed .. => .error
  | .finished samples _ =>
    match computeStats samples zeros with
    | .ok (_, raw) => .measured (r.value raw)
    | .error _ => .missing

/-- The rows about the benchmark stand between lines that are not about it. -/
structure Parts (r : Run) (rows before own after : List Row) : Prop where
  eq : rows = before ++ own ++ after
  ne_nil : own ≠ []
  own : ∀ row ∈ own, row.benchmark = some r.options.lmOptN ∧ row.status = r.status
  strays : ∃ names names', Stray before names ∧ Stray after names' ∧ names ++ names' = r.strays

theorem stray_first (r : Run) : Stray (if r.options.overrides then [warning] else [])
    (if r.options.overrides then ["warning:".toList] else []) := by
  split_ifs
  · exact stray_warning
  · exact stray_nil

theorem stray_stats {samples data : List ℚ} {raw : StatsT} {clock : Clock}
    {stats : Option (StatsT × Report)} {d : List ℚ} (ho : r.outcome = .finished samples clock)
    (hs : r.options.lmOptS = true) (hdata : data = samples.map (· / 1000))
    (h : printStats data raw = .ok (d, stats)) (n : ℕ) :
    ∃ names, Stray (statsLines c clock n stats) names ∧
      (if r.options.overrides then ["warning:".toList] else []) ++ names = r.strays := by
  refine ⟨_, stray_statsLines clock n stats, ?_⟩
  rw [strays, ho]
  simp only [hs, if_true]
  congr 1
  rw [printStats] at h
  split_ifs at h with hlen
  · cases h
    have hnil : samples = [] := by
      rw [hdata, List.length_map] at hlen
      exact List.length_eq_zero_iff.mp hlen
    rw [if_pos hnil]
  · have hnil : samples ≠ [] := by
      rintro rfl
      exact hlen (by rw [hdata]; rfl)
    rw [if_neg hnil, ← hdata]
    cases hh : printHisto data with
    | error e =>
      rw [hh] at h
      cases h
    | ok x =>
      rw [hh] at h
      cases h
      rfl

theorem exists_parts (h : r.rows c = .ok rows) : ∃ before own after, r.Parts rows before own after := by
  cases ho : r.outcome with
  | failed error others =>
    simp only [Run.rows, ho] at h
    cases h
    refine ⟨_, (error :: others).map fun e ↦
      .err r.options.lmOptN e.errnum e.strerror e.file e.line, [], (List.append_nil _).symm,
      by simp, fun row hrow ↦ ?_, _, [], stray_first r, stray_nil, ?_⟩
    · obtain ⟨e, -, rfl⟩ := List.mem_map.mp hrow
      exact ⟨rfl, by rw [Run.status, ho]; rfl⟩
    · rw [strays, ho]
  | finished samples clock =>
    simp only [Run.rows, ho] at h
    obtain ⟨⟨data, raw⟩, hstats, h⟩ := bind_ok h
    have hdata := computeStats_ok hstats
    have hresult : ∀ row ∈ [r.result data.length raw],
        row.benchmark = some r.options.lmOptN ∧ row.status = r.status := by
      refine List.forall_mem_singleton.mpr ⟨rfl, ?_⟩
      rw [Run.status, ho]
      simp only [hstats]
      rfl
    have hfirst : Stray ((if r.options.overrides then [warning] else []) ++
        (if r.options.lmOptL then [argumentLine r.argv] else []) ++
          (if r.options.lmOptH then [] else [headerLine r.lmHeader]))
        (if r.options.overrides then ["warning:".toList] else []) := by
      have harg : Stray (if r.options.lmOptL then [argumentLine r.argv] else []) [] := by
        split_ifs
        · exact (commented_cons ⟨_, rfl⟩ commented_nil).stray
        · exact stray_nil
      have hheader : Stray (if r.options.lmOptH then [] else [headerLine r.lmHeader]) [] := by
        split_ifs
        · exact stray_nil
        · exact (silent_headerLine _).stray (List.forall_mem_singleton.mpr fun hm ↦
            absurd (Option.some.inj hm) (by decide))
      simpa only [List.append_nil] using ((stray_first r).append harg).append hheader
    cases hs : r.options.lmOptS with
    | true =>
      simp only [hs, if_true] at h
      obtain ⟨⟨d, stats⟩, hprint, h⟩ := bind_ok h
      cases h
      obtain ⟨names, hnames, heq⟩ := stray_stats ho hs hdata hprint data.length
      exact ⟨_, _, _, rfl, List.cons_ne_nil _ _, hresult, _, names, hfirst, hnames, heq⟩
    | false =>
      simp only [hs, Bool.false_eq_true, if_false] at h
      cases h
      refine ⟨_, _, [], (List.append_nil _).symm, List.cons_ne_nil _ _, hresult, _, [], hfirst,
        stray_nil, ?_⟩
      rw [strays, ho]
      simp only [hs, Bool.false_eq_true, if_false]

end Run

end LibMicro.Output
