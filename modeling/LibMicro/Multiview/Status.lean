import LibMicro.Multiview.Reading
import LibMicro.Multiview.Sort

namespace LibMicro.Multiview

open Text Decimal

variable {name file : Name} {s s' : State}

inductive Status
  | missing
  | error
  | measured (value : ℚ)
  deriving DecidableEq

inductive Row
  | result (name : Name) (lmOptP lmOptT : ℤ) (value : ℚ) (baSamples : ℤ)
      (benchmarkResult : List Char)
  | err (name : Name) (errnum : ℤ) (strerror file : List Char) (line : ℤ)
  | other (line : List Char)

namespace Row

def line : Row → List Char
  | result name p t value n text => resultRow name p t value n text
  | err name errnum strerror file line => lmErr name errnum strerror file line
  | other line => line

def benchmark : Row → Option Name
  | result name .. | err name .. => some name
  | other _ => none

def status : Row → Status
  | result _ _ _ value _ _ => .measured value
  | err .. => .error
  | other _ => .missing

end Row

/-- One word that starts with a letter or an underscore. -/
structure IsName (name : Name) : Prop extends IsField name where
  starts : name.head?.any fun c ↦ c.isAlpha ∨ c = '_'

/-- The rows of the benchmark do not contain `errors`, and no other line passes for one of them. -/
structure Row.Proper (r : Row) (name : Name) : Prop where
  noErrors : r.benchmark = some name → ¬ contains "errors".toList r.line
  only : rowName r.line = some name → r.benchmark = some name

def lastRow (rows : List Row) (name : Name) : Option Row :=
  rows.reverse.find? (·.benchmark = some name)

def status (rows : List Row) (name : Name) : Status := ((lastRow rows name).map Row.status).getD .missing

def Status.stored : Status → Value
  | missing => .unset
  | error => .num (-1)
  | measured value => .field (fixed 5 value)

theorem startsName_of_isAlpha {c : Char} (h : c.isAlpha) : startsName c := by
  rw [startsName, decide_eq_true_iff]
  rcases Bool.or_eq_true_iff.mp h with h | h
  · obtain ⟨h₁, h₂⟩ : c.val ≥ 'A'.val ∧ c.val ≤ 'Z'.val := of_decide_eq_true h
    exact .inr (.inl ⟨h₁, Char.le_trans h₂ (by decide)⟩)
  · obtain ⟨h₁, h₂⟩ := Bool.and_eq_true_iff.mp h
    exact .inl ⟨of_decide_eq_true h₁, of_decide_eq_true h₂⟩

theorem isRow_append (h : IsName name) (l : List Char)
    (he : ¬ contains "errors".toList (name ++ l)) : isRow (name ++ l) := by
  obtain ⟨c, w, rfl⟩ := List.exists_cons_of_ne_nil h.ne_nil
  have hc : startsName c := by
    rcases of_decide_eq_true h.starts with hc | rfl
    · exact startsName_of_isAlpha hc
    · rfl
  have h₁ : c ≠ '#' := fun h ↦ absurd (h ▸ hc) (by decide)
  have h₂ : c ≠ '!' := fun h ↦ absurd (h ▸ hc) (by decide)
  rw [isRow, decide_eq_true_iff]
  exact ⟨by simpa using h₁, he, by simpa using h₂, hc⟩

theorem resultRow_append (name : Name) (p t : ℤ) (value : ℚ) (n : ℤ) (text : List Char) :
    ∃ l, resultRow name p t value n text = name ++ l := by
  rw [resultRow, padRight, List.append_assoc]
  exact ⟨_, rfl⟩

theorem fields_resultRow (h : IsField name) (p t : ℤ) (value : ℚ) (n : ℤ) (text : List Char) :
    fields (resultRow name p t value n text) =
      name :: integer p :: integer t :: fixed 5 value :: integer n :: fields text := by
  rw [resultRow, h.fields_padRight, (isField_integer p).fields_padLeft,
    (isField_integer t).fields_padLeft, (isField_fixed 5 value).fields_padLeft,
    (isField_integer n).fields_padLeft]

theorem fields_lmErr (h : IsField name) (errnum : ℤ) (strerror file : List Char) (line : ℤ) :
    ∃ l, fields (lmErr name errnum strerror file line) = name :: "ERROR".toList :: l := by
  have herror : IsField "ERROR".toList := by decide
  rw [lmErr, h.fields_append, herror.fields_append]
  exact ⟨_, rfl⟩

theorem integer_ne_error (n : ℤ) : integer n ≠ "ERROR".toList := by
  intro h
  have hmem : 'E' ∈ integer n := h ▸ by decide
  rcases List.mem_append.mp hmem with hm | hm
  · split_ifs at hm
    · exact absurd (List.mem_singleton.mp hm) (by decide)
    · cases hm
  · exact absurd (isDigit_toDigits hm) (by decide)

theorem fieldValue_of_fields {line w : List Char} {fs : List (List Char)} (hf : fields line = fs)
    {i : ℕ} (hw : fs[i - 1]? = some w) : fieldValue line i = .field w := by
  rw [fieldValue, hf, hw]

theorem rowName_line {r : Row} (h : IsName name) (hn : r.benchmark = some name)
    (he : ¬ contains "errors".toList r.line) : rowName r.line = some name := by
  cases r with
  | result n p t value k text =>
    cases hn
    obtain ⟨l, hl⟩ := resultRow_append name p t value k text
    have hrow : isRow (resultRow name p t value k text) := hl ▸ isRow_append h l (hl ▸ he)
    rw [Row.line, rowName, if_pos hrow, fields_resultRow h.toIsField]
    rfl
  | err n errnum strerror source line =>
    cases hn
    have hrow : isRow (lmErr name errnum strerror source line) := isRow_append h _ he
    obtain ⟨l, hf⟩ := fields_lmErr h.toIsField errnum strerror source line
    rw [Row.line, rowName, if_pos hrow, hf]
    rfl
  | other l => cases hn

theorem rowValue_line {r : Row} (h : IsField name) (hn : r.benchmark = some name) :
    rowValue r.line = r.status.stored := by
  cases r with
  | result n p t value k text =>
    cases hn
    have hf := fields_resultRow h p t value k text
    rw [Row.line, rowValue, fieldValue_of_fields hf rfl, fieldValue_of_fields hf rfl, if_neg]
    · rfl
    · exact fun he ↦ integer_ne_error p (Value.field.inj he)
  | err n errnum strerror source line =>
    cases hn
    obtain ⟨l, hf⟩ := fields_lmErr h errnum strerror source line
    rw [Row.line, rowValue, fieldValue_of_fields hf rfl, if_pos rfl]
    rfl
  | other l => cases hn

theorem Row.Proper.rowName_iff {r : Row} (h : r.Proper name) (hname : IsName name) :
    rowName r.line = some name ↔ r.benchmark = some name :=
  ⟨h.only, fun hn ↦ rowName_line hname hn (h.noErrors hn)⟩

theorem lastRow_concat (rows : List Row) (r : Row) (name : Name) :
    lastRow (rows ++ [r]) name = if r.benchmark = some name then some r else lastRow rows name := by
  simp only [lastRow, List.reverse_append, List.reverse_singleton, List.singleton_append,
    List.find?_cons]
  split <;> simp_all

theorem stored_status (rows : List Row) (name : Name) :
    (status rows name).stored = ((lastRow rows name).map (·.status.stored)).getD .unset := by
  unfold status
  cases lastRow rows name <;> rfl

section Rows

variable {rows : List Row}

/-- The script finds the last row of a benchmark. -/
theorem lastLine_line (hname : IsName name) (h : ∀ r ∈ rows, r.Proper name) :
    lastLine (rows.map Row.line) name = (lastRow rows name).map Row.line := by
  induction rows using List.reverseRecOn with
  | nil => rfl
  | append_singleton rows r ih =>
    rw [List.forall_mem_append, List.forall_mem_singleton] at h
    obtain ⟨hrows, hr⟩ := h
    rw [List.map_append, List.map_singleton, lastLine_concat, lastRow_concat, ih hrows]
    simp only [hr.rowName_iff hname]
    split <;> rfl

theorem lastValue_line (hname : IsName name) (h : ∀ r ∈ rows, r.Proper name) :
    lastValue (rows.map Row.line) name = (status rows name).stored := by
  rw [lastValue, lastLine_line hname h, stored_status]
  cases hr : lastRow rows name with
  | none => rfl
  | some r =>
    have hn : r.benchmark = some name := by simpa using List.find?_some hr
    exact rowValue_line hname.toIsField hn

theorem exists_rowName_line (hname : IsName name) (h : ∀ r ∈ rows, r.Proper name) :
    (∃ line ∈ rows.map Row.line, rowName line = some name) ↔ ∃ r ∈ rows, r.benchmark = some name := by
  constructor
  · rintro ⟨line, hline, hn⟩
    obtain ⟨r, hr, rfl⟩ := List.mem_map.mp hline
    exact ⟨r, hr, ((h r hr).rowName_iff hname).mp hn⟩
  · rintro ⟨r, hr, hn⟩
    exact ⟨r.line, List.mem_map_of_mem hr, ((h r hr).rowName_iff hname).mpr hn⟩

end Rows

/-- A value that is not printed as zero or less. -/
def Status.Regular : Status → Prop
  | measured value => 0 < rounded 5 value
  | _ => True

/-- What a cell shows, if it shows anything. -/
def Cell.shown : Cell → Option Status
  | value a => some (.measured a)
  | compared _ b _ => some (.measured b)
  | error | errors => some .error
  | missing | missingPadded => some .missing
  | notComputed => none

def Status.printed : Status → Status
  | measured value => .measured (rounded 5 value)
  | st => st

/-- The cell shows the status, and of a value the digits that were printed. -/
structure Cell.Shows (cell : Cell) (st : Status) : Prop where
  shown : cell.shown = some st.printed
  text : ∀ v, st = .measured v → cell.text = fixed 5 v ++ ['0'] ∨
    ∃ l, cell.text = padLeft 11 (fixed 5 v) ++ '[' :: l

theorem toNum_fixed (v : ℚ) : (Value.field (fixed 5 v)).toNum = rounded 5 v := by
  rw [Value.toNum, numeric_fixed (by decide)]
  rfl

theorem gtZero_fixed (v : ℚ) : (Value.field (fixed 5 v)).gtZero = decide (0 < rounded 5 v) := by
  rw [Value.gtZero, numeric_fixed (by decide)]

theorem ltZero_fixed (v : ℚ) : (Value.field (fixed 5 v)).ltZero = decide (rounded 5 v < 0) := by
  rw [Value.ltZero, numeric_fixed (by decide)]

theorem divides_stored (st : Status) : st.stored.Divides := by
  cases st with
  | missing | error => exact nofun
  | measured v =>
    rw [Status.stored, Value.Divides, gtZero_fixed, toNum_fixed]
    exact fun h ↦ (of_decide_eq_true h).ne'

theorem shows_value {v : ℚ} (h : 0 < rounded 5 v) :
    (Cell.value (rounded 5 v)).Shows (.measured v) where
  shown := rfl
  text w hw := by
    obtain rfl := Status.measured.inj hw
    exact .inl (fixed_succ_rounded (by decide : 0 < 5) h)

theorem text_compared (bgcolor : List Char) (b percentage : ℚ) :
    ∃ l, (Cell.compared bgcolor b percentage).text = padLeft 11 (fixed 5 b) ++ '[' :: l :=
  ⟨_, rfl⟩

theorem shows_compared {v : ℚ} (h : 0 < rounded 5 v) (bgcolor : List Char) (percentage : ℚ) :
    (Cell.compared bgcolor (rounded 5 v) percentage).Shows (.measured v) where
  shown := rfl
  text w hw := by
    obtain rfl := Status.measured.inj hw
    have htext := text_compared bgcolor (rounded 5 v) percentage
    rw [fixed_rounded h] at htext
    exact .inr htext

/-- No division by zero stops the script, and the cell shows the status. -/
theorem compareCell_stored {a : ℚ} (ha : 0 < rounded 5 a) (st : Status) :
    ∃ cell, compareCell (.field (fixed 5 a)) st.stored = some cell ∧ (st.Regular → cell.Shows st) := by
  cases st with
  | missing => exact ⟨.missingPadded, rfl, fun _ ↦ ⟨rfl, nofun⟩⟩
  | error => exact ⟨.errors, rfl, fun _ ↦ ⟨rfl, nofun⟩⟩
  | measured v =>
    rw [Status.stored, compareCell, gtZero_fixed, ltZero_fixed, toNum_fixed, toNum_fixed,
      if_neg ha.ne']
    rcases lt_trichotomy 0 (rounded 5 v) with hv | hv | hv
    · have hfactor : rounded 5 v / rounded 5 a ≠ 0 := (div_pos hv ha).ne'
      simp only [hv, decide_true, if_true, hfactor, and_false, if_false]
      exact ⟨_, rfl, fun _ ↦ shows_compared hv _ _⟩
    · refine ⟨.missingPadded, ?_, fun h : 0 < rounded 5 v ↦ absurd hv h.ne⟩
      simp [← hv]
    · refine ⟨.errors, ?_, fun h ↦ absurd h hv.not_gt⟩
      simp [hv, hv.not_gt]

/-- The reference shows its status. If that is a value then the others show theirs, except
for values that are not regular. -/
def TableRow.Shows (row : TableRow) (contents : Name → List Row) (reference : Name)
    (others : List Name) : Prop :=
  row.reference.Shows (status (contents reference) row.name) ∧
    match status (contents reference) row.name with
    | .measured _ =>
      List.Forall₂ (fun file cell ↦ (status (contents file) row.name).Regular →
        cell.Shows (status (contents file) row.name)) others row.others
    | _ => row.others = others.map fun _ ↦ .notComputed

section Table

variable {contents : Name → List Row} {reference : Name} {others : List Name}

theorem shows_missing {name : Name} (hst : status (contents reference) name = .missing) :
    TableRow.Shows ⟨name, .missing, others.map fun _ ↦ .notComputed⟩ contents reference others := by
  simp only [TableRow.Shows, hst, and_true]
  exact ⟨rfl, nofun⟩

theorem shows_error {name : Name} (hst : status (contents reference) name = .error) :
    TableRow.Shows ⟨name, .error, others.map fun _ ↦ .notComputed⟩ contents reference others := by
  simp only [TableRow.Shows, hst, and_true]
  exact ⟨rfl, nofun⟩

theorem shows_measured {name : Name} {a : ℚ} {cell : Name → Cell}
    (hst : status (contents reference) name = .measured a) (ha : 0 < rounded 5 a)
    (h : ∀ file ∈ others, (status (contents file) name).Regular →
      (cell file).Shows (status (contents file) name)) :
    TableRow.Shows ⟨name, .value (rounded 5 a), others.map cell⟩ contents reference others := by
  simp only [TableRow.Shows, hst, List.forall₂_map_right_iff, List.forall₂_same]
  exact ⟨shows_value ha, h⟩

variable (hname : IsName name) (h : ∀ file ∈ reference :: others, ∀ r ∈ contents file, r.Proper name)

include hname h

theorem State.Tells.stored_file
    (htells : s.Tells (fun file ↦ (contents file).map Row.line) (reference :: others)) (f : Name) :
    ∃ st, s.benchmarkData (name, f) = st.stored ∧
      (f ∈ reference :: others → st = status (contents f) name) := by
  rw [htells.stored]
  split
  · next hf => exact ⟨_, lastValue_line hname (h f hf), fun _ ↦ rfl⟩
  · next hf => exact ⟨.missing, rfl, fun hmem ↦ absurd hmem hf⟩

theorem State.Tells.printRow
    (htells : s.Tells (fun file ↦ (contents file).map Row.line) (reference :: others)) :
    ∃ row, printRow s (reference :: others) name = some row ∧
      ((status (contents reference) name).Regular → row.Shows contents reference others) := by
  obtain ⟨st, href, heq⟩ := htells.stored_file hname h reference
  obtain rfl := heq List.mem_cons_self
  rw [Multiview.printRow, List.headD_cons, href, List.tail_cons]
  cases hst : status (contents reference) name with
  | missing => exact ⟨_, rfl, fun _ ↦ shows_missing hst⟩
  | error => exact ⟨_, rfl, fun _ ↦ shows_error hst⟩
  | measured a =>
    rw [Status.stored, gtZero_fixed, ltZero_fixed, toNum_fixed]
    rcases lt_or_ge 0 (rounded 5 a) with ha | ha
    · have hcell (file : Name) : ∃ cell,
          compareCell (.field (fixed 5 a)) (s.benchmarkData (name, file)) = some cell ∧
            (file ∈ others → (status (contents file) name).Regular →
              cell.Shows (status (contents file) name)) := by
        obtain ⟨st, hst, hfile⟩ := htells.stored_file hname h file
        obtain ⟨cell, hcell, hshows⟩ := compareCell_stored ha st
        refine ⟨cell, hst ▸ hcell, fun hmem ↦ ?_⟩
        rwa [← hfile (List.mem_cons_of_mem reference hmem)]
      choose cell hcell hshows using hcell
      simp only [ha, decide_true, if_true, hcell]
      refine ⟨⟨name, .value (rounded 5 a), others.map cell⟩, ?_, fun _ ↦ ?_⟩
      · have hothers : (others.mapM fun file ↦ some (cell file)) = some (others.map cell) :=
          List.mapM_pure
        rw [hothers]
        rfl
      · exact shows_measured hst ha hshows
    · simp only [ha.not_gt, decide_false]
      exact ⟨_, rfl, fun hregular ↦ absurd hregular ha.not_gt⟩

end Table

/-- Rows of benchmarks have proper names, and no other line stops the script. -/
def Row.Sound : Row → Prop
  | result name .. | err name .. => IsName name
  | other line => isRow line → (rowValue line).Divides

theorem Row.Sound.divides {r : Row} (h : r.Sound) (hrow : isRow r.line) :
    (rowValue r.line).Divides := by
  cases r with
  | result name p t value k text =>
    rw [rowValue_line (r := .result name p t value k text) (IsName.toIsField h) rfl]
    exact divides_stored _
  | err name errnum strerror source line =>
    rw [rowValue_line (r := .err name errnum strerror source line) (IsName.toIsField h) rfl]
    exact divides_stored _
  | other line => exact h hrow

theorem multiview_of_sound {contents : Name → List Row} {argv : List Name}
    (h : ∀ file ∈ argv, ∀ r ∈ contents file, r.Sound) :
    ∃ table, multiview (fun file ↦ (contents file).map Row.line) argv = some table := by
  refine multiview_eq_some fun file hfile line hline hrow ↦ ?_
  obtain ⟨r, hr, rfl⟩ := List.mem_map.mp hline
  exact (h file hfile r hr).divides hrow

/-- The table has one row for each benchmark. -/
theorem shows_status (contents : Name → List Row) (reference : Name) (others : List Name) :
    ((∀ file ∈ reference :: others, ∀ r ∈ contents file, r.Sound) →
      ∃ table, multiview (fun file ↦ (contents file).map Row.line) (reference :: others) =
        some table) ∧
    ∀ table, multiview (fun file ↦ (contents file).map Row.line) (reference :: others) =
      some table →
      (table.map (·.name)).Nodup ∧
      ∀ name, IsName name →
        (∀ file ∈ reference :: others, ∀ r ∈ contents file, r.Proper name) →
        (name ∈ table.map (·.name) ↔
          ∃ file ∈ reference :: others, ∃ r ∈ contents file, r.benchmark = some name) ∧
        ∀ row ∈ table, row.name = name → (status (contents reference) name).Regular →
          row.Shows contents reference others := by
  refine ⟨multiview_of_sound, fun table htable ↦ ?_⟩
  have htells := readFiles_tells (fun file ↦ (contents file).map Row.line) (reference :: others)
  obtain ⟨hnames, hrows⟩ := rows_of_mapM htable
  have hperm := hnames ▸ (sort_spec _).1
  refine ⟨hperm.nodup_iff.mpr htells.consistent.nodup, fun name hname h ↦ ⟨?_, ?_⟩⟩
  · rw [hperm.mem_iff, htells.listed]
    exact exists_congr fun file ↦ and_congr_right fun hfile ↦ exists_rowName_line hname (h file hfile)
  · rintro row hrow rfl
    obtain ⟨row', hrow', hshows⟩ := htells.printRow hname h
    obtain rfl : row = row' := Option.some.inj ((hrows row hrow).symm.trans hrow')
    exact hshows

theorem shows_status_two :
    let contents : Name → List Row := fun file ↦
      if file = "a".toList then
        [.other "zero samples".toList, .result "getpid".toList 1 1 (1 / 4) 100 []]
      else [.err "getpid".toList 2 "no such file".toList "x.c".toList 7]
    ∃ table, multiview (fun file ↦ (contents file).map Row.line) ["a".toList, "b".toList] = some table ∧
      ∃ row ∈ table, row.name = "getpid".toList ∧
        row.Shows contents "a".toList ["b".toList] := by
  intro contents
  have hname : IsName "getpid".toList := ⟨by decide, by decide⟩
  have hfiles {P : Row → Prop} (hstray : P (.other "zero samples".toList))
      (hresult : P (.result "getpid".toList 1 1 (1 / 4) 100 []))
      (herr : P (.err "getpid".toList 2 "no such file".toList "x.c".toList 7)) :
      ∀ file ∈ ["a".toList, "b".toList], ∀ r ∈ contents file, P r := by
    intro file hfile
    rcases List.mem_pair.mp hfile with rfl | rfl
    · exact List.forall_mem_cons.mpr ⟨hstray, List.forall_mem_singleton.mpr hresult⟩
    · exact List.forall_mem_singleton.mpr herr
  have hproper := hfiles (P := fun r ↦ r.Proper "getpid".toList) ⟨nofun, by decide +kernel⟩
    ⟨fun _ ↦ by decide +kernel, fun _ ↦ rfl⟩ ⟨fun _ ↦ by decide +kernel, fun _ ↦ rfl⟩
  obtain ⟨hexists, htable⟩ := shows_status contents "a".toList ["b".toList]
  obtain ⟨table, h⟩ := hexists (hfiles (fun _ h ↦ absurd h (by decide +kernel)) hname hname)
  obtain ⟨hlisted, hrows⟩ := (htable table h).2 "getpid".toList hname hproper
  have hmem : "getpid".toList ∈ table.map (·.name) :=
    hlisted.mpr ⟨"a".toList, List.mem_cons_self, _, List.mem_cons_of_mem _ List.mem_cons_self, rfl⟩
  obtain ⟨row, hrow, hn⟩ := List.mem_map.mp hmem
  refine ⟨table, h, row, hrow, hn, hrows row hrow hn ?_⟩
  change 0 < rounded 5 (1 / 4)
  decide +kernel

/-- Nothing is computed where the reference file has no row. -/
theorem not_computed :
    let contents : Name → List Row := fun file ↦
      if file = "b".toList then [.result "getpid".toList 1 1 1 100 []] else []
    IsName "getpid".toList ∧ (∀ file, ∀ r ∈ contents file, r.Proper "getpid".toList) ∧
      multiview (fun file ↦ (contents file).map Row.line) ["a".toList, "b".toList] =
        some [⟨"getpid".toList, .missing, [.notComputed]⟩] ∧
      status (contents "b".toList) "getpid".toList = .measured 1 ∧
      ¬ Cell.notComputed.Shows (.measured 1) := by
  intro contents
  refine ⟨⟨by decide, by decide⟩, fun file r hr ↦ ?_, by decide +kernel, by decide +kernel,
    fun h ↦ nomatch h.shown⟩
  unfold contents at hr
  split at hr
  · obtain rfl := List.mem_singleton.mp hr
    exact ⟨fun _ ↦ by decide +kernel, fun _ ↦ rfl⟩
  · cases hr

end LibMicro.Multiview
