import LibMicro.Output.Table
import LibMicro.Stats.Bars

namespace LibMicro.Output

open Text Decimal Multiview
open Stats hiding Row

variable {c : Doubles} {name : Name} {rows rows' : List Row} {r : Run}

structure Run.Plain (r : Run) : Prop where
  name : Text.Plain r.options.lmOptN
  argv : ∀ a ∈ r.argv, Text.Plain a
  lmHeader : Text.Plain r.lmHeader
  benchmarkResult : Text.Plain r.benchmarkResult
  errors : ∀ error others, r.outcome = .failed error others →
    ∀ e ∈ error :: others, Text.Plain e.strerror ∧ Text.Plain e.file

theorem line_other (l : List Char) : (Row.other l).line = l := rfl

def PlainRows (rows : List Row) : Prop := ∀ r ∈ rows, Plain r.line

@[simp] theorem plainRows_nil : PlainRows [] := List.forall_mem_nil _

@[simp] theorem plainRows_append : PlainRows (rows ++ rows') ↔ PlainRows rows ∧ PlainRows rows' :=
  List.forall_mem_append

@[simp] theorem plainRows_cons {r : Row} : PlainRows (r :: rows) ↔ Plain r.line ∧ PlainRows rows :=
  List.forall_mem_cons

theorem plainRows_map {α : Type} {f : α → Row} {l : List α} (h : ∀ x ∈ l, Plain (f x).line) :
    PlainRows (l.map f) := List.forall_mem_map.mpr h

theorem plain_resultRow {n text : List Char} (hn : Plain n) (ht : Plain text) (p t : ℤ) (v : ℚ)
    (k : ℤ) : Plain (resultRow n p t v k text) := by
  simp [resultRow, hn, ht]

theorem plain_lmErr {n strerror file : List Char} (hn : Plain n) (hs : Plain strerror)
    (hf : Plain file) (errnum line : ℤ) : Plain (lmErr n errnum strerror file line) := by
  simp [lmErr, hn, hs, hf]

theorem plain_argumentLine {argv : List (List Char)} (h : ∀ a ∈ argv, Plain a) :
    Plain (argumentLine argv).line := by
  have hargs : Plain (argv.flatMap (· ++ [' '])) := by
    intro hn
    obtain ⟨a, ha, hn⟩ := List.mem_flatMap.mp hn
    rw [List.mem_append, List.mem_singleton] at hn
    rcases hn with hn | hn
    · exact h a ha hn
    · cases hn
  simp [argumentLine, line_other, hargs]

theorem plain_headerLine {lmHeader : List Char} (h : Plain lmHeader) :
    Plain (headerLine lmHeader).line := by
  simp [headerLine, line_other, h]

@[simp] theorem plain_text (hc : Plain c.nan) (x : Option ℚ) : Plain (c.text x) := by
  cases x <;> simp [Doubles.text, hc]

theorem plain_bar (count total : ℤ) : Plain (bar count total) := by
  have hstars (n : ℕ) : Plain (List.replicate n '*') := fun h ↦ by
    cases List.eq_of_mem_replicate h
  have hfirst : (if count ≠ 0 then '*' else ' ') ≠ '\n' := by
    split_ifs <;> decide
  simp only [bar, plain_append, plain_cons, plain_blanks, and_true]
  exact ⟨hfirst, hstars _⟩

theorem plain_histoLine {r : Stats.Row} (hbar : Plain r.bar) : Plain (histoLine r).line := by
  cases hl : r.label <;> cases hm : r.mean <;> simp [histoLine, line_other, hl, hm, hbar]

theorem report_bars {data d : List ℚ} {rep : Report} (h : printHisto data = .ok (d, rep)) :
    ∀ r ∈ rep.rows ++ [rep.beyond], Text.Plain r.bar := by
  obtain ⟨f, hf, -⟩ := bind_ok (a := fillHisto data) h
  have hm : (findLargest f.loop.histo).2 ≠ 0 := by
    intro hm
    rw [printHisto_divide hf hm] at h
    cases h
  rw [printHisto_eq hf hm] at h
  cases h
  intro r hr
  rw [(mem_bars hr).1]
  exact plain_bar _ _

theorem plain_histoLines (hc : Text.Plain c.nan) {rep : Report}
    (h : ∀ r ∈ rep.rows ++ [rep.beyond], Text.Plain r.bar) : PlainRows (histoLines c rep) := by
  have hpanics (n : ℕ) : PlainRows (List.replicate n (.other "panic!".toList)) := by
    intro r hr
    rw [List.eq_of_mem_replicate hr]
    decide
  have hrows : PlainRows (rep.rows.map histoLine) :=
    plainRows_map fun r hr ↦ plain_histoLine (h r (List.mem_append_left _ hr))
  have hbeyond : Text.Plain (histoLine rep.beyond).line :=
    plain_histoLine (h _ (List.mem_append_right _ List.mem_cons_self))
  rw [histoLines, plainRows_cons, plainRows_append, plainRows_append]
  refine ⟨?_, ⟨hpanics _, hrows⟩, ?_⟩
  · simp [line_other]
  · simp [hbeyond, totalLine, bare, line_other, plain_text hc]

theorem plain_statsLines (hc : Text.Plain c.nan) {data d : List ℚ} {raw : StatsT}
    {stats : Option (StatsT × Report)} (h : printStats data raw = .ok (d, stats)) (clock : Clock)
    (n : ℕ) : PlainRows (statsLines c clock n stats) := by
  rw [printStats] at h
  split_ifs at h
  · cases h
    simp [statsLines, bare, statsHead, line_other]
  · cases hh : printHisto data with
    | error e =>
      rw [hh] at h
      cases h
    | ok x =>
      rw [hh] at h
      cases h
      simp [statsLines, bare, statsHead, statsLine, line_other, plain_text hc,
        plain_histoLines hc (report_bars hh)]

theorem Run.Plain.plainRows (hp : r.Plain) (hc : Text.Plain c.nan) (h : r.rows c = .ok rows) :
    PlainRows rows := by
  have hwarning : PlainRows (if r.options.overrides then [warning] else []) := by
    split_ifs <;> simp [warning, line_other]
  cases ho : r.outcome with
  | failed error others =>
    simp only [Run.rows, ho] at h
    cases h
    refine plainRows_append.mpr ⟨hwarning, plainRows_map fun e he ↦ ?_⟩
    obtain ⟨hs, hf⟩ := hp.errors error others ho e he
    exact plain_lmErr hp.name hs hf _ _
  | finished samples clock =>
    simp only [Run.rows, ho] at h
    obtain ⟨⟨data, raw⟩, hstats, h⟩ := bind_ok h
    have hargs : PlainRows (if r.options.lmOptL then [argumentLine r.argv] else []) := by
      split_ifs
      · exact plainRows_cons.mpr ⟨plain_argumentLine hp.argv, plainRows_nil⟩
      · exact plainRows_nil
    have hheader : PlainRows (if r.options.lmOptH then [] else [headerLine r.lmHeader]) := by
      split_ifs
      · exact plainRows_nil
      · exact plainRows_cons.mpr ⟨plain_headerLine hp.lmHeader, plainRows_nil⟩
    have hresult : Text.Plain (r.result data.length raw).line :=
      plain_resultRow hp.name hp.benchmarkResult _ _ _ _
    cases hs : r.options.lmOptS with
    | true =>
      simp only [hs, if_true] at h
      obtain ⟨⟨d, stats⟩, hprint, h⟩ := bind_ok h
      cases h
      simp [hwarning, hargs, hheader, hresult, plain_statsLines hc hprint]
    | false =>
      simp only [hs, Bool.false_eq_true, if_false] at h
      cases h
      simp [hwarning, hargs, hheader, hresult]

/-- A run under a name of its own, which is one word, in rows that are not skipped. -/
structure Printed.Proper (p : Printed c) : Prop where
  plain : p.run.Plain
  name : IsName p.run.options.lmOptN
  listed : p.run.options.lmOptN ∉ strayWords
  noErrors : ∀ row ∈ p.rows, row.benchmark ≠ none → ¬ contains "errors".toList row.line

section Printed

variable {p : Printed c}

theorem Printed.Proper.rowName_own (hp : p.Proper) {row : Row} (hrow : row ∈ p.rows)
    (hn : row.benchmark = some p.run.options.lmOptN) :
    rowName row.line = some p.run.options.lmOptN :=
  rowName_line hp.name hn (hp.noErrors row hrow (by simp [hn]))

theorem Printed.Proper.mem_heard (hp : p.Proper) (n : Name) :
    n ∈ heard p.rows ↔ n = p.run.options.lmOptN ∨ n ∈ p.run.strays := by
  obtain ⟨before, own, after, heq, hne, hown, names, names', hbefore, hafter, hstrays⟩ :=
    Run.exists_parts p.printed
  have hconst : heard own = List.replicate own.length p.run.options.lmOptN :=
    heard_const fun row hrow ↦ hp.rowName_own (by simp [heq, hrow]) (hown row hrow).1
  rw [heq, heard_append, heard_append, hconst, hbefore.heard, hafter.heard, ← hstrays]
  simp only [List.mem_append, List.mem_replicate]
  have hlen : own.length ≠ 0 := fun h ↦ hne (List.eq_nil_of_length_eq_zero h)
  tauto

theorem Printed.Proper.sound (hp : p.Proper) : ∀ row ∈ p.rows, row.Sound := by
  obtain ⟨before, own, after, heq, -, hown, names, names', hbefore, hafter, -⟩ :=
    Run.exists_parts p.printed
  rw [heq]
  refine List.forall_mem_append.mpr ⟨List.forall_mem_append.mpr ⟨hbefore.sound, fun row hrow ↦ ?_⟩,
    hafter.sound⟩
  have hn := (hown row hrow).1
  cases row with
  | result | err =>
    cases hn
    exact hp.name
  | other l => cases hn

theorem Silent.proper (h : Silent rows) : ∀ row ∈ rows, row.Proper name := by
  intro row hrow
  obtain ⟨hn, hline⟩ := h row hrow
  refine ⟨fun hname ↦ ?_, fun hname ↦ ?_⟩
  · rw [hn] at hname
    cases hname
  · rw [hline] at hname
    cases hname

theorem Stray.proper {names : List Name} (h : Stray rows names) (hname : name ∉ names) :
    ∀ row ∈ rows, row.Proper name := by
  intro row hrow
  refine ⟨fun hn ↦ ?_, fun hn ↦ ?_⟩
  · rw [h.others row hrow] at hn
    cases hn
  · refine absurd ?_ hname
    rw [← h.heard]
    exact List.mem_filterMap.mpr ⟨row, hrow, hn⟩

theorem Printed.Proper.proper (hp : p.Proper) (hname : name ∉ strayWords) :
    ∀ row ∈ p.rows, row.Proper name := by
  obtain ⟨before, own, after, heq, -, hown, names, names', hbefore, hafter, hstrays⟩ :=
    Run.exists_parts p.printed
  have hout : name ∉ names ++ names' := fun h ↦ hname (p.run.strays_subset (hstrays ▸ h))
  rw [List.mem_append, not_or] at hout
  have hall : ∀ row ∈ own, row.Proper name := by
    intro row hrow
    have hmem : row ∈ p.rows := by simp [heq, hrow]
    obtain ⟨hn, -⟩ := hown row hrow
    refine ⟨fun _ ↦ hp.noErrors row hmem (by simp [hn]), fun h ↦ ?_⟩
    rwa [hn, ← hp.rowName_own hmem hn]
  rw [heq]
  exact List.forall_mem_append.mpr ⟨List.forall_mem_append.mpr ⟨hbefore.proper hout.1, hall⟩,
    hafter.proper hout.2⟩

end Printed

theorem lastRow_append (rows rows' : List Row) (name : Name) :
    lastRow (rows ++ rows') name = (lastRow rows' name).or (lastRow rows name) := by
  rw [lastRow, lastRow, lastRow, List.reverse_append, List.find?_append]

theorem Others.lastRow (h : Others rows) (name : Name) : lastRow rows name = none := by
  refine List.find?_eq_none.mpr fun row hrow ↦ ?_
  rw [h row (List.mem_reverse.mp hrow)]
  simp

theorem Printed.lastRow (p : Printed c) (name : Name) : (lastRow p.rows name).map Row.status =
    if p.run.options.lmOptN = name then some p.run.status else none := by
  obtain ⟨before, own, after, heq, hne, hown, names, names', hbefore, hafter, -⟩ :=
    Run.exists_parts p.printed
  rw [heq, lastRow_append, lastRow_append, hbefore.others.lastRow, hafter.others.lastRow,
    Option.or_none, Option.none_or]
  split_ifs with h
  · cases hl : Multiview.lastRow own name with
    | none =>
      obtain ⟨row, rest, rfl⟩ := List.exists_cons_of_ne_nil hne
      have hnone := List.find?_eq_none.mp hl row (by simp)
      exact absurd (by simp [(hown row List.mem_cons_self).1, h]) hnone
    | some row =>
      have hrow : row ∈ own := List.mem_reverse.mp (List.mem_of_find?_eq_some hl)
      rw [Option.map_some, (hown row hrow).2]
  · rw [Option.map_eq_none_iff]
    refine List.find?_eq_none.mpr fun row hrow ↦ ?_
    rw [(hown row (List.mem_reverse.mp hrow)).1]
    simpa using h

namespace Bench

structure Proper (b : Bench c) : Prop where
  headers : ∀ h ∈ b.headers, Text.Plain h.1 ∧ Text.Plain h.2
  comments : ∀ a l ha, Item.comment a l ha ∈ b.items → Text.Plain a ∧ Text.Plain l
  runs : ∀ p, Item.run p ∈ b.items → p.Proper

def status (b : Bench c) (name : Name) : Status :=
  ((b.runs.reverse.find? (·.options.lmOptN = name)).map Run.status).getD .missing

variable {b : Bench c}

theorem mem_runs : r ∈ b.runs ↔ ∃ p, Item.run p ∈ b.items ∧ p.run = r := by
  simp only [runs, List.mem_filterMap]
  constructor
  · rintro ⟨item, hitem, h⟩
    cases item with
    | comment => cases h
    | run p => exact ⟨p, hitem, Option.some.inj h⟩
  · rintro ⟨p, hp, rfl⟩
    exact ⟨.run p, hp, rfl⟩

theorem forall_rows {P : Row → Prop}
    (hheader : ∀ row ∈ b.headers.map fun (key, value) ↦ .other (printHeader key value), P row)
    (hcomment : ∀ a l ha, Item.comment a l ha ∈ b.items → P (.other (a ++ ' ' :: l)))
    (hrun : ∀ p, Item.run p ∈ b.items → ∀ row ∈ p.rows, P row) : ∀ row ∈ b.rows, P row := by
  refine List.forall_mem_append.mpr ⟨hheader, fun row hrow ↦ ?_⟩
  obtain ⟨item, hitem, hrow⟩ := List.mem_flatMap.mp hrow
  cases item with
  | comment a l ha => exact List.mem_singleton.mp hrow ▸ hcomment a l ha hitem
  | run p => exact hrun p hitem row hrow

theorem Proper.sound (hb : b.Proper) : ∀ row ∈ b.rows, row.Sound :=
  forall_rows (silent_header b).sound
    (fun _ _ ha _ ↦ (silent_comment ha _).sound _ List.mem_cons_self)
    fun p hp ↦ (hb.runs p hp).sound

theorem Proper.proper (hb : b.Proper) (hname : name ∉ strayWords) :
    ∀ row ∈ b.rows, row.Proper name :=
  forall_rows (silent_header b).proper
    (fun _ _ ha _ ↦ (silent_comment ha _).proper _ List.mem_cons_self)
    fun p hp ↦ (hb.runs p hp).proper hname

theorem Proper.plain (hb : b.Proper) (hc : Text.Plain c.nan) : PlainRows b.rows := by
  refine forall_rows (plainRows_map fun h hh ↦ ?_) (fun a l ha hitem ↦ ?_)
    fun p hp ↦ (hb.runs p hp).plain.plainRows hc p.printed
  · obtain ⟨hkey, hvalue⟩ := hb.headers h hh
    have htake : Text.Plain (h.2.take 50) := fun hn ↦ hvalue (List.mem_of_mem_take hn)
    simp [printHeader, line_other, hkey, htake]
  · obtain ⟨ha', hl⟩ := hb.comments a l ha hitem
    simp [line_other, ha', hl]

theorem Proper.lines_text (hb : b.Proper) (hc : Text.Plain c.nan) :
    lines b.text = b.rows.map Row.line :=
  lines_unlines (List.forall_mem_map.mpr (hb.plain hc))

theorem Proper.mem_heard (hb : b.Proper) (n : Name) :
    n ∈ heard b.rows ↔ ∃ r ∈ b.runs, n = r.options.lmOptN ∨ n ∈ r.strays := by
  rw [rows, heard_append, (silent_header b).heard, List.nil_append]
  simp only [heard, List.mem_filterMap, List.mem_flatMap]
  constructor
  · rintro ⟨row, ⟨item, hitem, hrow⟩, hn⟩
    cases item with
    | comment a l ha =>
      rw [(silent_comment ha l row hrow).2] at hn
      cases hn
    | run p =>
      have h := ((hb.runs p hitem).mem_heard n).mp (List.mem_filterMap.mpr ⟨row, hrow, hn⟩)
      exact ⟨p.run, mem_runs.mpr ⟨p, hitem, rfl⟩, h⟩
  · rintro ⟨r, hr, h⟩
    obtain ⟨p, hp, rfl⟩ := mem_runs.mp hr
    obtain ⟨row, hrow, hn⟩ := List.mem_filterMap.mp (((hb.runs p hp).mem_heard n).mpr h)
    exact ⟨row, ⟨.run p, hp, hrow⟩, hn⟩

theorem lastRow_items (items : List (Item c)) (name : Name) :
    (lastRow (items.flatMap Item.rows) name).map Row.status =
      ((Bench.runs ⟨[], items⟩).reverse.find? (·.options.lmOptN = name)).map Run.status := by
  induction items with
  | nil => rfl
  | cons item items ih =>
    rw [List.flatMap_cons, lastRow_append, Option.map_or, ih]
    cases item with
    | comment a l ha =>
      rw [Item.rows, (silent_comment ha l).others.lastRow, Option.map_none, Option.or_none]
      rfl
    | run p =>
      have hruns : Bench.runs ⟨[], .run p :: items⟩ = p.run :: Bench.runs ⟨[], items⟩ := rfl
      rw [Item.rows, p.lastRow, hruns, List.reverse_cons, List.find?_append, Option.map_or]
      congr 1
      by_cases h : p.run.options.lmOptN = name <;> simp [h]

/-- What the table takes for the status of a benchmark is the one of its last run. -/
theorem status_rows (b : Bench c) (name : Name) : Multiview.status b.rows name = b.status name := by
  have hlast : Multiview.lastRow b.rows name = Multiview.lastRow (b.items.flatMap Item.rows) name := by
    rw [rows, lastRow_append, (silent_header b).others.lastRow, Option.or_none]
  rw [Multiview.status, hlast, lastRow_items]
  rfl

end Bench

section Table

variable {benches : Name → Bench c} {reference : Name} {others : List Name}

theorem multiview_congr {contents contents' : Name → List (List Char)} {argv : List Name}
    (h : ∀ file ∈ argv, contents file = contents' file) :
    multiview contents argv = multiview contents' argv := by
  have hread : readFiles contents argv = readFiles contents' argv :=
    List.foldl_ext _ _ _ fun s file hfile ↦ by rw [h file hfile]
  rw [multiview, multiview, hread]

/-- The table made of the outputs of the bench script has a row for each benchmark, in order,
with the statuses of its last runs. It has others for the lines that look like rows: a warning,
a run without samples, and samples beyond the histogram. -/
theorem bench_table (hc : Text.Plain c.nan)
    (h : ∀ file ∈ reference :: others, (benches file).Proper) :
    ∃ table, multiview (fun file ↦ lines (benches file).text) (reference :: others) = some table ∧
      Sorted (table.map (·.name)) ∧ (table.map (·.name)).Nodup ∧
      (∀ n, n ∈ table.map (·.name) ↔ ∃ file ∈ reference :: others, ∃ r ∈ (benches file).runs,
        n = r.options.lmOptN ∨ n ∈ r.strays) ∧
      (∀ file name, Multiview.status (benches file).rows name = (benches file).status name) ∧
      ∀ row ∈ table, IsName row.name → row.name ∉ strayWords →
        ((benches reference).status row.name).Regular →
        row.Shows (fun file ↦ (benches file).rows) reference others := by
  rw [multiview_congr fun file hfile ↦ (h file hfile).lines_text hc]
  have hsound : ∀ file ∈ reference :: others, ∀ row ∈ (benches file).rows, row.Sound :=
    fun file hfile ↦ (h file hfile).sound
  obtain ⟨table, htable⟩ := multiview_of_sound hsound
  have htells := readFiles_tells (fun file ↦ (benches file).rows.map Row.line) (reference :: others)
  obtain ⟨hnames, hrows⟩ := rows_of_mapM htable
  have hperm := hnames ▸ (sort_spec _).1
  refine ⟨table, htable, hnames ▸ (sort_spec _).2, hperm.nodup_iff.mpr htells.consistent.nodup,
    fun n ↦ ?_, fun file ↦ (benches file).status_rows, fun row hrow hname hlisted hregular ↦ ?_⟩
  · rw [hperm.mem_iff, htells.listed]
    refine exists_congr fun file ↦ and_congr_right fun hfile ↦ ?_
    rw [← (h file hfile).mem_heard, heard, List.mem_filterMap]
    simp only [List.mem_map, exists_exists_and_eq_and]
  · obtain ⟨row', hrow', hshows⟩ := htells.printRow hname fun file hfile ↦
      (h file hfile).proper hlisted
    obtain rfl : row = row' := Option.some.inj ((hrows row hrow).symm.trans hrow')
    exact hshows (by rwa [(benches reference).status_rows])

end Table

def warned : Run where
  options := ⟨true, true, false, false, "getpid".toList, 2, false, 1⟩
  argv := []
  lmHeader := []
  benchmarkResult := []
  outcome := .failed ⟨2, "no such file".toList, "x.c".toList, 7⟩ []

theorem bench_table_one :
    let c : Doubles := ⟨id, "nan".toList⟩
    let b : Bench c := ⟨[("OS".toList, "Linux".toList)], [.run ⟨warned, _, rfl⟩]⟩
    ∃ table, multiview (fun _ ↦ lines b.text) ["a".toList] = some table ∧
      "getpid".toList ∈ table.map (·.name) ∧ "warning:".toList ∈ table.map (·.name) := by
  intro c b
  have hrows : ∀ row ∈ [Row.err "getpid".toList 2 "no such file".toList "x.c".toList 7],
      ¬ contains "errors".toList row.line := List.forall_mem_singleton.mpr (by decide +kernel)
  have hproper : b.Proper := by
    refine ⟨List.forall_mem_singleton.mpr (by decide), fun a l ha hmem ↦ ?_, fun p hmem ↦ ?_⟩
    · cases List.mem_singleton.mp hmem
    · cases List.mem_singleton.mp hmem
      refine ⟨⟨by decide, List.forall_mem_nil _, by decide, by decide, fun e l he ↦ ?_⟩,
        ⟨by decide, by decide⟩, by decide, List.forall_mem_cons.mpr ⟨fun hn ↦ absurd rfl hn,
          fun row hrow _ ↦ hrows row hrow⟩⟩
      cases he
      exact List.forall_mem_singleton.mpr (by decide)
  obtain ⟨table, htable, -, -, hlisted, -⟩ := @bench_table c (fun _ ↦ b) "a".toList []
    (by decide) (List.forall_mem_singleton.mpr hproper)
  refine ⟨table, htable, (hlisted _).mpr ?_, (hlisted _).mpr ?_⟩
  · exact ⟨_, List.mem_cons_self, warned, List.mem_cons_self, .inl rfl⟩
  · exact ⟨_, List.mem_cons_self, warned, List.mem_cons_self, .inr (by decide)⟩

end LibMicro.Output
