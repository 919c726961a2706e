import LibMicro.Tags
import LibMicro.Multiview.Colormap
import LibMicro.Multiview.Headers
import LibMicro.Multiview.Sort

namespace LibMicro.Multiview

open Text Decimal Tags

def pageHead : List Char := unlines <| List.map String.toList [
  "<!DOCTYPE html PUBLIC \"-//W3C//DTD XHTML 1.0 Transitional//EN\"",
  "\"http://www.w3.org/TR/xhtml1/DTD/xhtml1-transitional.dtd\">",
  "<html xmlns=\"http://www.w3.org/1999/xhtml\">",
  "<head>",
  "<meta http-equiv=\"content-type\" content=\"text/html; charset=ISO-8859-1\" />",
  "<meta name=\"author\" content=\"autogen\" />",
  "<title>multiview comparison</title>",
  "<style type=\"text/css\">",
  "body \x7b font-family: sans-serif; \x7d",
  "table \x7b border-collapse: collapse; \x7d",
  "td \x7b padding: 0.1em; border: 1px solid #ccc; text-align: right; \x7d",
  "td.header \x7b text-align: left; \x7d",
  "pre \x7b margin-top: 0em; margin-bottom: 0em; \x7d",
  "</style>",
  "</head>",
  "<body bgcolor=\"#ffffff\" link=\"#0000ee\" vlink=\"#cc0000\" alink=\"#0000ee\">",
  "<table border=\"1\" cellspacing=\"1\">",
  "<tbody>"]

def element (opening content name : List Char) : List Char :=
  '<' :: opening ++ ['>'] ++ content ++ ('<' :: '/' :: name ++ ['>'])

def headerCell (l : List Char) : List Char :=
  element "td class=\"header\"".toList l "td".toList ++ ['\n']

def printHeaderRow (row : Name × List (List Char)) : List Char :=
  "<tr>".toList ++ headerCell row.1 ++ row.2.flatMap headerCell ++ "</tr>\n".toList

def printTitles (argv : List Name) : List Char :=
  "<tr>\n".toList ++ "<th>BENCHMARK</th>\n".toList ++ "<th align=\"right\">USECS</th>\n".toList ++
    argv.tail.flatMap (fun _ ↦ "<th align=\"right\">USECS [percentage]</th>\n".toList) ++
    "</tr>\n".toList

def Cell.html (cell : Cell) : List Char :=
  match cell with
  | value _ => element "td".toList (element "pre".toList cell.text "pre".toList) "td".toList
  | compared bgcolor _ _ =>
    element ("td bgcolor=\"".toList ++ bgcolor ++ ['"'])
      (element "pre".toList cell.text "pre".toList) "td".toList
  | error | errors => element "td bgcolor=\"#ff0000\"".toList cell.text "td".toList
  | missing | notComputed | missingPadded => element "td".toList cell.text "td".toList

def Cell.isValue : Cell → Bool
  | value _ => true
  | _ => false

/-- A row of the table. The script goes on to the next one, before it closes this one, if there
is no value to compare with. -/
def TableRow.html (row : TableRow) : List Char :=
  "<tr>\n".toList ++ (element "td".toList row.name "td".toList ++ ['\n']) ++
    row.cells.flatMap (fun cell ↦ cell.html ++ ['\n']) ++
    (if row.reference.isValue then "</tr>\n".toList else [])

def footer : List Char := "</tbody></table></body></html>\n".toList

def beforeFooter (headers : List (Name × List (List Char))) (argv : List Name)
    (table : List TableRow) : List Char :=
  pageHead ++ headers.flatMap printHeaderRow ++ printTitles argv ++ table.flatMap TableRow.html

def page (contents : Name → List (List Char)) (argv : List Name) : Option (List Char) :=
  (multiview contents argv).map fun table ↦
    beforeFooter (headerRows (readHeaders contents argv) argv) argv table ++ footer

variable {w v l name : List Char} {a : List (List Char)} {argv : List Name}
  {contents : Name → List (List Char)}

theorem leaves_line (h : Leaves w a) : Leaves (w ++ ['\n']) a := by
  have hnewline : Leaves ['\n'] [] := by decide
  exact h.append hnewline

theorem leaves_element (hv : '>' ∉ v) (htag : tag v = some (.opening name)) (hname : '>' ∉ name)
    (h : Leaves w []) : Leaves (element v w name) [] :=
  ((leaves_opening hv htag).append h).close hname

theorem leaves_endRow (h : Leaves w ("tr".toList :: a)) : Leaves (w ++ "</tr>\n".toList) a := by
  have hrow := leaves_line (h.close (by decide))
  rwa [List.append_assoc] at hrow

theorem leaves_headerCell (h : '<' ∉ l) : Leaves (headerCell l) [] :=
  leaves_line (leaves_element (by decide) (by decide) (by decide) (leaves_text h))

theorem leaves_headerRow {row : Name × List (List Char)} (hname : '<' ∉ row.1)
    (hdata : ∀ l ∈ row.2, '<' ∉ l) : Leaves (printHeaderRow row) [] := by
  have hopening : Leaves "<tr>".toList ["tr".toList] := by decide
  have hcells := leaves_balanced fun l hl ↦ leaves_headerCell (hdata l hl)
  have hrow := (hopening.append (leaves_headerCell hname)).append hcells
  exact leaves_endRow hrow

theorem leaves_titles (argv : List Name) : Leaves (printTitles argv) [] := by
  have hfirst : Leaves ("<tr>\n".toList ++ "<th>BENCHMARK</th>\n".toList ++
      "<th align=\"right\">USECS</th>\n".toList) ["tr".toList] := by decide
  have htitle : Leaves "<th align=\"right\">USECS [percentage]</th>\n".toList [] := by decide
  have htitles := leaves_balanced fun (_ : Name) (_ : _ ∈ argv.tail) ↦ htitle
  exact leaves_endRow (hfirst.append htitles)

theorem text_clean (cell : Cell) : '<' ∉ cell.text := by
  have hfixed (d : ℕ) (x : ℚ) : '<' ∉ fixed d x := fun h ↦ by
    rcases mem_fixed h with h | h | h <;> cases h
  cases cell with
  | value x => exact hfixed 6 x
  | compared bgcolor x percentage =>
    change '<' ∉ padLeft 11 (fixed 5 x) ++ '[' :: (padLeft 7
      ((if percentage < 0 then [] else ['+']) ++ fixed 1 percentage) ++ "%]".toList)
    have hplus : '<' ∉ (if percentage < 0 then [] else ['+']) := by
      split_ifs <;> decide
    have hend : '<' ∉ "%]".toList := by decide
    simp only [List.mem_append, List.mem_cons, mem_padLeft (by decide : '<' ≠ ' '), hfixed, hplus,
      hend, or_false]
    decide
  | missingPadded =>
    change '<' ∉ padLeft 25 "missing".toList
    decide
  | error | missing | notComputed | errors => decide

def Cell.Colored : Cell → Prop
  | compared bgcolor _ _ => IsColor bgcolor
  | _ => True

theorem not_mem_color (h : IsColor l) {c : Char} (hc : c ≠ '#') (hhex : c.isHexDigit = false) :
    c ∉ l := by
  obtain ⟨w, rfl, -, hw⟩ := h
  rw [List.mem_cons, not_or]
  refine ⟨hc, fun hmem ↦ ?_⟩
  rw [hw c hmem] at hhex
  cases hhex

theorem tag_bgcolor (bgcolor : List Char) :
    tag ("td bgcolor=\"".toList ++ bgcolor ++ ['"']) = some (.opening "td".toList) := by
  have hlast : ("td bgcolor=\"".toList ++ bgcolor ++ ['"']).getLast? ≠ some '/' := by
    rw [List.getLast?_concat]
    decide
  exact tag_opening (by decide) hlast

theorem leaves_cell {cell : Cell} (h : cell.Colored) : Leaves cell.html [] := by
  have htext := leaves_text (text_clean cell)
  have hpre : Leaves (element "pre".toList cell.text "pre".toList) [] :=
    leaves_element (by decide) (by decide) (by decide) htext
  cases cell with
  | value => exact leaves_element (by decide) (by decide) (by decide) hpre
  | compared bgcolor x percentage =>
    refine leaves_element ?_ (tag_bgcolor bgcolor) (by decide) hpre
    have hcolor := not_mem_color h (c := '>') (by decide) (by decide)
    simp only [List.mem_append, hcolor]
    decide
  | error | missing | notComputed | errors | missingPadded =>
    exact leaves_element (by decide) (by decide) (by decide) htext

theorem leaves_row {row : TableRow} (hname : '<' ∉ row.name) (h : ∀ cell ∈ row.cells, cell.Colored) :
    Leaves row.html (if row.reference.isValue then [] else ["tr".toList]) := by
  have hopening : Leaves "<tr>\n".toList ["tr".toList] := by decide
  have hfirst : Leaves (element "td".toList row.name "td".toList ++ ['\n']) [] :=
    leaves_line (leaves_element (by decide) (by decide) (by decide) (leaves_text hname))
  have hcells := leaves_balanced fun cell hcell ↦ leaves_line (leaves_cell (h cell hcell))
  have hrow := (hopening.append hfirst).append hcells
  rw [TableRow.html]
  split_ifs
  · exact leaves_endRow hrow
  · exact hrow.append leaves_nil

theorem pageHead_leaves : Leaves pageHead
    ["tbody".toList, "table".toList, "body".toList, "html".toList] := by
  decide +kernel

/-- What is to be closed at the end of the page is what it starts with. -/
theorem footer_closes (n : ℕ) :
    remaining (List.replicate n "tr".toList ++
      ["tbody".toList, "table".toList, "body".toList, "html".toList]) (tags footer) = some [] ↔
        n = 0 := by
  have hfooter : tags footer = [.closing "tbody".toList, .closing "table".toList,
      .closing "body".toList, .closing "html".toList] := by decide
  rw [hfooter]
  cases n with
  | zero => exact iff_of_true (by decide) rfl
  | succ n =>
    refine iff_of_false ?_ (Nat.succ_ne_zero n)
    rw [List.replicate_succ, List.cons_append, remaining_cons]
    exact nofun

section Reading

variable {s : HeaderState} {line : List Char} {file : Name}

structure HeaderState.Clean (s : HeaderState) : Prop where
  headers : ∀ i, '<' ∉ s.headers i
  headerData : ∀ key, '<' ∉ s.headerData key

theorem HeaderState.Clean.register {data : List Char} (hs : s.Clean) (hname : '<' ∉ name)
    (hdata : '<' ∉ data) (file : Name) : (s.register file name data).Clean := by
  have hheaders := (Function.forall_update_iff s.headers fun _ l ↦ '<' ∉ l).mpr
    ⟨hname, fun i (_ : i ≠ name) ↦ hs.headers i⟩
  have hheaderData := (Function.forall_update_iff s.headerData fun _ l ↦ '<' ∉ l).mpr
    ⟨hdata, fun key (_ : key ≠ (name, file)) ↦ hs.headerData key⟩
  simp only [HeaderState.register]
  split_ifs
  · exact ⟨(Function.forall_update_iff _ fun _ l ↦ '<' ∉ l).mpr ⟨hname, fun i _ ↦ hheaders i⟩,
      hheaderData⟩
  · exact ⟨hheaders, hheaderData⟩

theorem HeaderState.Clean.recordHeader (hs : s.Clean) (hline : '<' ∉ line) (file : Name) :
    (recordHeader file s line).Clean := by
  unfold Multiview.recordHeader
  split_ifs
  · exact hs
  · have hname : '<' ∉ (line.takeWhile (· ≠ '\t')).drop 1 := fun h ↦
      hline ((List.takeWhile_sublist _).subset (List.mem_of_mem_drop h))
    exact hs.register hname (fun h ↦ hline (List.mem_of_mem_drop h)) file

theorem readHeaders_clean (h : ∀ file ∈ argv, ∀ line ∈ contents file, '<' ∉ line) :
    (readHeaders contents argv).Clean := by
  have hstart : HeaderState.start.Clean := ⟨fun _ ↦ List.not_mem_nil, fun _ ↦ List.not_mem_nil⟩
  refine List.foldlRecOn (motive := HeaderState.Clean) argv _ hstart ?_
  intro s hs file hfile
  refine List.foldlRecOn (motive := HeaderState.Clean) (contents file) _ hs ?_
  exact fun s hs line hline ↦ hs.recordHeader (h file hfile line hline) file

theorem clean_headerRows (hs : s.Clean) {row : Name × List (List Char)}
    (hrow : row ∈ headerRows s argv) : '<' ∉ row.1 ∧ ∀ l ∈ row.2, '<' ∉ l := by
  obtain ⟨i, -, rfl⟩ := List.mem_map.mp hrow
  refine ⟨hs.headers _, fun l hl h ↦ ?_⟩
  obtain ⟨file, -, rfl⟩ := List.mem_map.mp hl
  exact hs.headerData _ ((List.dropWhile_suffix _).subset h)

theorem clean_name (h : ∀ file ∈ argv, ∀ line ∈ contents file, '<' ∉ line)
    (hname : name ∈ (readFiles contents argv).benchmarks) : '<' ∉ name := by
  obtain ⟨file, hfile, line, hline, hrow⟩ :=
    ((readFiles_tells contents argv).listed name).mp hname
  intro hmem
  rw [rowName] at hrow
  split_ifs at hrow
  obtain rfl := Option.some.inj hrow
  cases hf : fields line with
  | nil =>
    rw [hf] at hmem
    cases hmem
  | cons w ws =>
    rw [hf] at hmem
    have hw : w ∈ fields line := hf ▸ List.mem_cons_self
    exact h file hfile line hline (mem_of_mem_fields hw hmem)

end Reading

theorem compareCell_colored {a b : Value} {cell : Cell} (h : compareCell a b = some cell) :
    cell.Colored := by
  simp only [compareCell] at h
  split_ifs at h
  · cases h
    rw [Cell.Colored, colormap_eq, channels_eq_scale]
    exact Color.isColor _
  · cases h
    trivial
  · cases h
    trivial

theorem of_mapM_eq_some {α β : Type} {f : α → Option β} {l : List α} {ys : List β}
    (h : l.mapM f = some ys) {y : β} (hy : y ∈ ys) : ∃ x ∈ l, f x = some y := by
  induction l generalizing ys with
  | nil =>
    cases h
    cases hy
  | cons x l ih =>
    rw [List.mapM_cons] at h
    obtain ⟨z, hz, h⟩ := Option.bind_eq_some_iff.mp h
    obtain ⟨zs, hzs, h⟩ := Option.bind_eq_some_iff.mp h
    cases h
    rcases List.mem_cons.mp hy with rfl | hy
    · exact ⟨x, List.mem_cons_self, hz⟩
    · obtain ⟨w, hw, hfw⟩ := ih hzs hy
      exact ⟨w, List.mem_cons_of_mem _ hw, hfw⟩

theorem printRow_cells {s : State} {row : TableRow} (h : printRow s argv name = some row) :
    row.reference.isValue = (s.benchmarkData (name, argv.headD [])).gtZero ∧
      ∀ cell ∈ row.cells, cell.Colored := by
  simp only [printRow] at h
  split_ifs at h with ha hlow
  · obtain ⟨others, hothers, h⟩ := Option.bind_eq_some_iff.mp h
    cases h
    refine ⟨ha.symm, List.forall_mem_cons.mpr ⟨trivial, fun cell hcell ↦ ?_⟩⟩
    obtain ⟨file, -, hfile⟩ := of_mapM_eq_some hothers hcell
    exact compareCell_colored hfile
  all_goals
    cases h
    refine ⟨((Bool.not_eq_true _).mp ha).symm, List.forall_mem_cons.mpr ⟨trivial, fun cell hcell ↦ ?_⟩⟩
    obtain ⟨file, -, rfl⟩ := List.mem_map.mp hcell
    trivial

/-- A row that has nothing to compare with is not closed. The page is well formed only if there
is none, that is, if the reference has a positive value for each benchmark of any file. -/
theorem page_wellNested (h : ∀ file ∈ argv, ∀ line ∈ contents file, '<' ∉ line) {table : List TableRow}
    (ht : multiview contents argv = some table) :
    ∃ text, page contents argv = some (text ++ footer) ∧
      Leaves text (List.replicate (table.countP fun row ↦ !row.reference.isValue) "tr".toList ++
        ["tbody".toList, "table".toList, "body".toList, "html".toList]) ∧
      (WellNested (tags (text ++ footer)) ↔ ∀ name ∈ (readFiles contents argv).benchmarks,
        ((readFiles contents argv).benchmarkData (name, argv.headD [])).gtZero) := by
  have hnames := (rows_of_mapM ht).1
  have hrows := (rows_of_mapM ht).2
  have hmem (n : Name) : n ∈ table.map (·.name) ↔ n ∈ (readFiles contents argv).benchmarks := by
    rw [hnames]
    exact (sort_spec _).1.mem_iff
  have hclean := readHeaders_clean h
  have hheaders : Leaves ((headerRows (readHeaders contents argv) argv).flatMap printHeaderRow) [] :=
    leaves_balanced fun row hrow ↦
      leaves_headerRow (clean_headerRows hclean hrow).1 (clean_headerRows hclean hrow).2
  have htable := leaves_flatMap fun row (hrow : row ∈ table) ↦
    leaves_row (clean_name h ((hmem _).mp (List.mem_map_of_mem hrow)))
      (printRow_cells (hrows row hrow)).2
  have hleaves : Leaves (beforeFooter _ argv table) _ :=
    ((pageHead_leaves.append hheaders).append (leaves_titles argv)).append htable
  refine ⟨_, congrArg (Option.map _) ht, hleaves, ?_⟩
  rw [WellNested, hleaves.remaining_append, List.nil_append, List.nil_append, footer_closes,
    List.countP_eq_zero]
  constructor
  · intro hall name hname
    obtain ⟨row, hrow, rfl⟩ := List.mem_map.mp ((hmem name).mpr hname)
    have hvalue := hall row hrow
    rwa [Bool.not_eq_true, Bool.not_eq_false', (printRow_cells (hrows row hrow)).1] at hvalue
  · intro hall row hrow
    rw [Bool.not_eq_true, Bool.not_eq_false', (printRow_cells (hrows row hrow)).1]
    exact hall _ ((hmem _).mp (List.mem_map_of_mem hrow))

/-- The page about one benchmark that has failed. -/
theorem page_wellNested_error :
    let contents : Name → List (List Char) := fun _ ↦ ["getpid ERROR 2".toList]
    ∃ text, page contents ["a".toList] = some (text ++ footer) ∧
      Leaves text ["tr".toList, "tbody".toList, "table".toList, "body".toList, "html".toList] := by
  intro contents
  have htable : multiview contents ["a".toList] = some [⟨"getpid".toList, .error, []⟩] := by
    decide +kernel
  obtain ⟨text, hpage, hleaves, -⟩ := @page_wellNested ["a".toList] contents
    (by decide) _ htable
  exact ⟨text, hpage, hleaves⟩

end LibMicro.Multiview
