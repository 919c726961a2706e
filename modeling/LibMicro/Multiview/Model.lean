import Mathlib.Data.List.Infix
import Mathlib.Logic.Function.Basic
import LibMicro.Decimal
import LibMicro.Truncation

namespace LibMicro.Multiview

open Text Decimal Truncation

abbrev Name := List Char

def resultRow (lmOptN : Name) (lmOptP lmOptT : ℤ) (value : ℚ) (baSamples : ℤ)
    (benchmarkResult : List Char) : List Char :=
  padRight 12 lmOptN ++ ' ' :: (padLeft 3 (integer lmOptP) ++ ' ' :: (padLeft 3 (integer lmOptT) ++
    ' ' :: (padLeft 12 (fixed 5 value) ++ ' ' :: (padLeft 12 (integer baSamples) ++
      ' ' :: benchmarkResult))))

def lmErr (name : Name) (errnum : ℤ) (strerror file : List Char) (line : ℤ) : List Char :=
  name ++ ' ' :: ("ERROR".toList ++ ' ' :: (integer errnum ++ ' ' :: (strerror ++
    ' ' :: (file ++ ':' :: integer line))))

/-- A value of the script: not set, a number, or a field, which counts as a number
if it looks like one and else for the longest number that it starts with. -/
inductive Value
  | unset
  | num (x : ℚ)
  | field (l : List Char)
  deriving DecidableEq

namespace Value

def toNum : Value → ℚ
  | unset => 0
  | num x => x
  | field l => (numeric l).getD ((l.inits.reverse.findSome? numeric).getD 0)

/-- `v > 0`, of which `0` is a text where `v` is one. -/
def gtZero : Value → Bool
  | field l =>
    match numeric l with
    | some x => 0 < x
    | none => "0".toList < l
  | v => 0 < v.toNum

def ltZero : Value → Bool
  | field l =>
    match numeric l with
    | some x => x < 0
    | none => l < "0".toList
  | v => v.toNum < 0

end Value

/-- The variables of the script. `benchmark_count` is the length of `benchmarks`. -/
structure State where
  benchmarkNames : Name → ℕ
  benchmarks : List Name
  benchmarkData : Name × Name → Value

def State.start : State := ⟨fun _ ↦ 0, [], fun _ ↦ .unset⟩

def contains (word line : List Char) : Bool := word <:+: line

/-- `[a-zA-z_]`, where the second range goes on past the capitals. -/
def startsName (c : Char) : Bool := ('a' ≤ c ∧ c ≤ 'z') ∨ ('A' ≤ c ∧ c ≤ 'z') ∨ c = '_'

/-- Only these lines are rows. The rule for headers stores nothing about benchmarks. -/
def isRow (line : List Char) : Bool :=
  line.head? ≠ some '#' ∧ ¬ contains "errors".toList line ∧ line.head? ≠ some '!' ∧
    line.head?.any startsName

def State.register (s : State) (name : Name) : State :=
  if s.benchmarkNames name = 0 then
    { s with
      benchmarkNames := Function.update s.benchmarkNames name (s.benchmarks.length + 1)
      benchmarks := s.benchmarks ++ [name] }
  else s

def fieldValue (line : List Char) (i : ℕ) : Value :=
  match (fields line)[i - 1]? with
  | some l => .field l
  | none => .unset

def record (filename : Name) (s : State) (line : List Char) : State :=
  if isRow line then
    let name := (fields line).headD []
    let s := s.register name
    let value := if fieldValue line 2 = .field "ERROR".toList then .num (-1) else fieldValue line 4
    { s with benchmarkData := Function.update s.benchmarkData (name, filename) value }
  else s

/-- The inner loop from the name `a` on, which is exchanged as long as it is greater. -/
def exchangeFrom (a : Name) : List Name → List Name
  | [] => [a]
  | b :: l => if a > b then b :: exchangeFrom a l else a :: exchangeFrom b l

def exchange : List Name → List Name
  | [] => []
  | a :: l => exchangeFrom a l

def sort (benchmarks : List Name) : List Name := exchange^[benchmarks.length - 1] benchmarks

def colorcalc (min value max mincolor maxcolor : ℚ) : ℚ :=
  (value - min) / (max - min) * (maxcolor - mincolor) + mincolor

def hex (x : ℚ) : List Char := leadingZeros 2 (Nat.toDigits 16 (trunc x).toNat)

def colormap (value : ℚ) : List Char :=
  let value := if value ≤ 1 / 5 then 1 / 5 else value
  let value := if value > 5 then 5 else value
  if value < 9 / 10 then
    '#' :: (hex (colorcalc (1 / 5) value (9 / 10) 0 255) ++
      hex (colorcalc (1 / 5) value (9 / 10) 153 255) ++
      hex (colorcalc (1 / 5) value (9 / 10) 0 255))
  else if value < 11 / 10 then "#ffffff".toList
  else
    '#' :: (hex 255 ++ hex (colorcalc (11 / 10) value 5 255 0) ++
      hex (colorcalc (11 / 10) value 5 255 0))

def percentage (factor : ℚ) : ℚ :=
  if factor > 1 then -(factor * 100 - 100) else 100 / factor - 100

inductive Cell
  | value (a : ℚ)
  | error
  | missing
  | notComputed
  | compared (bgcolor : List Char) (b percentage : ℚ)
  | errors
  | missingPadded
  deriving DecidableEq

def Cell.text : Cell → List Char
  | value a => fixed 6 a
  | error => "ERROR".toList
  | missing => "missing".toList
  | notComputed => "not computed".toList
  | compared _ b percentage =>
    padLeft 11 (fixed 5 b) ++ '[' :: (padLeft 7
      ((if percentage < 0 then [] else ['+']) ++ fixed 1 percentage) ++ "%]".toList)
  | errors => "ERRORS".toList
  | missingPadded => padLeft 25 "missing".toList

/-- The cell of a file that is compared, or `none` where the script stops at a
division by zero. -/
def compareCell (a b : Value) : Option Cell :=
  if b.gtZero then
    if a.toNum = 0 then none
    else
      let factor := b.toNum / a.toNum
      if factor ≤ 1 ∧ factor = 0 then none
      else some (.compared (colormap factor) b.toNum (percentage factor))
  else if b.ltZero then some .errors
  else some .missingPadded

structure TableRow where
  name : Name
  reference : Cell
  others : List Cell
  deriving DecidableEq

def TableRow.cells (row : TableRow) : List Cell := row.reference :: row.others

def printRow (s : State) (argv : List Name) (name : Name) : Option TableRow := do
  let a := s.benchmarkData (name, argv.headD [])
  if a.gtZero then
    let others ← argv.tail.mapM fun file ↦ compareCell a (s.benchmarkData (name, file))
    return ⟨name, .value a.toNum, others⟩
  else
    let reference := if a.ltZero then .error else .missing
    return ⟨name, reference, argv.tail.map fun _ ↦ .notComputed⟩

def readFiles (contents : Name → List (List Char)) (argv : List Name) : State :=
  argv.foldl (fun s file ↦ (contents file).foldl (record file) s) .start

def multiview (contents : Name → List (List Char)) (argv : List Name) : Option (List TableRow) :=
  let s := readFiles contents argv
  (sort s.benchmarks).mapM (printRow s argv)

end LibMicro.Multiview
