import Mathlib.Data.List.Sort
import Mathlib.Logic.Function.Basic
import LibMicro.Truncation
import LibMicro.Barrier.Model

namespace LibMicro.Stats

open Truncation Barrier

/-- What stops the program or leaves it without a meaning. -/
inductive Fault
  | overflow
  | divide
  | bounds
  | assertion
  deriving DecidableEq, Repr

def int32 (n : ℕ) : Except Fault ℕ := if n < 2 ^ 31 then .ok n else .error .overflow

def index (a : List ℚ) (i : ℕ) : Except Fault ℚ :=
  match a[i]? with
  | some x => .ok x
  | none => .error .bounds

/-- The quotient of two doubles, which by zero is no number. -/
def fdiv (a b : ℚ) : Option ℚ := if b = 0 then none else some (a / b)

def assert (p : Prop) [Decidable p] : Except Fault Unit := if p then .ok () else .error .assertion

def doublecmp (a b : ℚ) : ℤ := if a > b then 1 else if a < b then -1 else 0

def qsort (data : List ℚ) : List ℚ := data.insertionSort fun a b ↦ doublecmp a b ≤ 0

/-- `stats_t`. The standard deviation is kept as its square; it and the mean are
quotients. -/
structure StatsT where
  stMin : ℚ
  stMax : ℚ
  stRange : ℚ
  stMean : Option ℚ
  stMedian : ℚ
  stVariance : Option ℚ
  stP95 : ℚ
  stP99 : ℚ
  deriving DecidableEq

/-! The loops of `crunch_stats`, one definition for each variable. -/

def total (data : List ℚ) : ℚ := data.foldl (fun mean x ↦ mean + x) 0

def findMax (data : List ℚ) : ℚ := data.foldl (fun stMax x ↦ if x > stMax then x else stMax) (-1)

def findMin (data : List ℚ) : ℚ :=
  data.foldl (fun stMin x ↦ if x < stMin then x else stMin) (10 ^ 99)

def deviations (mean : ℚ) (data : List ℚ) : ℚ :=
  data.foldl (fun std x ↦ std + (x - mean) * (x - mean)) 0

/-- The array after `memcpy` into `malloc (bytes)`, where `bytes` is an `int`, and
`qsort`. A copy that is cut off is too short for the sort. -/
def sortedCopy (data : List ℚ) (count : ℕ) : Except Fault (List ℚ) :=
  if Int.bmod (8 * count) (2 ^ 32) = 8 * count then .ok (qsort data) else .error .bounds

/-- The array itself is handed back as the function leaves it. -/
def crunchStats (data : List ℚ) : Except Fault (List ℚ × StatsT) := do
  let count ← int32 data.length
  let mean := fdiv (total data) count
  let dupdata ← sortedCopy data count
  let stMedian ← index dupdata (count / 2)
  let stP95 ← index dupdata ((← int32 (count * 95)) / 100)
  let stP99 ← index dupdata ((← int32 (count * 99)) / 100)
  assert (findMin data ≤ stP95)
  assert (stP95 ≤ stP99)
  assert (stP99 ≤ findMax data)
  let stats : StatsT :=
    { stMin := findMin data
      stMax := findMax data
      stRange := findMax data - findMin data
      stMean := mean
      stMedian := stMedian
      stVariance := mean.bind fun mean ↦ fdiv (deviations mean data) (count - 1)
      stP95 := stP95
      stP99 := stP99 }
  return (data, stats)

/-- The `ba_samples` doubles from `ba_data` on. -/
def samples {ι : Type} (b : BarrierT ι) : List ℚ := (List.range b.baSamples.toNat).map b.baData

/-- The samples become microseconds; `raw` is what `ba_raw` held before. -/
def computeStats (data : List ℚ) (raw : StatsT) : Except Fault (List ℚ × StatsT) :=
  let data := data.map (· / 1000)
  if data.length > 0 then crunchStats data else .ok (data, raw)

def histosize : ℕ := 32

structure HistoT where
  sum : ℚ
  count : ℤ
  deriving DecidableEq

def HistoT.add (h : HistoT) (x : ℚ) : HistoT := ⟨h.sum + x, h.count + 1⟩

def scaleDown : ℕ → ℚ → ℕ → ℚ × ℕ
  | 0, x, i => (x, i)
  | fuel + 1, x, i => if 10 ≤ x then scaleDown fuel (x / 10) (i + 1) else (x, i)

def scaleUp : ℕ → ℤ → ℤ
  | 0, y => y
  | i + 1, y => scaleUp i (y * 10)

structure Scale where
  y : ℤ
  min : ℤ
  scale : ℤ
  deriving DecidableEq

/-- The width of the buckets for the range from `d` to `p95`. -/
def width (min : ℤ) (p95 : ℚ) : ℤ :=
  let r95 := p95 - min + 1
  let x := r95 / (histosize - 1)
  let (x, i) := scaleDown ⌊x⌋₊ x 0
  scaleUp i (trunc (x + 9999999999 / 10000000000))

def findScale (d p95 : ℚ) : Except Fault Scale :=
  let min := trunc (d + 1 / 1000000)
  let y := width min p95
  if y = 0 then .error .divide
  else
    let min := min.tdiv y * y
    let scale := y * (histosize - 1)
    .ok ⟨y, min, if scale < histosize - 1 then histosize - 1 else scale⟩

namespace Scale

def quotient (s : Scale) (x : ℚ) : ℤ := trunc ((histosize - 1) * (x - s.min) / s.scale)

def panics (s : Scale) (x : ℚ) : Bool := s.quotient x ≥ histosize

def bucket (s : Scale) (x : ℚ) : ℤ := if s.panics x then histosize - 1 else s.quotient x

def label (s : Scale) (i : ℤ) : ℚ := s.min + s.scale * i / (histosize - 1)

end Scale

/-- The histogram is `histo 0` to `histo 31`, and the rest is other memory. The
indices that are used are kept as history. -/
structure Loop where
  histo : ℤ → HistoT
  sum : ℚ
  count : ℤ
  panics : ℕ
  used : List ℤ

def Loop.start : Loop := ⟨fun _ ↦ ⟨0, 0⟩, 0, 0, 0, []⟩

def populate (s : Scale) (l : Loop) (x : ℚ) : Loop :=
  let j := s.bucket x
  { histo := Function.update l.histo j ((l.histo j).add x)
    sum := l.sum + x
    count := l.count + 1
    panics := if s.panics x then l.panics + 1 else l.panics
    used := l.used ++ [j] }

def larger (histo : ℤ → HistoT) (best : ℕ × ℤ) (i : ℕ) : ℕ × ℤ :=
  if (histo i).count > 0 then
    (i, if (histo i).count > best.2 then (histo i).count else best.2)
  else best

def findLargest (histo : ℤ → HistoT) : ℕ × ℤ := (List.range histosize).foldl (larger histo) (0, 0)

/-- The 32 columns of a bar, and more if it is longer than `total`. -/
def bar (count total : ℤ) : List Char :=
  let stars := ((32 * count).tdiv total).toNat
  (if count ≠ 0 then '*' else ' ') :: List.replicate (stars - 1) '*' ++
    List.replicate (32 - max 1 stars) ' '

def printBar (count total : ℤ) : Except Fault (List Char) :=
  if total = 0 then .error .divide else .ok (bar count total)

structure Row where
  count : ℤ
  label : Option ℚ
  bar : List Char
  mean : Option ℚ
  deriving DecidableEq

def printRow (label : Option ℚ) (h : HistoT) (maxcount : ℤ) : Except Fault Row := do
  let bar ← printBar h.count maxcount
  return ⟨h.count, label, bar, if h.count > 0 then some (h.sum / h.count) else none⟩

structure Report where
  panics : ℕ
  rows : List Row
  beyond : Row
  m95 : Option ℚ
  p95 : ℚ
  deriving DecidableEq

/-- What `print_histo` has computed when it comes to print the buckets. -/
structure Filled where
  data : List ℚ
  i95 : ℕ
  p95 : ℚ
  scale : Scale
  loop : Loop

/-- The first part of `print_histo`. The array is sorted in place. -/
def fillHisto (data : List ℚ) : Except Fault Filled := do
  let n ← int32 data.length
  let data := qsort data
  let d ← index data 0
  let i95 := (← int32 (n * 95)) / 100
  let p95 ← index data i95
  let s ← findScale d p95
  return ⟨data, i95, p95, s, (data.take i95).foldl (populate s) .start⟩

def Filled.indices (f : Filled) : List ℤ :=
  f.loop.used ++ (List.range histosize).map Int.ofNat ++
    (List.range ((findLargest f.loop.histo).1 + 1)).map Int.ofNat

def printHisto (data : List ℚ) : Except Fault (List ℚ × Report) := do
  let f ← fillHisto data
  let m95 := fdiv f.loop.sum f.loop.count
  let (last, maxcount) := findLargest f.loop.histo
  let rows ← (List.range (last + 1)).mapM fun i : ℕ ↦
    printRow (some (f.scale.label i)) (f.loop.histo i) maxcount
  let rest := (f.data.drop f.i95).foldl HistoT.add ⟨0, 0⟩
  let beyond ← printRow none rest maxcount
  return (f.data, ⟨f.loop.panics, rows, beyond, m95, f.p95⟩)

def printStats (data : List ℚ) (raw : StatsT) :
    Except Fault (List ℚ × Option (StatsT × Report)) :=
  if data.length = 0 then .ok (data, none)
  else (printHisto data).map fun (data, r) ↦ (data, some (raw, r))

/-- What becomes of the samples in the end: the statistics and, with `-S`, the
histogram. -/
def report (data : List ℚ) (raw : StatsT) : Except Fault (Option (StatsT × Report)) := do
  let (data, raw) ← computeStats data raw
  let (_, r) ← printStats data raw
  return r

end LibMicro.Stats
