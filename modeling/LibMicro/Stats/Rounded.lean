import LibMicro.Stats.Model

/-! The same functions in doubles. The result of every operation is rounded by
`rd`, as is an integer where it becomes a double; a conversion to an integer only
cuts off. No value gets so large or so small that the exponent would not do. -/

namespace LibMicro.Stats.Rounded

open Truncation

variable (rd : ℚ → ℚ)

def fdiv (a b : ℚ) : Option ℚ := if b = 0 then none else some (rd (a / b))

def total (data : List ℚ) : ℚ := data.foldl (fun mean x ↦ rd (mean + x)) 0

def findMin (data : List ℚ) : ℚ :=
  data.foldl (fun stMin x ↦ if x < stMin then x else stMin) (rd (10 ^ 99))

def deviations (mean : ℚ) (data : List ℚ) : ℚ :=
  data.foldl (fun std x ↦ rd (std + rd (rd (x - mean) * rd (x - mean)))) 0

def crunchStats (data : List ℚ) : Except Fault (List ℚ × StatsT) := do
  let count ← int32 data.length
  let mean := fdiv rd (total rd data) count
  let dupdata ← sortedCopy data count
  let stMedian ← index dupdata (count / 2)
  let stP95 ← index dupdata ((← int32 (count * 95)) / 100)
  let stP99 ← index dupdata ((← int32 (count * 99)) / 100)
  assert (findMin rd data ≤ stP95)
  assert (stP95 ≤ stP99)
  assert (stP99 ≤ findMax data)
  let stats : StatsT :=
    { stMin := findMin rd data
      stMax := findMax data
      stRange := rd (findMax data - findMin rd data)
      stMean := mean
      stMedian := stMedian
      stVariance := mean.bind fun mean ↦ fdiv rd (deviations rd mean data) (count - 1)
      stP95 := stP95
      stP99 := stP99 }
  return (data, stats)

def computeStats (data : List ℚ) (raw : StatsT) : Except Fault (List ℚ × StatsT) :=
  let data := data.map fun x ↦ rd (x / 1000)
  if data.length > 0 then crunchStats rd data else .ok (data, raw)

def add (h : HistoT) (x : ℚ) : HistoT := ⟨rd (h.sum + x), h.count + 1⟩

def scaleDown : ℕ → ℚ → ℕ → ℚ × ℕ
  | 0, x, i => (x, i)
  | fuel + 1, x, i => if 10 ≤ x then scaleDown fuel (rd (x / 10)) (i + 1) else (x, i)

def width (min : ℤ) (p95 : ℚ) : ℤ :=
  let r95 := rd (rd (p95 - rd min) + 1)
  let x := rd (r95 / (histosize - 1))
  let (x, i) := scaleDown rd ⌊x⌋₊ x 0
  scaleUp i (trunc (rd (x + rd (9999999999 / 10000000000))))

def findScale (d p95 : ℚ) : Except Fault Scale :=
  let min := trunc (rd (d + rd (1 / 1000000)))
  let y := width rd min p95
  if y = 0 then .error .divide
  else
    let min := min.tdiv y * y
    let scale := y * (histosize - 1)
    .ok ⟨y, min, if scale < histosize - 1 then histosize - 1 else scale⟩

def quotient (s : Scale) (x : ℚ) : ℤ :=
  trunc (rd (rd ((histosize - 1) * rd (x - rd s.min)) / rd s.scale))

def panics (s : Scale) (x : ℚ) : Bool := quotient rd s x ≥ histosize

def bucket (s : Scale) (x : ℚ) : ℤ := if panics rd s x then histosize - 1 else quotient rd s x

def label (s : Scale) (i : ℤ) : ℚ := rd (rd s.min + rd (rd (rd s.scale * i) / (histosize - 1)))

def populate (s : Scale) (l : Loop) (x : ℚ) : Loop :=
  let j := bucket rd s x
  { histo := Function.update l.histo j (add rd (l.histo j) x)
    sum := rd (l.sum + x)
    count := l.count + 1
    panics := if panics rd s x then l.panics + 1 else l.panics
    used := l.used ++ [j] }

def printRow (label : Option ℚ) (h : HistoT) (maxcount : ℤ) : Except Fault Row := do
  let bar ← printBar h.count maxcount
  return ⟨h.count, label, bar, if h.count > 0 then some (rd (h.sum / h.count)) else none⟩

def fillHisto (data : List ℚ) : Except Fault Filled := do
  let n ← int32 data.length
  let data := qsort data
  let d ← index data 0
  let i95 := (← int32 (n * 95)) / 100
  let p95 ← index data i95
  let s ← findScale rd d p95
  return ⟨data, i95, p95, s, (data.take i95).foldl (populate rd s) .start⟩

def printHisto (data : List ℚ) : Except Fault (List ℚ × Report) := do
  let f ← fillHisto rd data
  let m95 := fdiv rd f.loop.sum f.loop.count
  let (last, maxcount) := findLargest f.loop.histo
  let rows ← (List.range (last + 1)).mapM fun i : ℕ ↦
    printRow rd (some (label rd f.scale i)) (f.loop.histo i) maxcount
  let rest := (f.data.drop f.i95).foldl (add rd) ⟨0, 0⟩
  let beyond ← printRow rd none rest maxcount
  return (f.data, ⟨f.loop.panics, rows, beyond, m95, f.p95⟩)

def printStats (data : List ℚ) (raw : StatsT) :
    Except Fault (List ℚ × Option (StatsT × Report)) :=
  if data.length = 0 then .ok (data, none)
  else (printHisto rd data).map fun (data, r) ↦ (data, some (raw, r))

def report (data : List ℚ) (raw : StatsT) : Except Fault (Option (StatsT × Report)) := do
  let (data, raw) ← computeStats rd data raw
  let (_, r) ← printStats rd data raw
  return r

/-! Without rounding they are the functions over exact numbers. -/

theorem scaleDown_id (fuel : ℕ) (x : ℚ) (i : ℕ) :
    scaleDown id fuel x i = Stats.scaleDown fuel x i := by
  induction fuel generalizing x i with
  | zero => rfl
  | succ fuel ih =>
    rw [scaleDown, Stats.scaleDown, ih]
    rfl

theorem width_id : width id = Stats.width := by
  funext min p95
  simp only [width, scaleDown_id]
  rfl

theorem findScale_id : findScale id = Stats.findScale := by
  funext d p95
  simp only [findScale, width_id]
  rfl

theorem fillHisto_id : fillHisto id = Stats.fillHisto := by
  funext data
  simp only [fillHisto, findScale_id]
  rfl

theorem printHisto_id : printHisto id = Stats.printHisto := by
  funext data
  simp only [printHisto, fillHisto_id]
  rfl

theorem crunchStats_id : crunchStats id = Stats.crunchStats := rfl

theorem report_id : report id = Stats.report := by
  funext data raw
  simp only [report, printStats, printHisto_id]
  rfl

end LibMicro.Stats.Rounded
