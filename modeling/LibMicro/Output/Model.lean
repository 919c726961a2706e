import LibMicro.Multiview.Status
import LibMicro.Stats.Model

namespace LibMicro.Output

open Text Decimal Multiview
open Stats hiding Row

structure Options where
  lmOpt1 : Bool
  lmOptH : Bool
  lmOptL : Bool
  lmOptM : Bool
  lmOptN : Name
  lmOptP : ℤ
  lmOptS : Bool
  lmOptT : ℤ

namespace Options

def overrides (o : Options) : Bool := o.lmOpt1 ∧ o.lmOptP > 1

def processes (o : Options) : ℤ := if o.overrides then 1 else o.lmOptP

end Options

/-- What the C library does with doubles that are not rational. -/
structure Doubles where
  sqrt : ℚ → ℚ
  nan : List Char

namespace Doubles

def text (c : Doubles) (x : Option ℚ) : List Char :=
  padLeft 12 ((x.map (fixed 5)).getD c.nan)

end Doubles

def warning : Row := .other "warning: -1 overrides -P".toList

def argumentLine (argv : List (List Char)) : Row :=
  .other ('#' :: ' ' :: argv.flatMap (· ++ [' ']))

def headerLine (lmHeader : List Char) : Row :=
  .other (padLeft 12 [] ++ ' ' :: (padLeft 3 "prc".toList ++ ' ' :: (padLeft 3 "thr".toList ++
    ' ' :: (padLeft 12 "usecs/call".toList ++ ' ' :: (padLeft 12 "samples".toList ++
      ' ' :: lmHeader)))))

def statsLine (label : String) (number : List Char) : Row :=
  .other ('#' :: (padLeft 23 label.toList ++ ' ' :: number))

def statsHead : Row := .other ("# STATISTICS         ".toList ++ padLeft 12 "usecs/call".toList)

def bare : Row := .other ['#']

def histoLine (r : Stats.Row) : Row :=
  .other ('#' :: (List.replicate 7 ' ' ++ (padLeft 12 (integer r.count) ++ ' ' ::
    (padLeft 12 ((r.label.map (fixed 5)).getD "> 95%".toList) ++ ' ' :: '|' :: (r.bar ++
      (r.mean.map fun x ↦ padLeft 12 (fixed 5 x)).getD (padLeft 12 ['-']))))))

def totalLine (label : String) (number : List Char) : Row :=
  .other ('#' :: (List.replicate 7 ' ' ++ (padLeft 12 label.toList ++ ' ' :: number)))

/-- The lines of `print_histo`. It complains of a bucket before it prints them. -/
def histoLines (c : Doubles) (r : Report) : List Row :=
  .other ('#' :: '\t' :: (padLeft 12 "counts".toList ++ ' ' :: (padLeft 12 "usecs/call".toList ++
    ' ' :: (padLeft 32 [] ++ ' ' :: padLeft 12 "means".toList)))) ::
  (List.replicate r.panics (.other "panic!".toList) ++ r.rows.map histoLine ++
    [bare, histoLine r.beyond, bare, totalLine "mean of 95%" (c.text r.m95),
      totalLine "95th %ile" (c.text (some r.p95))])

/-- The rest of a run that `print_stats` reads: the times of the barrier, in nanoseconds, and
`nsecs_overhead`. -/
structure Clock where
  baStarttime : ℤ
  baEndtime : ℤ
  nsecsOverhead : ℤ

def statsLines (c : Doubles) (clock : Clock) (samples : ℕ) : Option (StatsT × Report) → List Row
  | none => [bare, statsHead,
      .other "zero samples".toList]
  | some (raw, r) =>
    [bare, statsHead,
      statsLine "min" (c.text (some raw.stMin)),
      statsLine "max" (c.text (some raw.stMax)),
      statsLine "range" (c.text (some raw.stRange)),
      statsLine "95%" (c.text (some raw.stP95)),
      statsLine "99%" (c.text (some raw.stP99)),
      statsLine "mean" (c.text raw.stMean),
      statsLine "median" (c.text (some raw.stMedian)),
      statsLine "stddev" (c.text (raw.stVariance.map c.sqrt)),
      bare,
      statsLine "elasped time" (c.text (some ((clock.baEndtime - clock.baStarttime) / 10 ^ 9))),
      statsLine "number of samples" (padLeft 12 (integer samples)),
      statsLine "getnsecs overhead" (padLeft 12 (integer clock.nsecsOverhead)),
      bare, .other "# DISTRIBUTION".toList] ++ histoLines c r

structure Error where
  errnum : ℤ
  strerror : List Char
  file : List Char
  line : ℤ

/-- How the workers have ended: with the samples in nanoseconds, or with calls of `lm_err`. -/
inductive Outcome
  | finished (samples : List ℚ) (clock : Clock)
  | failed (error : Error) (others : List Error)

structure Run where
  options : Options
  argv : List (List Char)
  lmHeader : List Char
  benchmarkResult : List Char
  outcome : Outcome

def zeros : StatsT := ⟨0, 0, 0, some 0, 0, some 0, 0, 0⟩

namespace Run

def value (r : Run) (raw : StatsT) : ℚ :=
  if r.options.lmOptM then raw.stMean.getD 0 else raw.stMedian

def result (r : Run) (samples : ℕ) (raw : StatsT) : Row :=
  .result r.options.lmOptN r.options.processes r.options.lmOptT (r.value raw) samples
    r.benchmarkResult

def rows (c : Doubles) (r : Run) : Except Fault (List Row) := do
  let o := r.options
  let first := if o.overrides then [warning] else []
  match r.outcome with
  | .failed error others =>
    return first ++ (error :: others).map fun e ↦ .err o.lmOptN e.errnum e.strerror e.file e.line
  | .finished samples clock =>
    let (data, raw) ← computeStats samples zeros
    let first := first ++ (if o.lmOptL then [argumentLine r.argv] else []) ++
      (if o.lmOptH then [] else [headerLine r.lmHeader]) ++ [r.result data.length raw]
    if o.lmOptS then
      let (_, stats) ← printStats data raw
      return first ++ statsLines c clock data.length stats
    else return first

end Run

def printHeader (key value : List Char) : List Char :=
  '!' :: (padRight 14 key ++ '\t' :: value.take 50)

structure Printed (c : Doubles) where
  run : Run
  rows : List Row
  printed : run.rows c = .ok rows

/-- A line of the list at the end of the bench script: `A` empty or a comment, which is
echoed, or the name of a benchmark that is run. -/
inductive Item (c : Doubles)
  | comment (a b : List Char) (ha : a = [] ∨ a.head? = some '#')
  | run (p : Printed c)

def Item.rows {c : Doubles} : Item c → List Row
  | comment a b _ => [.other (a ++ ' ' :: b)]
  | run p => p.rows

structure Bench (c : Doubles) where
  headers : List (List Char × List Char)
  items : List (Item c)

namespace Bench

variable {c : Doubles}

def rows (b : Bench c) : List Row :=
  (b.headers.map fun (key, value) ↦ .other (printHeader key value)) ++ b.items.flatMap Item.rows

def text (b : Bench c) : List Char := unlines (b.rows.map Row.line)

def runs (b : Bench c) : List Run :=
  b.items.filterMap fun
    | .run p => some p.run
    | .comment .. => none

end Bench

end LibMicro.Output
