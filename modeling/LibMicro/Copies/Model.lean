import LibMicro.Regions
import LibMicro.Sizes.Model

namespace LibMicro.Copies

open Regions Sizes

/-- An overflow, after which nothing is defined, and a failed `LM_CHK`. -/
inductive Stop
  | overflow
  | failed

/-- As a `size_t` an `int` below 0 is more than half of all addresses. -/
def valloc (size : ℤ) : Pointer := ⟨if 0 ≤ size then some size else none, 0⟩

def addLong (a b : ℤ) : Except Stop ℤ :=
  match longLong (a + b) with
  | some c => .ok c
  | none => .error .overflow

/-- After an overflow no call can be relied on, and after a failure there is none. -/
def Keeps {α : Type} (initworker : Except Stop α) (n : ℕ) (good : α → Prop) : Prop :=
  match initworker with
  | .ok ts => good ts
  | .error .overflow => n = 0
  | .error .failed => True

/-- The options of `memcpy` and `memmove`. -/
structure Copy.Options where
  opts : ℤ
  opta : ℤ
  optf : Bool
  optt : Bool

structure Copy.TsdT where
  tsSrc : Pointer
  tsDest : Pointer
  tsSrcsize : ℤ
  tsDestsize : ℤ

/-- The pointers that are passed on, the local variables at the end, and the `tsd`. -/
structure Copy.Call where
  source : Pointer
  destination : Pointer
  src : Pointer
  dest : Pointer
  ts : TsdT

namespace Copy

def srcsize (opt : Options) : Except Stop ℤ :=
  if opt.optf then .ok (64 * 1024 * 1024) else (addLong opt.opts opt.opta).map toInt

def destsize (opt : Options) : ℤ := if opt.optt then 64 * 1024 * 1024 else toInt opt.opts

def initworker (opt : Options) : Except Stop TsdT := do
  let size ← srcsize opt
  return ⟨(valloc size).add opt.opta, valloc (destsize opt), size, destsize opt⟩

/-- A local variable leaves the avoided area behind, or goes back to `first`. -/
def advance (opts bump : ℤ) (first : Pointer) (size : ℤ) (p : Pointer) : Pointer :=
  let p := p.add bump
  if first.offset + size < p.offset + opts then first else p

def call (opt : Options) (ts : TsdT) : Call :=
  let src := ts.tsSrc
  let dest := ts.tsDest
  let bump := toInt opt.opts
  let bump := if bump < 1024 then 1024 else bump
  { source := src
    destination := dest
    src := if opt.optf then advance opt.opts bump ts.tsSrc ts.tsSrcsize src else src
    dest := if opt.optt then advance opt.opts bump ts.tsDest ts.tsDestsize dest else dest
    ts := ts }

end Copy

def Memcpy.benchmarkInitworker (opt : Copy.Options) : Except Stop Copy.TsdT := Copy.initworker opt

def Memcpy.benchmark (opt : Copy.Options) (ts : Copy.TsdT) : Copy.Call := Copy.call opt ts

def Memmove.benchmarkInitworker (opt : Copy.Options) : Except Stop Copy.TsdT := Copy.initworker opt

def Memmove.benchmark (opt : Copy.Options) (ts : Copy.TsdT) : Copy.Call := Copy.call opt ts

inductive Copy.Program
  | memcpy
  | memmove

namespace Copy

def Program.benchmarkInitworker : Program → Options → Except Stop TsdT
  | memcpy => Memcpy.benchmarkInitworker
  | memmove => Memmove.benchmarkInitworker

def Program.benchmark : Program → Options → TsdT → Call
  | memcpy => Memcpy.benchmark
  | memmove => Memmove.benchmark

def Program.calls (prog : Program) (opt : Options) (ts : TsdT) (k : ℕ) : Call :=
  prog.benchmark opt ((fun ts ↦ (prog.benchmark opt ts).ts)^[k] ts)

def next (opts : ℤ) (p : Pointer) : Pointer := p.add (max opts 1024)

structure Good (opt : Options) (calls : ℕ → Call) (n : ℕ) : Prop where
  source : ∀ k < n, (calls k).source.Holds opt.opts
  destination : ∀ k < n, (calls k).destination.Holds opt.opts
  rotatesFrom : opt.optf → Rotates opt.opts (next opt.opts) (fun k ↦ (calls k).source) n
  apartFrom : opt.optf → Apart opt.opts (next opt.opts) (fun k ↦ (calls k).source) n
  rotatesTo : opt.optt → Rotates opt.opts (next opt.opts) (fun k ↦ (calls k).destination) n
  apartTo : opt.optt → Apart opt.opts (next opt.opts) (fun k ↦ (calls k).destination) n

/-- In `n` calls the regions rotate where they should, and are in their buffers. -/
def Program.Rotates (prog : Program) (opt : Options) (n : ℕ) : Prop :=
  Keeps (prog.benchmarkInitworker opt) n fun ts ↦ Good opt (prog.calls opt ts) n

end Copy

namespace Memset

structure Options where
  opts : ℤ
  opta : ℤ
  optu : Bool

structure TsdT where
  tsBuff : Pointer
  tsSize : ℤ
  tsOffset : ℤ

/-- The pointer that `memset` is given, the local variable at the end, and the `tsd`. -/
structure Call where
  region : Pointer
  buf : Pointer
  ts : TsdT

def size (opt : Options) : Except Stop ℤ :=
  if opt.optu then .ok (1024 * 1024 * 64) else (addLong opt.opta opt.opts).map toInt

/-- The buffer is then filled with zeros, up to its end. -/
def benchmarkInitworker (opt : Options) : Except Stop TsdT := do
  let size ← size opt
  if (valloc size).buffer = none then .error .failed
  else return ⟨valloc size, size, opt.opta⟩

/-- `& ~4095`, where the buffer begins with a page. -/
def pageOf (p : Pointer) : Pointer := { p with offset := p.offset / 4096 * 4096 }

/-- The next region of the rotation: the same place in the first page that is free. -/
def next (opts offset : ℤ) (p : Pointer) : Pointer := (pageOf (p.add (opts + 4095))).add offset

def benchmark (opt : Options) (ts : TsdT) : Call :=
  let buf := ts.tsBuff.add ts.tsOffset
  { region := buf
    buf :=
      if opt.optu then
        let end_ := ts.tsBuff.add ts.tsSize
        let buf := next opt.opts ts.tsOffset buf
        if end_.offset < buf.offset + opt.opts then ts.tsBuff.add ts.tsOffset else buf
      else buf
    ts := ts }

def calls (opt : Options) (ts : TsdT) (k : ℕ) : Call :=
  benchmark opt ((fun ts ↦ (benchmark opt ts).ts)^[k] ts)

structure Good (opt : Options) (calls : ℕ → Call) (n : ℕ) : Prop where
  inside : ∀ k < n, (calls k).region.Holds opt.opts
  rotates : opt.optu → Regions.Rotates opt.opts (next opt.opts opt.opta) (fun k ↦ (calls k).region) n
  apart : opt.optu → Apart opt.opts (next opt.opts opt.opta) (fun k ↦ (calls k).region) n

def Rotates (opt : Options) (n : ℕ) : Prop :=
  Keeps (benchmarkInitworker opt) n fun ts ↦ Good opt (calls opt ts) n

end Memset

end LibMicro.Copies
