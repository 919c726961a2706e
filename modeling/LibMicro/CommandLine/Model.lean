import LibMicro.Getopt
import LibMicro.Sizes.Model

namespace LibMicro.CommandLine

open Getopt Sizes

/-- The globals that the options set. -/
structure Opts where
  lmOpt1 : Bool
  lmOptA : Bool
  lmOptC : BitVec 32
  lmOptD : ℤ
  lmOptE : Bool
  lmOptH : Bool
  lmOptL : Bool
  lmOptM : Bool
  lmOptN : List Char
  lmOptP : ℤ
  lmOptS : Bool
  lmOptT : ℤ
  deriving DecidableEq

/-- The defaults, which a benchmark may set in `benchmark_init`. -/
structure Defaults where
  lmDef1 : Bool := false
  lmDefD : ℤ := 5
  lmDefH : Bool := false
  lmDefN : Option (List Char) := none
  lmDefP : ℤ := 1
  lmDefS : Bool := false
  lmDefT : ℤ := 1

/-- A benchmark, with its own options and the variables that they set. -/
structure Module (σ : Type) where
  lmDef : Defaults
  lmOptstr : List Char
  benchmarkOptswitch : Char → Option (List Char) → σ → Option σ
  statics : σ

/-- How `actual_main` ends before it runs anything. It is undefined what an overflow in
`sizetoint` does. -/
inductive Exit
  | version
  | usage
  | undefined
  deriving DecidableEq

/-- What comes after the last slash of `argv[0]`. -/
def lmProcname (argv0 : List Char) : List Char := (argv0.reverse.takeWhile (· ≠ '/')).reverse

variable {σ : Type}

def optstr (m : Module σ) : List Char := "1AB:C:D:EHI:LMN:P:RST:VW?".toList ++ m.lmOptstr

def initial (m : Module σ) (argv0 : List Char) : Opts where
  lmOpt1 := m.lmDef.lmDef1
  lmOptA := false
  lmOptC := 100
  lmOptD := m.lmDef.lmDefD
  lmOptE := false
  lmOptH := m.lmDef.lmDefH
  lmOptL := false
  lmOptM := false
  lmOptN := m.lmDef.lmDefN.getD (lmProcname argv0)
  lmOptP := m.lmDef.lmDefP
  lmOptS := m.lmDef.lmDefS
  lmOptT := m.lmDef.lmDefT

def number (optarg : Option (List Char)) : Except Exit ℤ :=
  match optarg.bind sizetoint with
  | none => .error .undefined
  | some z => .ok z

/-- The `switch` of `actual_main`. It has no case for `B`, `I`, `R` and `W`. -/
def switch (m : Module σ) (s : Opts × σ) (p : Opt) : Except Exit (Opts × σ) :=
  let (o, x) := s
  let (opt, optarg) := p
  if opt = '1' then .ok ({ o with lmOpt1 := true }, x)
  else if opt = 'A' then .ok ({ o with lmOptA := true }, x)
  else if opt = 'C' then (number optarg).map fun z ↦ ({ o with lmOptC := BitVec.ofInt 32 z }, x)
  else if opt = 'D' then (number optarg).map fun z ↦ ({ o with lmOptD := z }, x)
  else if opt = 'E' then .ok ({ o with lmOptE := true }, x)
  else if opt = 'H' then .ok ({ o with lmOptH := true }, x)
  else if opt = 'L' then .ok ({ o with lmOptL := true }, x)
  else if opt = 'M' then .ok ({ o with lmOptM := true }, x)
  else if opt = 'N' then .ok ({ o with lmOptN := optarg.getD [] }, x)
  else if opt = 'P' then (number optarg).map fun z ↦ ({ o with lmOptP := z }, x)
  else if opt = 'S' then .ok ({ o with lmOptS := true }, x)
  else if opt = 'T' then (number optarg).map fun z ↦ ({ o with lmOptT := z }, x)
  else if opt = 'V' then .error .version
  else if opt = '?' then .error .usage
  else match m.benchmarkOptswitch opt optarg x with
    | none => .error .usage
    | some x => .ok (o, x)

/-- A wrong option is returned as a question mark. -/
def loop (m : Module σ) : List (Option Opt) → Opts × σ → Except Exit (Opts × σ)
  | [], s => .ok s
  | p :: ps, s => (switch m s (p.getD ('?', none))).bind (loop m ps)

/-- With the warning. -/
def override (o : Opts) : Opts × Bool :=
  if o.lmOpt1 ∧ o.lmOptP > 1 then ({ o with lmOptP := 1 }, true) else (o, false)

/-- What `actual_main` goes on with: the options, the warning, the variables of the benchmark and
the operands. -/
structure Settings (σ : Type) where
  opts : Opts
  warned : Bool
  statics : σ
  operands : List (List Char)
  deriving DecidableEq

def commandLine (permute : Bool) (m : Module σ) (argv0 : List Char) (args : List (List Char)) :
    Except Exit (Settings σ) :=
  let (os, operands) := getopt permute (takes (optstr m)) args
  (loop m os (initial m argv0, m.statics)).map fun (o, x) ↦
    ⟨(override o).1, (override o).2, x, operands⟩

end LibMicro.CommandLine
