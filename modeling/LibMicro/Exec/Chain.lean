import LibMicro.Exec.Model
import LibMicro.Sizes.Grammar

namespace LibMicro.Exec

open Paths Sizes Decimal CommandLine

variable {α : Type} {w : World α} {cwd d d' : α} {argv0 here path : List Char} {file : α}

end LibMicro.Exec
