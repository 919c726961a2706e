import Mathlib.Data.List.Basic
import Mathlib.Tactic.Common

namespace LibMicro.Paths

/-- Directories and files, and what a name means in each of them. -/
structure Files (α : Type) where
  root : α
  lookup : α → List Char → Option α

/-- The names in a path. Slashes that follow one another count as one. -/
def components (p : List Char) : List (List Char) := (p.splitOnP (· = '/')).filter (· ≠ [])

def walk {α : Type} (t : Files α) : α → List (List Char) → Option α
  | d, [] => some d
  | d, name :: names => (t.lookup d name).bind (walk t · names)

/-- A path that does not begin with a slash is read from the working directory. -/
def resolve {α : Type} (t : Files α) (cwd : α) (p : List Char) : Option α :=
  if p.head? = some '/' then walk t t.root (components p) else walk t cwd (components p)

/-- The path up to its last slash, where it has one. -/
def truncate (p : List Char) : List Char := ((p.reverse.dropWhile (· ≠ '/')).drop 1).reverse

variable {α : Type} {t : Files α} {d d' : α} {p q name : List Char}

end LibMicro.Paths
