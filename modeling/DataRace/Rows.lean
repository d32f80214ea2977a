/-!
# Rows

A table with one list per number, its rows ascending by number.  `Rows.modify` changes one row and
makes it if it is missing; `Rows.row` answers a row, empty if missing.
-/

namespace DataRace

/-- Lists by number, ascending. -/
abbrev Rows (α : Type) := List (Nat × List α)

namespace Rows

variable {α : Type}

/-- Changes the row of a number, which is empty if it was missing. -/
def modify (k : Nat) (f : List α → List α) : Rows α → Rows α
  | [] => [(k, f [])]
  | (j, row) :: rest =>
    if k < j then (k, f []) :: (j, row) :: rest
    else if k = j then (j, f row) :: rest
    else (j, row) :: modify k f rest

/-- The row of a number. -/
def row (t : Rows α) (k : Nat) : List α := (t.lookup k).getD []

/-- The numbers with a row. -/
def keys (t : Rows α) : List Nat := t.map Prod.fst

/-- Appends an item that a row does not hold yet. -/
def addNew [DecidableEq α] (row : List α) (a : α) : List α :=
  if a ∈ row then row else row ++ [a]

end Rows

end DataRace
