/-! # Fresh symbols

A `SymbolSource` numbers the symbols it hands out: `V1`, `V2`, and so on.  It is passed along and
handed back, so equal runs give equal names. -/

namespace Planner

/-- A source of symbols that start with `stem`; `issued` have been handed out. -/
structure SymbolSource where
  stem : String
  issued : Nat
  deriving DecidableEq, Repr

namespace SymbolSource

/-- The stem in use where none is given. -/
def defaultStem : String := "V"

/-- A source that has handed out nothing. -/
def new (stem : String) : SymbolSource := ⟨stem, 0⟩

/-- The symbol with a given number. -/
def symbol (stem : String) (number : Nat) : String := stem ++ toString number

/-- The next symbol; numbers start at one. -/
def fresh (g : SymbolSource) : String × SymbolSource :=
  (symbol g.stem (g.issued + 1), { g with issued := g.issued + 1 })

/-- The source with its numbering started again. -/
def reset (g : SymbolSource) : SymbolSource := { g with issued := 0 }

end SymbolSource

end Planner
