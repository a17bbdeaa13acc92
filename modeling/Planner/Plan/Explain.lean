import Planner.Plan.Basic
import Planner.SymbolSource

/-! # Listings

`tree` gives each node a line, two blanks deeper than its parent.  `bindSymbols` gives each node a
symbol, inputs first, and lists one assignment per node; a node that is bound keeps its symbol and is
not entered. -/

namespace Planner.Plan

/-- The lines of a plan, each two blanks deeper than its parent's. -/
def treeLines (p : Plan) : List String :=
  p.fold (fun node inputs => node.short :: inputs.flatten.map ("  " ++ ·))

/-- The plan as an indented tree, one node to a line. -/
def tree (p : Plan) : String := String.join (p.treeLines.map (· ++ "\n"))

/-- What a listing has got to: the source of symbols and the lines so far. -/
structure Listing where
  source : SymbolSource
  lines : List String

/-- The line that assigns a node to a symbol. -/
def assignment (symbol : String) (p : Plan) (inputs : List String) : String :=
  if inputs.isEmpty then symbol ++ " = " ++ p.short
  else symbol ++ " = " ++ p.short ++ "[" ++ ", ".intercalate inputs ++ "]"

/-- Binds a node whose inputs have symbols. -/
def bindNode (p : Plan) (inputs : List String) (l : Listing) : Plan × String × Listing :=
  let (symbol, source) := l.source.fresh
  (p.withNotes { p.notes with bound := some symbol }, symbol,
    ⟨source, l.lines ++ [assignment symbol p inputs]⟩)

mutual

/-- Binds every node that has no symbol yet, inputs first. -/
def bindSymbols : Plan → Listing → Plan × String × Listing
  | leaf notes op, l => match notes.bound with
    | some symbol => (leaf notes op, symbol, l)
    | none => bindNode (leaf notes op) [] l
  | unary notes op input, l => match notes.bound with
    | some symbol => (unary notes op input, symbol, l)
    | none =>
      let (input, a, l) := bindSymbols input l
      bindNode (unary notes op input) [a] l
  | binary notes op left right, l => match notes.bound with
    | some symbol => (binary notes op left right, symbol, l)
    | none =>
      let (left, a, l) := bindSymbols left l
      let (right, b, l) := bindSymbols right l
      bindNode (binary notes op left right) [a, b] l
  | nary notes op inputs, l => match notes.bound with
    | some symbol => (nary notes op inputs, symbol, l)
    | none =>
      let (inputs, symbols, l) := bindSymbolsAll inputs l
      bindNode (nary notes op inputs) symbols l

/-- Binds several plans, one after the other. -/
def bindSymbolsAll : List Plan → Listing → List Plan × List String × Listing
  | [], l => ([], [], l)
  | p :: rest, l =>
    let (p, a, l) := bindSymbols p l
    let (rest, as, l) := bindSymbolsAll rest l
    (p :: rest, a :: as, l)

end

/-- The bound plan, its listing, and the source of symbols afterwards. -/
def explain (p : Plan) (source : SymbolSource) : Plan × String × SymbolSource :=
  let (p, _, l) := p.bindSymbols ⟨source, []⟩
  (p, "\n".intercalate l.lines, l.source)

end Planner.Plan
