import Planner.Data.Word

/-! # Document trees

A `Tree` is what a document holds: atoms or words, lists, and records of named fields.  A tree may
mention a part of its document by number instead of repeating it, and may break off where the text
is faulty.  A `Document` is a tree with what is needed to read it: its layout, which says which
shorthand forms it may use, the parts that it mentions, and the limits on reading. -/

namespace Planner.Data

/-- A document, or a part of one. -/
inductive Tree
  | atom (value : Atom)
  | word (value : Word)
  | list (items : List Tree)
  /-- The fields of a record, each with its name; the order counts, and a name may stand twice. -/
  | record (fields : List (Tree × Tree))
  /-- A list or record that carries a tag of the document's own. -/
  | tagged (body : Tree)
  /-- Stands for the part of the document with a number. -/
  | mention (id : Nat)
  /-- A part that no value is read from; it may stand where it is not looked at. -/
  | unreadable
  /-- The text is faulty or ends here, and nothing is known of what follows. -/
  | broken
  deriving Repr

/-- Which shorthand forms a document may use. -/
structure Layout where
  /-- A record may be the list of its fields in order. -/
  listedRecords : Bool
  /-- The record of a variant may be the list of its fields in order. -/
  listedVariants : Bool
  /-- A variant without fields may be a record of its name and the missing value. -/
  recordedNames : Bool
  /-- Whether the number of a record's fields is known before they are read. -/
  sized : Bool

/-- A tree, and what is needed to read it. -/
structure Document where
  root : Tree
  layout : Layout
  /-- The parts that may be mentioned, by number. -/
  parts : List (Nat × Tree) := []
  /-- How many mentions may be followed. -/
  mentions : Nat := 0
  /-- How many lists and records may be open at a time. -/
  levels : Nat
  /-- Whether the text holds nothing but the tree. -/
  sound : Bool := true

namespace Layout

/-- Texts in JSON. -/
def jsonText : Layout := ⟨true, true, true, false⟩

/-- JSON values handed over as values. -/
def jsonValue : Layout := ⟨true, false, true, true⟩

/-- Texts in YAML. -/
def yamlText : Layout := ⟨false, false, false, false⟩

end Layout

namespace Tree

mutual

/-- The number of levels of lists and records. -/
def depth : Tree → Nat
  | list items => depthItems items + 1
  | record fields => depthFields fields + 1
  | tagged body => depth body
  | _ => 0

/-- The largest depth of a list's items. -/
def depthItems : List Tree → Nat
  | [] => 0
  | t :: rest => Nat.max t.depth (depthItems rest)

/-- The largest depth of a record's fields. -/
def depthFields : List (Tree × Tree) → Nat
  | [] => 0
  | (_, t) :: rest => Nat.max t.depth (depthFields rest)

end

mutual

/-- Whether the text is faulty somewhere in a tree. -/
def isBroken : Tree → Bool
  | list items => anyBroken items
  | record fields => anyFieldBroken fields
  | tagged body => body.isBroken
  | broken => true
  | _ => false

/-- Whether the text is faulty somewhere in a list's items. -/
def anyBroken : List Tree → Bool
  | [] => false
  | t :: rest => t.isBroken || anyBroken rest

/-- Whether the text is faulty somewhere in a record's fields. -/
def anyFieldBroken : List (Tree × Tree) → Bool
  | [] => false
  | (name, t) :: rest => name.isBroken || t.isBroken || anyFieldBroken rest

end

/-! ### Trees of single values and of named fields -/

/-- The missing value. -/
def null : Tree := atom .null

/-- A truth value. -/
def bool (b : Bool) : Tree := atom (.bool b)

/-- An integer. -/
def int (n : Int) : Tree := atom (.int n)

/-- A natural number. -/
def nat (n : Nat) : Tree := atom (.int n)

/-- A text. -/
def string (s : String) : Tree := atom (.string s)

/-- A record of named fields. -/
def ofFields (fields : List (String × Tree)) : Tree :=
  record (fields.map (fun f => (string f.1, f.2)))

/-- The text of a name. -/
def nameText : Tree → String
  | atom (.string s) => s
  | word w => w.text
  | _ => ""

end Tree

/-- The document of a value that was handed over as a value. -/
def Document.ofValue (t : Tree) : Document := { root := t, layout := .jsonValue, levels := t.depth }

end Planner.Data
