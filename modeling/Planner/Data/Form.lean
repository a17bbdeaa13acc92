import Planner.Data.Decoder

/-! # The fields of records

A `Form` says which fields a record may have, how each is read and what value they make up.  The
fields of a record are read in the order in which they stand: a field that stands there already, or
that the form does not know, is refused at its name, and a field that is missing only at the end.  A
record that is written as a list has the form's fields in the form's order. -/

namespace Planner.Data

/-- The fields that a record may have; `δ` is what has been read of them. -/
structure Form (σ δ α : Type) where
  names : List String
  start : δ
  /-- Reads the field with one of the names. -/
  fill : String → Tree → δ → Decoder σ δ
  /-- The value of the fields, unless one is missing. -/
  finish : δ → Option α

namespace Form

open Decoder

variable {σ δ ε α β : Type}

/-! ### Forms -/

/-- A single field, which stands for `missing` where it is left out. -/
def field (name : String) (read : Tree → Decoder σ α) (missing : Option α) :
    Form σ (Option α) α where
  names := [name]
  start := none
  fill _ t
    | some _ => fail
    | none => do
      let a ← read t
      return some a
  finish a := a.or missing

/-- A field that has to be there. -/
def required (name : String) (read : Tree → Decoder σ α) : Form σ (Option α) α :=
  field name read none

/-- A field that has a default. -/
def defaulted (name : String) (default : α) (read : Tree → Decoder σ α) : Form σ (Option α) α :=
  field name read (some default)

/-- A field that may be left out or hold the missing value. -/
def optional (name : String) (read : Tree → Decoder σ α) :
    Form σ (Option (Option α)) (Option α) :=
  field name (Decoder.optional read) (some none)

/-- The fields of one form, then those of another. -/
def both (f : Form σ δ α) (g : Form σ ε β) : Form σ (δ × ε) (α × β) where
  names := f.names ++ g.names
  start := (f.start, g.start)
  fill name t d :=
    if f.names.contains name then do
      let first ← f.fill name t d.1
      return (first, d.2)
    else do
      let second ← g.fill name t d.2
      return (d.1, second)
  finish d := do return (← f.finish d.1, ← g.finish d.2)

/-- The fields of a form, with another value made up of them. -/
def map (h : α → β) (f : Form σ δ α) : Form σ δ β :=
  { f with finish := fun d => (f.finish d).map h }

/-! ### Reading -/

/-- Reads the fields of a record; `lenient` passes over unknown ones. -/
def fillFields (f : Form σ δ α) (lenient : Bool) : List (Tree × Tree) → δ → Decoder σ δ
  | [], d => pure d
  | (name, t) :: rest, d => do
    let name ← text name
    if f.names.contains name then
      let d ← f.fill name t d
      fillFields f lenient rest d
    else if lenient then
      skip t
      fillFields f lenient rest d
    else fail

/-- Reads the items of a list as the fields with some names. -/
def fillItems (f : Form σ δ α) : List String → List Tree → δ → Decoder σ δ
  | _, [], d => pure d
  | [], _ :: _, _ => fail
  | name :: names, t :: rest, d => do
    let d ← f.fill name t d
    fillItems f names rest d

/-- Reads a record.  A word written with nothing is the record without fields. -/
def read (f : Form σ δ α) (lenient listed : Bool) (t : Tree) : Decoder σ α := do
  let ofFields (fields : List (Tree × Tree)) : Decoder σ α := nested do
    let d ← f.fillFields lenient fields f.start
    ofOption (f.finish d)
  match ← follow t with
  | .record fields => ofFields fields
  | .tagged (.record fields) => ofFields fields
  | .list items =>
    if listed then nested do
      let d ← f.fillItems f.names items f.start
      ofOption (f.finish d)
    else fail
  | .word w => if w.isBlank then ofOption (f.finish f.start) else fail
  | _ => fail

/-- Reads a record that stands by itself. -/
def record (f : Form σ δ α) (lenient : Bool) (t : Tree) : Decoder σ α := do
  f.read lenient (← document).layout.listedRecords t

/-- Reads the record of a variant. -/
def body (f : Form σ δ α) (lenient : Bool) (t : Tree) : Decoder σ α := do
  f.read lenient (← document).layout.listedVariants t

end Form

end Planner.Data
