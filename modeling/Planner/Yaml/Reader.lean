import Planner.Yaml.Event
import Planner.Data.Tree

/-! # Reading YAML texts

`read` gives the document of a text that holds at most one.  Where the text is faulty the tree breaks
off, and what stands before is still there.  Mentions stay what they are: the parts with a name are
kept beside the tree, and how many mentions may be followed grows with the length of the text. -/

namespace Planner.Yaml

open Planner.Data

/-- A collection, below the tag it may carry. -/
def tagged (tag : Option Tag) (t : Tree) : Tree := if tag = some .own then .tagged t else t

mutual

/-- The tree that begins with the first event, and the events behind it. -/
def treeAt : Nat → List Event → Tree × List Event
  | 0, _ => (.broken, [])
  | _ + 1, [] => (.broken, [])
  | fuel + 1, event :: rest =>
    match event.kind with
    | .word w => (.word w, rest)
    | .mention id => (.mention id, rest)
    | .listStart tag =>
      let (items, rest) := itemsAt fuel rest
      (tagged tag (.list items), rest)
    | .recordStart tag =>
      let (fields, rest) := fieldsAt fuel rest
      (tagged tag (.record fields), rest)
    | .finish => (.broken, [])

/-- The items of a list up to its end. -/
def itemsAt : Nat → List Event → List Tree × List Event
  | 0, _ => ([.broken], [])
  | _ + 1, [] => ([.broken], [])
  | fuel + 1, event :: rest =>
    if event.kind = .finish then ([], rest)
    else
      let (t, rest) := treeAt fuel (event :: rest)
      let (items, rest) := itemsAt fuel rest
      (t :: items, rest)

/-- The fields of a record up to its end. -/
def fieldsAt : Nat → List Event → List (Tree × Tree) × List Event
  | 0, _ => ([(.broken, .broken)], [])
  | _ + 1, [] => ([(.broken, .broken)], [])
  | fuel + 1, event :: rest =>
    if event.kind = .finish then ([], rest)
    else
      let (name, rest) := treeAt fuel (event :: rest)
      let (t, rest) := treeAt fuel rest
      let (fields, rest) := fieldsAt fuel rest
      ((name, t) :: fields, rest)

end

/-- The tree that begins with the first event. -/
def treeOf (events : List Event) : Tree := (treeAt (2 * events.length + 2) events).1

/-- The parts with a name, later ones first. -/
def partsOf : List Event → List (Nat × Tree)
  | [] => []
  | event :: rest =>
    partsOf rest ++ (event.anchor.map (fun id => (id, treeOf (event :: rest)))).toList

/-- How many lists and records may be open at a time. -/
def maxLevels : Nat := 128

/-- How many mentions may be followed for each event. -/
def mentionsPerEvent : Nat := 100

/-- The document of a text. -/
def read (s : String) : Document :=
  let (events, sound) := Event.ofTokens (.ofChars s.toList)
  { root := treeOf events
    layout := .yamlText
    parts := partsOf events
    mentions := mentionsPerEvent * events.length
    levels := maxLevels
    sound := sound }

end Planner.Yaml
