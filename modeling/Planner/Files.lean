import Planner.Text.Blank

/-! # Files

`Files` tells what stands at each path.  `ofEntries` is the view of a directory that holds some
entries and the directories that these stand in; a path may go up with `..` and may stay with `.`,
but nothing is known of what lies outside.  Names and paths have a largest length. -/

namespace Planner

/-- What stands at a path. -/
inductive FileEntry
  | missing
  /-- A file stands where the path needs a directory. -/
  | misplaced
  /-- The path or a name in it is too long to be looked up. -/
  | tooLong
  | folder
  | text (content : String)
  /-- A file whose octets are no text. -/
  | garbled
  deriving DecidableEq, Repr

/-- Why a file cannot be read. -/
inductive ReadFault
  | missing
  | misplaced
  | tooLong
  | folder
  | garbled
  deriving DecidableEq, Repr

/-- What stands at each path. -/
abbrev Files := String → FileEntry

/-- The text of a fault. -/
def ReadFault.message : ReadFault → String
  | missing => "No such file or directory (os error 2)"
  | misplaced => "Not a directory (os error 20)"
  | tooLong => "File name too long (os error 36)"
  | folder => "Is a directory (os error 21)"
  | garbled => "stream did not contain valid UTF-8"

namespace FileEntry

/-- Whether there is something at the path. -/
def isThere : FileEntry → Bool
  | missing | misplaced | tooLong => false
  | _ => true

/-- The content of a file. -/
def read : FileEntry → Except ReadFault String
  | text content => .ok content
  | missing => .error .missing
  | misplaced => .error .misplaced
  | tooLong => .error .tooLong
  | folder => .error .folder
  | garbled => .error .garbled

end FileEntry

namespace Path

/-- The pieces of a path between slashes. -/
def pieces (path : String) : List String := (Text.splitAt '/' path.toList).map String.ofList

/-- The steps of a path: empty pieces do not count, nor does a dot that is not the first piece. -/
def steps (path : String) : List String :=
  match pieces path with
  | [] => []
  | first :: rest =>
    (if first.isEmpty then [] else [first]) ++ rest.filter (fun p => !p.isEmpty && p != ".")

/-- A path below a directory. -/
def join (folder name : String) : String :=
  if folder.isEmpty || folder.toList.getLast? == some '/' then folder ++ name
  else folder ++ "/" ++ name

/-- What a path begins with: a slash, or a dot that is a whole piece. -/
def anchor (path : String) : List Char :=
  match path.toList with
  | '/' :: _ => ['/']
  | ['.'] => ['.']
  | '.' :: '/' :: _ => ['.']
  | _ => []

/-- Whether a piece of a path leads nowhere. -/
def isIdle (piece : List Char) : Bool := piece.isEmpty || piece == ['.']

/-- The directory in which a file stands: the path up to its last step, written as it is there. -/
def folder (path : String) : String :=
  let start := anchor path
  let body := Text.splitAt '/' (path.toList.drop start.length)
  match body.reverse.dropWhile isIdle with
  | [] => "."
  | _ :: before =>
    let above := ['/'].intercalate (before.dropWhile isIdle).reverse
    if start.isEmpty && above.isEmpty then "." else String.ofList (start ++ above)

/-- The part of a file's name behind its last dot. -/
def extension? (path : String) : Option String := do
  let name ← (steps path).getLast?
  if name == ".." then none
  match (Text.splitAt '.' name.toList).reverse with
  | last :: before :: rest => if rest.isEmpty && before.isEmpty then none else some (String.ofList last)
  | _ => none

/-- Whether a file holds JSON, by its name. -/
def isJson (path : String) : Bool :=
  (extension? path).any (fun e => String.ofList (e.toList.map Char.toLower) == "json")

end Path

namespace Files

/-- What stands at a list of names below a directory. -/
def entryAt (entries : List (List String × FileEntry)) (place : List String) : FileEntry :=
  if place.isEmpty then .folder
  else match entries.lookup place with
    | some entry => entry
    | none => if entries.any (fun e => place.isPrefixOf e.1) then .folder else .missing

/-- The largest number of octets of a name. -/
def maxName : Nat := 255

/-- The number of octets that a path may not reach. -/
def maxPath : Nat := 4096

/-- Walks along the names of a path; `place` is where the walk has got to. -/
def walk (entries : List (List String × FileEntry)) : List String → List String → FileEntry
  | place, [] => entryAt entries place
  | place, name :: rest =>
    match entryAt entries place with
    | .folder =>
      if name == "." then walk entries place rest
      else if name == ".." then
        if place.isEmpty then if rest.isEmpty then .folder else .missing
        else walk entries place.dropLast rest
      else if maxName < name.utf8ByteSize then .tooLong
      else walk entries (place ++ [name]) rest
    | .missing => .missing
    | _ => .misplaced

/-- The view of a directory that holds some entries. -/
def ofEntries (entries : List (String × FileEntry)) : Files := fun path =>
  let placed := entries.map (fun e => ((Path.steps e.1).filter (· != "."), e.2))
  let names := (Path.pieces path).filter (fun p => !p.isEmpty)
  if maxPath ≤ path.utf8ByteSize then .tooLong
  else if path.isEmpty then .missing
  else if path.toList.head? == some '/' then
    match names.dropWhile (fun p => p == "." || p == "..") with
    | [] => .folder
    | name :: _ => if maxName < name.utf8ByteSize then .tooLong else .missing
  else match walk placed [] names with
    | .folder => .folder
    | entry => if path.toList.getLast? == some '/' && entry.isThere then .misplaced else entry

end Files

end Planner
