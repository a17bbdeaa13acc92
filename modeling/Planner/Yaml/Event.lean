import Planner.Yaml.Lexer

/-! # From tokens to events

Events are the words, lists and records of a document in the order in which they begin and end.
Names are numbered as they are given to events, by how many names there were before; a mention has
the number that its name had there.  Where the tokens make no document, the events before that place
are still there. -/

namespace Planner.Yaml

open Planner.Data

/-- What an event tells. -/
inductive EventKind
  | word (value : Word)
  | listStart (tag : Option Tag)
  | recordStart (tag : Option Tag)
  /-- The innermost list or record ends. -/
  | finish
  | mention (id : Nat)
  deriving DecidableEq

/-- A step through a document. -/
structure Event where
  kind : EventKind
  /-- The number of the name that is given here. -/
  anchor : Option Nat := none

/-- What is left of the tokens, and what was learnt from those before. -/
structure Composer where
  tokens : List Token
  /-- Whether the text ends behind the tokens. -/
  complete : Bool
  /-- What handles stand for in tags. -/
  handles : List (String × List UInt8) :=
    [("!", octets "!"), ("!!", octets "tag:yaml.org,2002:")]
  /-- The numbers of names. -/
  names : List (String × Nat) := []
  /-- The events so far, latest first. -/
  events : List Event := []

/-- Composing, which may fail; what was learnt until then is kept. -/
abbrev Compose := OptionT (StateM Composer)

namespace Compose

/-- The next token, or none at the end of the text. -/
def peek : Compose (Option Token) := do
  match (← get).tokens with
  | t :: _ => return some t
  | [] => if (← get).complete then return none else failure

/-- Moves on by one token. -/
def next : Compose Unit := modify fun s => { s with tokens := s.tokens.drop 1 }

/-- Moves on over a token, if it is the next one. -/
def accept (t : Token) : Compose Bool := do
  if (← peek) = some t then next; return true
  else return false

/-- Moves on over a token that has to be the next one. -/
def expect (t : Token) : Compose Unit := do
  if !(← accept t) then failure

/-- Whether the next token is one of a list; nothing counts as the end of the text. -/
def sees (ts : List Token) : Compose Bool := do
  match ← peek with
  | some t => return ts.contains t
  | none => return false

/-! ### Events -/

/-- Adds an event. -/
def emit (kind : EventKind) : Compose Unit :=
  modify fun s => { s with events := { kind := kind } :: s.events }

/-- Adds an event that may be given a name. -/
def emitNamed (name : Option String) (kind : EventKind) : Compose Unit :=
  match name with
  | none => emit kind
  | some name => modify fun s =>
    let id := s.names.length
    { s with
      names := (name, id) :: s.names.filter (fun n => n.1 ≠ name)
      events := ⟨kind, some id⟩ :: s.events }

/-- Adds a word written with nothing. -/
def emitBlank : Compose Unit := emit (.word ⟨"", .plain, none⟩)

/-! ### Properties -/

/-- The tag that a handle and a suffix stand for. -/
def expandTag (handle : String) (suffix : List UInt8) : Compose Tag := do
  if handle.isEmpty then return .ofOctets suffix
  match (← get).handles.lookup handle with
  | some text => return .ofOctets (text ++ suffix)
  | none => failure

/-- Reads an anchor and a tag, in either order, at most one of each. -/
def properties : Compose (Option String × Option Tag) := do
  match ← peek with
  | some (.anchor name) =>
    next
    match ← peek with
    | some (.tag handle suffix) =>
      next
      return (some name, some (← expandTag handle suffix))
    | _ => return (some name, none)
  | some (.tag handle suffix) =>
    next
    match ← peek with
    | some (.anchor name) =>
      next
      return (some name, some (← expandTag handle suffix))
    | _ => return (none, some (← expandTag handle suffix))
  | _ => return (none, none)

/-! ### Nodes -/

mutual

/-- Reads a node.  `block` allows block collections, `inKey` lists that are not indented. -/
def node (block inKey : Bool) : Nat → Compose Unit
  | 0 => failure
  | fuel + 1 => do
    match ← peek with
    | some (.mention name) =>
      next
      match (← get).names.lookup name with
      | some id => emit (.mention id)
      | none => failure
    | _ =>
      let (name, tag) ← properties
      match ← peek with
      | some (.scalar text style) =>
        next
        emitNamed name (.word ⟨text, style, tag⟩)
      | some .flowListStart =>
        next
        emitNamed name (.listStart tag)
        flowItems true fuel
      | some .flowRecordStart =>
        next
        emitNamed name (.recordStart tag)
        flowFields true fuel
      | t =>
        if inKey && t = some .item then
          emitNamed name (.listStart tag)
          looseItems fuel
        else if block && t = some .listStart then
          next
          emitNamed name (.listStart tag)
          items fuel
        else if block && t = some .recordStart then
          next
          emitNamed name (.recordStart tag)
          fields fuel
        else if name.isSome || tag.isSome then emitNamed name (.word ⟨"", .plain, tag⟩)
        else failure

/-- Reads a node of a block, or nothing if one of some tokens follows. -/
def nodeUnless (inKey : Bool) (ends : List Token) : Nat → Compose Unit
  | 0 => failure
  | fuel + 1 => do
    if ← sees ends then emitBlank else node true inKey fuel

/-- Reads the items of a block. -/
def items : Nat → Compose Unit
  | 0 => failure
  | fuel + 1 => do
    if ← accept .item then
      nodeUnless false [.item, .blockEnd] fuel
      items fuel
    else if ← accept .blockEnd then emit .finish
    else failure

/-- Reads the items of a list that is not indented. -/
def looseItems : Nat → Compose Unit
  | 0 => failure
  | fuel + 1 => do
    if ← accept .item then
      nodeUnless false [.item, .key, .value, .blockEnd] fuel
      looseItems fuel
    else emit .finish

/-- Reads the fields of a block. -/
def fields : Nat → Compose Unit
  | 0 => failure
  | fuel + 1 => do
    if ← accept .key then
      nodeUnless true [.key, .value, .blockEnd] fuel
      if ← accept .value then nodeUnless true [.key, .value, .blockEnd] fuel else emitBlank
      fields fuel
    else if ← accept .blockEnd then emit .finish
    else failure

/-- Reads a node between brackets, or nothing if one of some tokens follows. -/
def flowNodeUnless (ends : List Token) : Nat → Compose Unit
  | 0 => failure
  | fuel + 1 => do
    if ← sees ends then emitBlank else node false false fuel

/-- Reads the value behind a key between brackets. -/
def flowValue (ends : List Token) : Nat → Compose Unit
  | 0 => failure
  | fuel + 1 => do
    if ← accept .value then flowNodeUnless ends fuel else emitBlank

/-- Reads a record of one field, written between list brackets without braces. -/
def pair : Nat → Compose Unit
  | 0 => failure
  | fuel + 1 => do
    emit (.recordStart none)
    if ← sees [.value, .comma, .flowListEnd] then
      next
      emitBlank
    else node false false fuel
    flowValue [.comma, .flowListEnd] fuel
    emit .finish

/-- Reads the items between list brackets. -/
def flowItems (first : Bool) : Nat → Compose Unit
  | 0 => failure
  | fuel + 1 => do
    if ← accept .flowListEnd then emit .finish
    else
      if !first then expect .comma
      if ← accept .flowListEnd then emit .finish
      else
        if ← accept .key then pair fuel else node false false fuel
        flowItems false fuel

/-- Reads the fields between braces. -/
def flowFields (first : Bool) : Nat → Compose Unit
  | 0 => failure
  | fuel + 1 => do
    if ← accept .flowRecordEnd then emit .finish
    else
      if !first then expect .comma
      if ← accept .flowRecordEnd then emit .finish
      else
        if ← accept .key then
          flowNodeUnless [.value, .comma, .flowRecordEnd] fuel
          flowValue [.comma, .flowRecordEnd] fuel
        else
          node false false fuel
          emitBlank
        flowFields false fuel

end

/-! ### Documents -/

/-- Reads the directives in front of a document: at most one version, 1.1 or 1.2, and each handle
once. -/
def directives (versions : Nat) (own : List String) : List Token → Compose Unit
  | .version major minor :: rest => do
    if versions = 0 && major = 1 && (minor = 1 || minor = 2) then
      next
      directives 1 own rest
    else failure
  | .tagHandle handle text :: rest => do
    if own.contains handle then failure
    next
    modify fun s => { s with handles := (handle, text) :: s.handles }
    directives versions (handle :: own) rest
  | _ => pure ()

/-- Moves on over the marks that end documents. -/
def documentEnds : List Token → Compose Unit
  | .documentEnd :: rest => do
    next
    documentEnds rest
  | _ => pure ()

/-- Whether a document without content ends here. -/
def atDocumentEnd : Compose Bool := do
  match ← peek with
  | some (.version _ _) | some (.tagHandle _ _) | some .documentStart | some .documentEnd | none =>
    return true
  | _ => return false

/-- Reads the one document of a text; a text may also be empty. -/
def document : Compose Unit := do
  let ts := (← get).tokens
  let fuel := 4 * ts.length + 8
  match ← peek with
  | none => emitBlank
  | some (.version _ _) | some (.tagHandle _ _) | some .documentStart =>
    directives 0 [] ts
    expect .documentStart
    if ← atDocumentEnd then emitBlank else node true false fuel
  | _ => node true false fuel
  documentEnds (← get).tokens
  if (← peek).isSome then failure

end Compose

/-- The events of a text, and whether they are all of it. -/
def Event.ofTokens (ts : TokenList) : List Event × Bool :=
  let (done, s) := Compose.document.run.run { tokens := ts.tokens, complete := ts.complete }
  (s.events.reverse, done.isSome)

end Planner.Yaml
