import Planner.Data.Tree

/-! # Reading values from documents

A `Decoder` reads a value from a document, part after part in the order in which they stand there.
It may fail; what reading has done to the state of its user until then stays done, so a failure can
be told apart by how far reading got.  A mention counts when it is followed and not where it stands,
and a part that is passed over only has to be whole. -/

namespace Planner.Data

/-- How far reading has got. -/
structure Progress (σ : Type) where
  /-- The number of mentions that were followed. -/
  followed : Nat := 0
  state : σ

/-- Reads a value of a document; `σ` is the state of whoever reads. -/
def Decoder (σ α : Type) : Type := Document → Progress σ → Option α × Progress σ

namespace Decoder

variable {σ α β : Type}

instance : Monad (Decoder σ) where
  pure a := fun _ p => (some a, p)
  bind x f := fun d p =>
    match x d p with
    | (some a, p) => f a d p
    | (none, p) => (none, p)

@[simp] theorem pure_apply (a : α) (d : Document) (p : Progress σ) :
    (pure a : Decoder σ α) d p = (some a, p) := rfl

theorem bind_apply (x : Decoder σ α) (f : α → Decoder σ β) (d : Document) (p : Progress σ) :
    (x >>= f) d p = match x d p with
      | (some a, p) => f a d p
      | (none, p) => (none, p) := rfl

/-- Fails. -/
def fail : Decoder σ α := fun _ p => (none, p)

/-- A value that may be missing, which is a failure. -/
def ofOption (a : Option α) : Decoder σ α := fun _ p => (a, p)

/-- The document that is read. -/
def document : Decoder σ Document := fun d p => (some d, p)

/-- Changes the state. -/
def update (f : σ → α × σ) : Decoder σ α := fun _ p =>
  let (a, s) := f p.state
  (some a, { p with state := s })

/-- Reads inside a list or record, if one more may be open. -/
def nested (x : Decoder σ α) : Decoder σ α := fun d p =>
  match d.levels with
  | 0 => (none, p)
  | levels + 1 => x { d with levels := levels } p

/-- The tree that a tree stands for. -/
def follow (t : Tree) : Decoder σ Tree := fun d p =>
  match t with
  | .mention id =>
    if p.followed < d.mentions then (d.parts.lookup id, { p with followed := p.followed + 1 })
    else (none, p)
  | t => (some t, p)

/-- Passes over a tree. -/
def skip (t : Tree) : Decoder σ Unit := if t.isBroken then fail else pure ()

/-! ### Single values -/

/-- A value of its own type or of a word. -/
def single (ofAtom : Atom → Option α) (ofWord : Word → Option α) (t : Tree) : Decoder σ α := do
  match ← follow t with
  | .atom a => ofOption (ofAtom a)
  | .word w => ofOption (ofWord w)
  | _ => fail

/-- The value that a tree stands for by itself. -/
def value : Tree → Decoder σ Atom := single some Word.value?

/-- A text. -/
def text : Tree → Decoder σ String :=
  single (fun | .string s => some s | _ => none) (fun w => some w.text)

/-- A truth value. -/
def bool : Tree → Decoder σ Bool := single (fun | .bool b => some b | _ => none) Word.bool?

/-- A count below a bound. -/
def nat (bound : Nat) (t : Tree) : Decoder σ Nat := do
  let n ← single (fun | .int n => n.toNat? | _ => none) Word.nat? t
  if n < bound then return n else fail

/-- An optional value: missing, or read by `f`. -/
def optional (f : Tree → Decoder σ α) (t : Tree) : Decoder σ (Option α) := do
  match ← follow t with
  | .atom .null => return none
  | .word w => if ← ofOption w.omits? then return none else return some (← f (.word w))
  | t => return some (← f t)

/-! ### Lists and variants -/

/-- Reads the items of a list. -/
def each (f : Tree → Decoder σ α) : List Tree → Decoder σ (List α)
  | [] => pure []
  | t :: rest => do
    let a ← f t
    let as ← each f rest
    return a :: as

/-- A list of values; a word written with nothing is the empty list. -/
def listOf (f : Tree → Decoder σ α) (t : Tree) : Decoder σ (List α) := do
  match ← follow t with
  | .list items => nested (each f items)
  | .tagged (.list items) => nested (each f items)
  | .word w => if w.isBlank then return [] else fail
  | _ => fail

/-- A variant: `bare` reads one that is its name alone, `full` one with a body behind its name. -/
def variant (bare : String → Decoder σ α) (full : String → Tree → Decoder σ α) (t : Tree) :
    Decoder σ α := do
  let sized := (← document).layout.sized
  match ← follow t with
  | .atom (.string s) => bare s
  | .word w => match w.value? with
    | some (.string s) => bare s
    | _ => fail
  | .record ((name, body) :: rest) => nested do
    if sized && !rest.isEmpty then fail
    else
      let a ← full (← text name) body
      if rest.isEmpty then return a else fail
  | _ => fail

/-- Reads the missing value where a variant without fields may be written as a record. -/
def absent (body : Tree) : Decoder σ Unit := do
  if (← document).layout.recordedNames then
    match body with
    | .atom .null => pure ()
    | _ => fail
  else fail

/-- A variant without fields, by its name. -/
def named (ofName? : String → Option α) : Tree → Decoder σ α :=
  variant (fun name => ofOption (ofName? name)) fun name body => do
    let a ← ofOption (ofName? name)
    absent body
    return a

end Decoder

/-- Reads the value of a document.  If something else stands in the text, there is none, but reading
has had its effect. -/
def Document.read {σ α : Type} (d : Document) (f : Tree → Decoder σ α) (s : σ) : Option α × σ :=
  let (a, p) := f d.root d { state := s }
  (if d.sound then a else none, p.state)

end Planner.Data
