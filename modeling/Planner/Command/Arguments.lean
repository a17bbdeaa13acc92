import Planner.Text.Blank

/-! # Command-line arguments

`Request.parse` reads the arguments after the program's name: options of the whole program, a
command, and the command's own options and program file.  An option may stand once at each level, a
value stands behind its option with or without a space or an equals sign, short options may be
joined, and behind `--` everything is a word. -/

namespace Planner.Command

/-- How a plan is shown. -/
inductive Format
  | tree
  | text
  | symbols
  | dot
  | json
  deriving DecidableEq, Repr

/-- The format with a name. -/
def Format.ofName? : String → Option Format
  | "tree" => some tree
  | "text" => some text
  | "symbols" => some symbols
  | "dot" => some dot
  | "json" => some json
  | _ => none

/-- What an option is about. -/
inductive Key
  | verbose
  | config
  | format
  | keepDead
  | keepApart
  | liveness
  | help
  | version
  deriving DecidableEq, Repr

/-- How an option is written. -/
structure OptionSpec where
  key : Key
  short : Option Char
  long : String
  valued : Bool := false

/-- The options that stand at every level. -/
def commonOptions : List OptionSpec :=
  [⟨.verbose, some 'v', "verbose", false⟩, ⟨.config, some 'c', "config", true⟩,
    ⟨.help, some 'h', "help", false⟩]

/-- The options before a command. -/
def topOptions : List OptionSpec := ⟨.version, some 'V', "version", false⟩ :: commonOptions

/-- The options of the command `plan`. -/
def planOptions : List OptionSpec :=
  [⟨.format, some 'f', "format", true⟩, ⟨.keepDead, none, "no-dce", false⟩,
    ⟨.keepApart, none, "no-chain", false⟩] ++ commonOptions

/-- The options of the command `cfg`. -/
def cfgOptions : List OptionSpec := ⟨.liveness, some 'l', "liveness", false⟩ :: commonOptions

/-- Why arguments ask for no run. -/
inductive Stop
  /-- The arguments cannot be understood. -/
  | usage
  | help
  | version
  deriving DecidableEq, Repr

/-- The options and words met so far. -/
structure Given where
  options : List (Key × String) := []
  words : List String := []

namespace Given

/-- The value of an option. -/
def get? (g : Given) (key : Key) : Option String := g.options.lookup key

/-- Whether an option is there. -/
def has (g : Given) (key : Key) : Bool := (g.get? key).isSome

/-- Notes an option down. -/
def give (g : Given) (key : Key) (value : String) : Except Stop Given :=
  match key with
  | .help => .error .help
  | .version => .error .version
  | key =>
    if g.has key then .error .usage
    else if key = .format && (Format.ofName? value).isNone then .error .usage
    else .ok { g with options := (key, value) :: g.options }

/-- Notes a word down; there may be only one. -/
def addWord (g : Given) (word : String) : Except Stop Given :=
  if g.words.isEmpty then .ok { g with words := [word] } else .error .usage

/-- Reads joined short options; an option that waits for its value is given back. -/
def readShort (specs : List OptionSpec) : List Char → Given → Except Stop (Given × Option Key)
  | [], g => .ok (g, none)
  | c :: rest, g =>
    match specs.find? (fun s => s.short == some c) with
    | none => .error .usage
    | some spec =>
      if !spec.valued then do readShort specs rest (← g.give spec.key "")
      else match rest with
        | [] => .ok (g, some spec.key)
        | '=' :: value => do return (← g.give spec.key (String.ofList value), none)
        | value => do return (← g.give spec.key (String.ofList value), none)

/-- Reads a long option; an option that waits for its value is given back. -/
def readLong (specs : List OptionSpec) (cs : List Char) (g : Given) :
    Except Stop (Given × Option Key) :=
  let name := cs.takeWhile (· != '=')
  let value := cs.drop (name.length + 1)
  let attached := name.length < cs.length
  match specs.find? (fun s => s.long == String.ofList name) with
  | none => .error .usage
  | some spec =>
    if spec.valued then
      if attached then do return (← g.give spec.key (String.ofList value), none)
      else .ok (g, some spec.key)
    else if attached then .error .usage
    else do return (← g.give spec.key "", none)

/-- Whether an argument looks like an option. -/
def isOption (arg : String) : Bool :=
  match arg.toList with
  | '-' :: _ :: _ => true
  | _ => false

/-- Reads one option. -/
def readOption (specs : List OptionSpec) (arg : String) (g : Given) :
    Except Stop (Given × Option Key) :=
  match arg.toList with
  | '-' :: '-' :: cs => readLong specs cs g
  | _ :: cs => readShort specs cs g
  | [] => .error .usage

/-- Reads the arguments of a level.  With `atWord` the first word ends the level; the rest is what
stands from there on. -/
def read (specs : List OptionSpec) (atWord : Bool) :
    List String → Given → Except Stop (Given × List String)
  | [], g => .ok (g, [])
  | arg :: rest, g =>
    if arg = "--" then do
      let g ← rest.foldlM addWord g
      return (g, [])
    else if !isOption arg then
      if atWord then .ok (g, arg :: rest)
      else do read specs atWord rest (← g.addWord arg)
    else do
      match ← readOption specs arg g with
      | (g, none) => read specs atWord rest g
      | (g, some key) =>
        match rest with
        | value :: rest =>
          if isOption value then .error .usage
          else do read specs atWord rest (← g.give key value)
        | [] => .error .usage

end Given

/-- What to do with a program. -/
inductive Action
  /-- Show its plan. -/
  | plan (format : Format) (keepDead keepApart : Bool)
  /-- Show its flow graph. -/
  | graph (liveness : Bool)
  deriving DecidableEq, Repr

/-- A request to work on a program. -/
structure Request where
  action : Action
  program : String
  config : Option String
  verbose : Bool
  deriving DecidableEq, Repr

namespace Request

/-- The request of a command: options behind the command count before those in front of it, and
those before the setting of the surroundings. -/
def ofGiven (setting : Option String) (top sub : Given) (action : Action) : Except Stop Request :=
  match sub.words with
  | [program] =>
    .ok {
      action := action
      program := program
      config := (sub.get? .config).or ((top.get? .config).or setting)
      verbose := top.has .verbose || sub.has .verbose }
  | _ => .error .usage

/-- What a question for help asks for: it may name one command. -/
def help : List String → Stop
  | [] => .help
  | [name] => if ["plan", "cfg", "help"].contains name then .help else .usage
  | _ => .usage

/-- The request of the arguments; `setting` is the configuration file that the surroundings name. -/
def parse (setting : Option String) (args : List String) : Except Stop Request := do
  let (top, rest) ← Given.read topOptions true args {}
  match rest with
  | "plan" :: rest =>
    let (sub, _) ← Given.read planOptions false rest {}
    let format := ((sub.get? .format).bind Format.ofName?).getD .tree
    ofGiven setting top sub (.plan format (sub.has .keepDead) (sub.has .keepApart))
  | "cfg" :: rest =>
    let (sub, _) ← Given.read cfgOptions false rest {}
    ofGiven setting top sub (.graph (sub.has .liveness))
  | "help" :: rest => .error (help rest)
  | _ => .error .usage

end Request

end Planner.Command
