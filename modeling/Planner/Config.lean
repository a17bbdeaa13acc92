import Planner.Data.Form
import Planner.Yaml.Reader
import Planner.SymbolSource
import Planner.Files
import Planner.Logged

/-! # Configuration

Which passes run, and the stem of generated symbols.  A configuration is read from a YAML text; an
empty text stands for the default, and a file is looked for next to the program. -/

namespace Planner

open Planner.Data

/-- How programs are turned into plans. -/
structure Config where
  /-- Whether assignments that are never read are deleted. -/
  deadCode : Bool := true
  /-- Whether an assignment that is read once is moved to where it is read. -/
  chaining : Bool := true
  /-- What generated symbols begin with. -/
  stem : String := SymbolSource.defaultStem
  deriving DecidableEq, Repr

/-- Why there is no configuration. -/
inductive ConfigError
  | notFound (path : String)
  | malformed
  | badStem (stem : String)
  | unreadable (path : String) (fault : ReadFault)
  deriving DecidableEq, Repr

/-- The text of an error. -/
def ConfigError.message : ConfigError → String
  | notFound path => "[C001] Config file not found: " ++ path
  | malformed => "[C002] YAML parse error:"
  | badStem stem =>
    "[C003] Invalid config: symbol_prefix '" ++ stem ++
      "' must be a non-empty identifier (letters, digits, '_')"
  | unreadable path fault => "[C004] IO error at " ++ path ++ ": " ++ fault.message

namespace Config

/-- Reads a configuration; each field may be left out. -/
def ofTree {σ : Type} : Tree → Decoder σ Config :=
  (((Form.defaulted "dead_code_elimination" true Decoder.bool).both
    ((Form.defaulted "chaining" true Decoder.bool).both
      (.defaulted "symbol_prefix" SymbolSource.defaultStem Decoder.text))).map
    fun (deadCode, chaining, stem) => ⟨deadCode, chaining, stem⟩).record false

/-- Whether a stem is a letter or an underscore with letters, digits and underscores behind it. -/
def isStem (s : String) : Bool :=
  s.toList.head?.any (fun c => c.isAlpha || c == '_') &&
    s.toList.all (fun c => c.isAlphanum || c == '_')

/-- Refuses a stem that is no name. -/
def validate (c : Config) : Except ConfigError Config :=
  if isStem c.stem then .ok c else .error (.badStem c.stem)

/-- The configuration of a text; a blank text is the default. -/
def ofYaml (s : String) : Except ConfigError Config :=
  if (Text.trim s).isEmpty then .ok {}
  else match ((Yaml.read s).read ofTree ()).1 with
    | some c => c.validate
    | none => .error .malformed

/-- The configuration of a file. -/
def load (files : Files) (path : String) : Except ConfigError Config :=
  if !(files path).isThere then .error (.notFound path)
  else match (files path).read with
    | .ok s => ofYaml s
    | .error fault => .error (.unreadable path fault)

/-- The names of configuration files, in the order in which they are looked for. -/
def fileNames : List String := ["ra.yml", "ra.yaml"]

/-- The configuration of a directory; without a file it is the default. -/
def loadFolder (files : Files) (folder : String) : Logged (Except ConfigError Config) :=
  match (fileNames.map (Path.join folder)).find? (fun path => (files path).isThere) with
  | some path => pure (load files path)
  | none => do
    Logged.debug ("No planner config in " ++ folder ++ ", using defaults")
    return .ok {}

/-- The source of symbols with the configured stem. -/
def symbols (c : Config) : SymbolSource := .new c.stem

end Config

end Planner
