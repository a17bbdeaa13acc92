import Planner.Command.Arguments
import Planner.Program.Coding
import Planner.Program.Lowering
import Planner.Plan.Explain
import Planner.Plan.Graph
import Planner.Json.Printer

/-! # Commands

`run` reads a program and shows its plan or its flow graph.  A failure is reported with what was
being done and the chain of its causes. -/

namespace Planner.Command

/-- What a run leaves: its exit code and what it writes. -/
structure Outcome where
  code : Nat
  out : String := ""
  err : String := ""
  deriving DecidableEq, Repr

/-- What was being done when something failed, and why it failed, outermost cause first. -/
structure Failure where
  context : String
  causes : List String

namespace Failure

/-- A text whose lines after the first are indented. -/
def indentLines (margin : String) (s : String) : String :=
  ("\n" ++ margin).intercalate ((Text.splitAt '\n' s.toList).map String.ofList)

/-- The lines of the causes; they are numbered if there are several. -/
def causeLines (causes : List String) : List String :=
  match causes with
  | [cause] => ["    " ++ indentLines "    " cause]
  | _ => causes.mapIdx (fun i cause => "    " ++ toString i ++ ": " ++ indentLines "       " cause)

/-- The report of a failure. -/
def report (f : Failure) : String :=
  "Error: " ++ f.context ++ "\n\nCaused by:" ++
    String.join ((causeLines f.causes).map ("\n" ++ ·)) ++ "\n"

end Failure

/-- The causes of a planning error: that of a scheme is a cause of its own. -/
def planCauses (e : PlanError) : List String :=
  match e with
  | .schema inner => [e.message, inner.message]
  | e => [e.message]

/-- The causes of a configuration error: what was wrong with the file is a cause of its own. -/
def configCauses (e : ConfigError) : List String :=
  match e with
  | .unreadable _ fault => [e.message, fault.message]
  | .malformed => [e.message, ""]
  | e => [e.message]

/-- A computation with a log that may fail. -/
abbrev Run := ExceptT Failure Logged

/-- Runs a step, and says what it was if it fails. -/
def step {ε α : Type} (context : String) (causes : ε → List String) (x : Logged (Except ε α)) : Run α :=
  ExceptT.mk (do return (← x).mapError (fun e => ⟨context, causes e⟩))

/-- Reads the program of a file. -/
def loadProgram (files : Files) (path : String) : Run (Program × Cells) := do
  let content ← step ("Failed to read program " ++ path) (fun e : ReadFault => [e.message])
    (pure (files path).read)
  step ("Failed to parse program " ++ path) planCauses
    (if Path.isJson path then Program.ofJson content .empty else Program.ofYaml content .empty)

/-- The configuration of a named file, or else of the program's directory. -/
def loadConfig (files : Files) (program : String) : Option String → Run Config
  | some path => step ("Failed to load config " ++ path) configCauses (pure (Config.load files path))
  | none => step "Failed to load planner config" configCauses
      (Config.loadFolder files (Path.folder program))

/-- A plan in a format. -/
def showPlan (config : Config) (p : Plan) : Format → String
  | .tree => Text.trimEnd p.tree
  | .text => p.text
  | .symbols => (p.explain config.symbols).2.1
  | .dot => (PlanGraph.ofPlan p).toDot
  | .json => Json.writePretty 0 p.toTree

/-- A text filled up with blanks to a width. -/
def padTo (width : Nat) (s : String) : String :=
  s ++ String.ofList (List.replicate (width - s.length) ' ')

/-- A row of the table of live relations. -/
def liveRow (node before behind : String) : String :=
  padTo 6 node ++ " " ++ padTo 30 before ++ " " ++ behind

/-- The table of live relations. -/
def liveTable (g : Flow.Graph) (l : Flow.Liveness) : String :=
  "\n".intercalate
    (liveRow "NODE" "LIVE IN" "LIVE OUT" :: String.ofList (List.replicate 70 '-') ::
      g.ids.map (fun id =>
        liveRow (toString id) (commas (l.before id).toList) (commas (l.behind id).toList)))

/-- What a request shows. -/
def perform (files : Files) (r : Request) : Run String := do
  let (program, cells) ← loadProgram files r.program
  match r.action with
  | .plan format keepDead keepApart =>
    let config ← loadConfig files r.program r.config
    let config := { config with
      deadCode := config.deadCode && !keepDead
      chaining := config.chaining && !keepApart }
    let (plan, _) ← step ("Failed to plan " ++ r.program) planCauses (program.compile cells config)
    return showPlan config plan format ++ "\n"
  | .graph liveness =>
    let g ← step ("Failed to build CFG for " ++ r.program) planCauses (program.toGraph cells)
    if liveness then
      let l ← ExceptT.lift g.liveness
      return g.text ++ "\n\n" ++ liveTable g l ++ "\n"
    else return g.text ++ "\n"

/-- The name and version. -/
def versionText : String := "ra 0.1.0\n"

/-- How the program is called. -/
def usageText : String := "Usage: ra [OPTIONS] <plan|cfg> <PROGRAM>\n"

/-- The files that a request may look at. -/
def Request.paths (r : Request) : List String :=
  r.program ::
    match r.config with
    | some path => [path]
    | none => Config.fileNames.map (Path.join (Path.folder r.program))

/-- Carries out a request. -/
def Request.run (files : Files) (r : Request) : Logged Outcome := do
  match ← (perform files r).run with
  | .ok out => return ⟨0, out, ""⟩
  | .error f => return ⟨1, "", f.report⟩

/-- What happens where there is no request. -/
def Stop.outcome : Stop → Outcome
  | .usage => ⟨2, "", usageText⟩
  | .help => ⟨0, usageText, ""⟩
  | .version => ⟨0, versionText, ""⟩

/-- Carries out what the arguments ask for. -/
def run (files : Files) (setting : Option String) (args : List String) : Logged Outcome :=
  match Request.parse setting args with
  | .ok r => r.run files
  | .error stop => pure stop.outcome

end Planner.Command
