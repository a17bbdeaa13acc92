import Planner.Command.Run

/-! # The program

Reads the files that the arguments ask for, and hands them to `Command.run`. -/

namespace Planner

/-- Reads what stands at a path. -/
def readEntry (path : String) : IO FileEntry := do
  try
    let octets ← IO.FS.readBinFile ⟨path⟩
    return match String.fromUTF8? octets with
      | some content => .text content
      | none => .garbled
  catch e =>
    return match e with
      | .noFileOrDirectory .. => .missing
      | .inappropriateType .. => .misplaced
      | .invalidArgument .. => .tooLong
      | _ => .folder

/-- Reads what stands at some paths. -/
def readFiles (paths : List String) : IO Files := do
  let entries ← paths.mapM (fun path => do return (path, ← readEntry path))
  return fun path => (entries.lookup path).getD .missing

end Planner

/-- Carries out what the arguments ask for. -/
def main (args : List String) : IO UInt32 := do
  let setting ← IO.getEnv "RA_CONFIG"
  let request := (Planner.Command.Request.parse setting args).toOption
  let files ← Planner.readFiles ((request.map Planner.Command.Request.paths).getD [])
  let done := Planner.Command.run files setting args
  if (request.map Planner.Command.Request.verbose).getD false then
    done.log.forM (fun line => IO.eprintln line.render)
  IO.print done.value.out
  IO.eprint done.value.err
  return done.value.code.toUInt32
