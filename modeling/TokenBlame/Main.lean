/-
# TokenBlame.Main -- the program

The program reads what stands at the paths that its command names, runs the command on
it, and writes what the command left there.  Repositories are kept in files, as the
streams that `git fast-export` writes and `git fast-import` reads.

`serve` answers the requests that come in on the standard input, on the standard output:
whatever listens on the port hands them on.  No comment service is reached.
-/
import TokenBlame.CommandLine

set_option autoImplicit false

open TokenBlame CommandLine

namespace TokenBlame.Main

/-- The workspace with what stands at a path on the disk of the system. -/
def load (workspace : Workspace) (path : String) : IO Workspace := do
  let file := (← IO.currentDir) / path
  let place := (workspace.route path).place
  let mut next := workspace
  if let some above := file.parent then
    if ← above.isDir then next := next.adoptDirectory place.dropLast
  if ← file.isDir then next := next.adoptDirectory place
  else if ← file.pathExists then
    next := next.adopt place (← IO.FS.readBinFile file).toList
  return next

/-- Write what stands at a path in the workspace. -/
def save (workspace : Workspace) (path : String) : IO Unit := do
  let file := (← IO.currentDir) / path
  if let some bytes := workspace.stored? path then
    if let some above := file.parent then IO.FS.createDirAll above
    IO.FS.writeBinFile file bytes.toByteArray

/-- The lines of a request behind its first one, up to the empty line. -/
partial def skipHeaders (input : IO.FS.Stream) : IO Unit := do
  let line ← input.getLine
  if (Blank.trim line.toList).isEmpty then return else skipHeaders input

/-- Answer requests until there are no more. -/
partial def answerAll (source : RevisionSource) (destination : Destination) (viewer : Viewer) :
    IO Unit := do
  let line ← (← IO.getStdin).getLine
  if line.isEmpty then return
  let mut next := viewer
  if let some (method, target) := Server.requestLine? line then
    skipHeaders (← IO.getStdin)
    let (response, used) :=
      match Request.parse? method target with
      | none => (Server.badRequest, viewer)
      | some request => Server.handle viewer source destination.repository request
    IO.print response.print
    (← IO.getStdout).flush
    next := used
  answerAll source destination next

/-- Run a command on the files that it names; the code that the program ends with. -/
def runCommand (command : Command) : IO UInt32 := do
  let base := (Workspace.route {} (← IO.currentDir).toString).place
  let workspace ← command.paths.foldlM load (Workspace.adoptDirectory { base } base)
  let (outcome, next) := command.run workspace
  command.written.forM (save next)
  match command, workspace.source <$> command.paths.head?, workspace.open? <$> command.paths[1]? with
  | .serve _ _ _ engine, some (.ok source), some (.ok destination) =>
      answerAll source destination { engine }
  | _, _, _ => IO.print outcome.output
  IO.eprint outcome.errors
  return outcome.code.toUInt32

end TokenBlame.Main

/-- Read the command, and the variables of the environment that it may take options from. -/
def main (arguments : List String) : IO UInt32 := do
  let environment ← CommandLine.Help.variableNames.filterMapM fun name => do
    return (← IO.getEnv name).map fun value => (name, value)
  match Command.parse environment arguments with
  | .ok command => Main.runCommand command
  | .error refusal =>
      let outcome := Outcome.ofRefusal refusal
      IO.print outcome.output
      IO.eprint outcome.errors
      return outcome.code.toUInt32
