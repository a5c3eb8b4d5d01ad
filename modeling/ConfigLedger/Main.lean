import ConfigLedger.Command.Execution
import ConfigLedger.Command.Invocation
import ConfigLedger.Store.Opening

/-!
# The command line

Reads the settings file and the snapshot file, has the task of the invocation done, saves
the snapshot if it changed, and prints the result. What is wrong is printed to the error
stream.

Packed snapshots are refused, since files are read and written as plain text here.
-/

namespace ConfigLedger.CommandLine

/-- How the program is used. -/
def usage : String :=
  "usage: --config FILE [--user-id ID [--user-email ADDRESS]] " ++
    "check-config|get|put|delete|list|resolve"

/-- What a file holds, if it exists. -/
def readFile? (path : String) : IO (Option String) := do
  try return some (← IO.FS.readFile path)
  catch
    | .noFileOrDirectory .. => return none
    | e => throw e

/-- The time of day in milliseconds, which is when a file that was just created has changed last. -/
def timeOfDay : IO UInt64 := do
  let (_, path) ← IO.FS.createTempFile
  let time := (← path.metadata).modified
  IO.FS.removeFile path
  return UInt64.ofInt (time.sec * 1000 + (time.nsec.toNat / 1000000 : Nat))

/-- The path of the snapshot of a backend. -/
def snapshotPath : BackendSettings → String
  | .memory => ""
  | .filesystem directory name _ => (Path.inDirectory directory name).text

/-- Where the snapshot is kept while a task is done. -/
def workingName : String :=
  "snapshot"

/-- The settings with the snapshot in its working place. -/
def atWork (settings : StoreSettings) : StoreSettings :=
  match settings.backend with
  | .memory => settings
  | .filesystem _ _ level => { settings with backend := .filesystem "/" workingName level }

/-- The disk with the snapshot in its working place. -/
def diskOf (text : Option String) : Disk :=
  ⟨text.toList.map fun text => ([workingName], .file ⟨false, text⟩)⟩

/-- Writes the file of a snapshot by way of its temporary file. -/
def save (path text : String) : IO Unit := do
  let temporary := (Path.ofText path).temporary.text
  IO.FS.writeFile temporary text
  IO.FS.rename temporary path

/-- Saves the snapshot of a medium, unless its file still holds what it held before. -/
def saveMedium (path : String) (before : Option String) (medium : Medium) : IO Unit :=
  match medium with
  | .memory _ _ => pure ()
  | .file snapshot _ => match snapshot.disk.read? snapshot.path with
    | some content => if before = some content.text then pure () else save path content.text
    | none => pure ()

/-- Does what an invocation asks for, and answers the exit code. -/
def run (invocation : Invocation) : IO UInt32 := do
  let fail (reason : String) : IO UInt32 := do
    IO.eprintln ("error: " ++ reason)
    return 1
  let file ← readFile? invocation.settingsFile
  match Settings.loadValid file, invocation.task with
  | .error e, _ => fail e.message
  | .ok _, .checkSettings =>
    IO.println "config ok"
    return 0
  | .ok settings, .run command =>
    if settings.store.backend.level?.isSome then
      return ← fail "packed snapshots cannot be read here, set compression_level to null"
    let path := snapshotPath settings.store.backend
    let before ← if path.isEmpty then pure none else readFile? path
    match Host.open? (atWork settings.store) (diskOf before) ⟨← timeOfDay, 1⟩ with
    | .error e => fail e.message
    | .ok host =>
      let (result, host) := (command.execute invocation.author).run.run Host.serve host
      saveMedium path before host.medium
      match result.bind (writeOut none) with
      | .error e => fail e.message
      | .ok text =>
        IO.print text
        return 0

end ConfigLedger.CommandLine

/-- Runs the program. The exit code is 2 where the arguments spell no invocation. -/
def main (arguments : List String) : IO UInt32 :=
  match ConfigLedger.Invocation.ofArguments? arguments with
  | some invocation =>
    try ConfigLedger.CommandLine.run invocation
    catch e =>
      IO.eprintln ("error: " ++ toString e)
      return 1
  | none => do
    IO.eprintln ConfigLedger.CommandLine.usage
    return 2
