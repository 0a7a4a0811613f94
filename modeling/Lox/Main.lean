import Lox.Command.Run
import Lox.Prompt
import Std.Time.DateTime.Timestamp

/-! The program: it reads files, lines and the clock, and writes what the command gives. -/
namespace Lox.Main

/-- The bound on the steps of one unit of source. -/
def fuel : Nat := Nat.pow 10 18

def text (bytes : Bytes) : ByteArray := ⟨bytes.toArray⟩

def name (bytes : Bytes) : String := String.fromUTF8! (text bytes)

/-- The time. A unit of source is given the time of its start, so its clock stands still. -/
def now : IO Int := do return (← Std.Time.Timestamp.now).toNanosecondsSinceUnixEpoch.val

def entryOfError : IO.Error → FileEntry
  | .noFileOrDirectory .. => .missing
  | _ => .notDirectory

def contents (handle : IO.FS.Handle) : IO FileEntry :=
  try return .file (← handle.readBinToEnd).toList
  catch _ => return .directory

/-- What stands at a path. A directory can be opened but not read. -/
def look (path : Bytes) : IO FileEntry :=
  try contents (← IO.FS.Handle.mk (name path) .read)
  catch e => return entryOfError e

/-- The files at the given paths. -/
def files (paths : List Bytes) : IO Files := do
  let entries ← paths.mapM fun path => do return (path, ← look path)
  return fun path => (entries.lookup path).getD .missing

def readVariable (name : String) : IO (String × Bytes) := do
  return (name, ((← IO.getEnv name).map utf8).getD [])

def environment : IO Environment := do
  let entries ← ["TLOX_CONFIG", "XDG_CONFIG_HOME", "HOME"].mapM readVariable
  return fun name => (entries.lookup name).getD []

def writeOutput (bytes : Bytes) : IO Unit := do
  let out ← IO.getStdout
  out.write (text bytes)
  out.flush

def writeErrors (bytes : Bytes) : IO Unit := do
  let out ← IO.getStderr
  out.write (text bytes)
  out.flush

/-- The next line from the user. -/
def nextEvent : IO Prompt.Event := do
  try
    let line ← (← IO.getStdin).getLine
    if line.isEmpty then return .endOfInput
    else return .line (Bytes.trimEnd (· == newline) (utf8 line))
  catch _ => return .failure

/-- Shows prompts until the user leaves. -/
partial def converse (plan : Command.Plan) (state : Prompt.State) : IO Unit := do
  let look : Prompt.Look := ⟨plan.settings.prompt, plan.settings.colour⟩
  writeOutput (look.shown state.pending)
  let event ← nextEvent
  let machine := { state.session.machine with clock := ← now }
  let state := { state with session := { state.session with machine } }
  match Prompt.step? look fuel state event with
  | none => return
  | some (turn, next) =>
    writeOutput turn.output
    writeErrors (plan.console turn.notices)
    match next with
    | none => return
    | some state => converse plan state

/-- Writes a report and, where the plan has no script, shows prompts. -/
def finish (world : Command.World) (plan : Command.Plan) (report : Command.Report) : IO UInt32 := do
  writeOutput report.output
  writeErrors report.errors
  if plan.script.isNone then
    writeOutput (Prompt.greeting plan.settings.colour)
    converse plan { session := plan.session world }
  return report.code.toUInt32

/-- Runs the command on its arguments. -/
def run (arguments : List Bytes) : IO UInt32 := do
  let environment ← environment
  let world : Command.World := {
    files := ← files (Command.paths environment arguments)
    environment
    clock := ← now
    outputIsTerminal := ← (← IO.getStdout).isTty
    errorIsTerminal := ← (← IO.getStderr).isTty }
  match Command.plan world arguments with
  | .error refusal =>
    writeErrors refusal.text
    return refusal.exitCode.toUInt32
  | .ok plan =>
    match plan.report? fuel world with
    | none => return 1
    | some report => finish world plan report

end Lox.Main

def main (args : List String) : IO UInt32 := Lox.Main.run (args.map Lox.utf8)
