import Lox.Command.Arguments
import Lox.Json.Pretty
import Lox.Session
import Lox.Settings
import Lox.Syntax.Encode
import Lox.Syntax.Outline
import Lox.Token.Table

/-! The command: it reads its arguments and settings, and then runs or prints a script, or starts
the prompt. -/
namespace Lox.Command

/-- What a command can see. -/
structure World where
  files : Files
  environment : Environment
  clock : Clock := 0
  outputIsTerminal : Bool := false
  errorIsTerminal : Bool := false

/-- What a command leaves behind. -/
structure Report where
  code : Nat
  output : Bytes := []
  errors : Bytes := []

/-- What is done with a script. -/
inductive Action where
  | run | tokens | tree | json
  deriving DecidableEq, Repr

def Action.ofName? (name : Bytes) : Option Action :=
  if name = [] then some run
  else if name = utf8 "tokens" then some tokens
  else if name = utf8 "ast" then some tree
  else if name = utf8 "json" then some json
  else none

/-- Why there is nothing to do. -/
inductive Refusal where
  | arguments (error : ArgumentError)
  | manyOperands
  | unknownDump (name : Bytes)
  | dumpOfNothing
  | settings (error : SettingsError)
  | badLevel (name : Bytes)

namespace Refusal

def text : Refusal → Bytes
  | arguments error => error.text
  | manyOperands => usageLine
  | unknownDump name =>
    utf8 "error: unknown -dump mode " ++ Text.quote name ++ utf8 " (want tokens, ast or json)\n"
  | dumpOfNothing => utf8 "error: -dump needs a file\n"
  | settings error => utf8 "error: " ++ error.message ++ [newline]
  | badLevel name => utf8 "error: invalid -log-level " ++ Text.quote name ++ [newline]

def exitCode : Refusal → Nat
  | arguments error => error.exitCode
  | settings _ => 78
  | manyOperands | unknownDump _ | dumpOfNothing | badLevel _ => 1

def report (r : Refusal) : Report := { code := r.exitCode, errors := r.text }

end Refusal

/-- What there is to do. -/
structure Plan where
  settings : Settings
  action : Action
  /-- The script; without one the prompt is started. -/
  script : Option Bytes

/-- The settings with what arguments say in their place. -/
def override (s : Settings) (a : Arguments) : Except Refusal Settings :=
  let s := if a.noColour then { s with colour := false } else s
  if a.logLevel.isEmpty then .ok s
  else
    match Log.Level.read a.logLevel with
    | .ok _ => .ok { s with logLevel := a.logLevel }
    | .error _ => .error (.badLevel a.logLevel)

/-- The settings of a command. -/
def settingsFor (w : World) (a : Arguments) : Except Refusal Settings :=
  match Settings.load w.files (Settings.locate w.files w.environment a.config) with
  | .error e => .error (.settings e)
  | .ok s => override s a

/-- The script and what is done with it. -/
def jobOf (a : Arguments) : Except Refusal (Action × Option Bytes) :=
  match a.operands with
  | _ :: _ :: _ => .error .manyOperands
  | operands =>
    match Action.ofName? a.dump with
    | none => .error (.unknownDump a.dump)
    | some action =>
      if action ≠ .run ∧ operands = [] then .error .dumpOfNothing
      else .ok (action, operands.head?)

def plan (w : World) (arguments : List Bytes) : Except Refusal Plan :=
  match Arguments.read arguments with
  | .error e => .error (.arguments e)
  | .ok a => do
    let (action, script) ← jobOf a
    let settings ← settingsFor w a
    return { settings, action, script }

/-- The files that a command may look at. -/
def paths (environment : Environment) (arguments : List Bytes) : List Bytes :=
  match Arguments.read arguments with
  | .error _ => []
  | .ok a =>
    a.config :: environment "TLOX_CONFIG" :: Settings.candidates environment ++ a.operands

/-- The text of notices on a console, in their order. -/
def consoleText (level : Log.Level) (notices : List Notice) : Bytes :=
  notices.flatMap fun
    | .faults text => text
    | .log entry => if level.rank ≤ entry.level.rank then entry.console else []

namespace Plan

def loadedNotice (p : Plan) : Notice :=
  Session.debugEntry "settings loaded"
    [("config", .text p.settings.path), ("level", .text p.settings.logLevel)]

/-- The text of notices at the level of the settings. -/
def console (p : Plan) (notices : List Notice) : Bytes := consoleText p.settings.level notices

def session (p : Plan) (w : World) : Session :=
  .fresh (p.settings.colour && w.errorIsTerminal) p.settings.maxCallDepth w.clock

/-- Prints the tokens of a script, and also those between faults. -/
def tokenReport (p : Plan) (w : World) (source : Bytes) : Report :=
  let scan := Scan.ofSource source
  let output := Token.table scan.tokens
  if scan.faults.isEmpty then { code := 0, output }
  else
    { code := Outcome.scanFault.exitCode
      output
      errors :=
        Diagnostic.renderAll (p.session w).colour source (scan.faults.map (·.diagnostic)) }

/-- Prints the statements of a script, unless they cannot be rendered. -/
def syntaxReport? (p : Plan) (w : World) (source : Bytes)
    (render : List Stmt → Except Json.EncodingError Bytes) : Option Report :=
  match (p.session w).parse? source with
  | none => none
  | some r =>
    let errors := p.console r.notices
    if r.outcome = .ok then
      match render r.statements with
      | .ok output => some { code := 0, output, errors }
      | .error e =>
        some { code := 1,
               errors := errors ++ utf8 "error: JSON encoding failed: " ++ e.message ++ [newline] }
    else some { code := r.outcome.exitCode, errors }

/-- Runs a script. There is no result if it does not end within `fuel`. -/
def runReport? (p : Plan) (fuel : Nat) (w : World) (source : Bytes) : Option Report :=
  match (p.session w).run? fuel source with
  | none => none
  | some (r, _) =>
    some { code := r.outcome.exitCode, output := r.output, errors := p.console r.notices }

/-- Does the action of the plan on a script. -/
def scriptReport? (p : Plan) (fuel : Nat) (w : World) (source : Bytes) : Option Report :=
  match p.action with
  | .run => p.runReport? fuel w source
  | .tokens => some (p.tokenReport w source)
  | .tree => p.syntaxReport? w source fun statements => .ok (Outline.text statements)
  | .json =>
    p.syntaxReport? w source fun statements =>
      Json.encode (p.settings.colour && w.outputIsTerminal) (.array (stmtsToJson statements))

/-- The report where the script cannot be read. -/
def unreadReport (p : Plan) (path : Bytes) (error : FileError) : Report :=
  { code := 2
    errors :=
      p.console [Session.debugEntry "read failed" [("error", .text (error.message path))]] ++
        utf8 "Could not open file: " ++ path ++ [newline] }

/-- What the plan gives, up to the prompt where there is no script. -/
def report? (p : Plan) (fuel : Nat) (w : World) : Option Report :=
  let report : Option Report :=
    match p.script with
    | none => some { code := 0 }
    | some path =>
      match w.files.read path with
      | .error e => some (p.unreadReport path e)
      | .ok source => p.scriptReport? fuel w source
  report.map fun r => { r with errors := p.console [p.loadedNotice] ++ r.errors }

end Plan

/-- The report of a command, up to the prompt where there is no script. There is no result if a
script does not end within `fuel`. -/
def run? (fuel : Nat) (w : World) (arguments : List Bytes) : Option Report :=
  match plan w arguments with
  | .error refusal => some refusal.report
  | .ok p => p.report? fuel w

end Lox.Command
