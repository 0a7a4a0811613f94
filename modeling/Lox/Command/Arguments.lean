import Lox.Text.Quoted

/-! Command-line arguments: flags, then operands. -/
namespace Lox.Command

structure Arguments where
  /-- The settings file named, or nothing. -/
  config : Bytes := []
  /-- The log level named, or nothing. -/
  logLevel : Bytes := []
  noColour : Bool := false
  /-- What to print instead of running, or nothing. -/
  dump : Bytes := []
  operands : List Bytes := []
  deriving DecidableEq

/-- Why arguments are not taken. -/
inductive ArgumentError where
  /-- They ask for help. -/
  | help
  | badSyntax (argument : Bytes)
  | undefinedFlag (name : Bytes)
  | missingValue (name : Bytes)
  | notBoolean (name value : Bytes)
  deriving DecidableEq

def usageLine : Bytes := utf8 "Usage: tlox [file]\n"

/-- The flags in the order of their names, each with a line on its use. -/
def flagLines : List String :=
  ["  -config string", "    \tpath to a YAML settings file",
   "  -dump tokens", "    \tprint tokens, ast or json instead of running",
   "  -log-level string", "    \tlog level: trace, debug, info, warn, error (overrides settings)",
   "  -no-color", "    \tdisable colored output"]

def usage : Bytes := usageLine ++ flagLines.flatMap fun line => utf8 line ++ [newline]

namespace ArgumentError

def problem : ArgumentError → Option Bytes
  | help => none
  | badSyntax argument => some (utf8 "bad flag syntax: " ++ argument)
  | undefinedFlag name => some (utf8 "flag provided but not defined: -" ++ name)
  | missingValue name => some (utf8 "flag needs an argument: -" ++ name)
  | notBoolean name value =>
    some (utf8 "invalid boolean value " ++ Text.quote value ++ utf8 " for -" ++ name ++
      utf8 ": parse error")

/-- The problem, if there is one, and the usage. -/
def text (e : ArgumentError) : Bytes := (e.problem.map (· ++ [newline])).getD [] ++ usage

/-- Asking for help is no failure. -/
def exitCode (e : ArgumentError) : Nat := if e = help then 0 else 1

end ArgumentError

/-- How an argument reads where a flag may stand. -/
inductive Reading where
  | operand
  /-- The mark after which all arguments are operands. -/
  | stop
  | malformed
  | flag (name : Bytes) (value : Option Bytes)
  deriving DecidableEq

/-- Splits a flag without its dashes. The value starts after the first equals sign that is not the
first byte. -/
def splitFlag : Bytes → Bytes × Option Bytes
  | [] => ([], none)
  | b :: rest =>
    match rest.dropWhile (· != ascii '=') with
    | [] => (b :: rest, none)
    | _ :: value => (b :: rest.takeWhile (· != ascii '='), some value)

/-- A flag starts with one dash or two, and its name with neither a dash nor an equals sign. -/
def readArgument (argument : Bytes) : Reading :=
  let named (flag : Bytes) : Reading :=
    match flag with
    | [] => .malformed
    | b :: _ =>
      if b == ascii '-' || b == ascii '=' then .malformed
      else .flag (splitFlag flag).1 (splitFlag flag).2
  match argument with
  | [] | [_] => .operand
  | a :: b :: rest =>
    if a != ascii '-' then .operand
    else if b != ascii '-' then named (b :: rest)
    else if rest.isEmpty then .stop
    else named rest

def boolean? (text : Bytes) : Option Bool :=
  if Bytes.isOneOf ["1", "t", "T", "TRUE", "true", "True"] text then some true
  else if Bytes.isOneOf ["0", "f", "F", "FALSE", "false", "False"] text then some false
  else none

/-- The flags that take a value: the arguments with such a flag set. -/
def Arguments.setter? (name : Bytes) : Option (Arguments → Bytes → Arguments) :=
  if name = utf8 "config" then some fun a value => { a with config := value }
  else if name = utf8 "dump" then some fun a value => { a with dump := value }
  else if name = utf8 "log-level" then some fun a value => { a with logLevel := value }
  else none

/-- Reads arguments up to the first operand; where a flag is given more than once, the last one
counts. -/
def Arguments.readFrom (a : Arguments) : List Bytes → Except ArgumentError Arguments
  | [] => .ok a
  | argument :: rest =>
    match readArgument argument with
    | .operand => .ok { a with operands := argument :: rest }
    | .stop => .ok { a with operands := rest }
    | .malformed => .error (.badSyntax argument)
    | .flag name value =>
      match setter? name, value with
      | some set, some value => (set a value).readFrom rest
      | some set, none =>
        match rest with
        | [] => .error (.missingValue name)
        | value :: rest => (set a value).readFrom rest
      | none, value =>
        if name = utf8 "no-color" then
          match value with
          | none => { a with noColour := true }.readFrom rest
          | some value =>
            match boolean? value with
            | some b => { a with noColour := b }.readFrom rest
            | none => .error (.notBoolean name value)
        else if name = utf8 "h" || name = utf8 "help" then .error .help
        else .error (.undefinedFlag name)

def Arguments.read (arguments : List Bytes) : Except ArgumentError Arguments :=
  readFrom {} arguments

end Lox.Command
