import Lox.Files
import Lox.Log.Level
import Lox.Text.Quoted
import Lox.Yaml.Problem

/-! The user's settings with their built-in values, and why there may be none. -/
namespace Lox

structure Settings where
  prompt : Bytes := utf8 "> "
  historyFile : Bytes := utf8 "~/.tlox_history"
  colour : Bool := true
  logLevel : Bytes := utf8 "warn"
  maxCallDepth : Int := 1024
  /-- The file that the settings come from, or nothing. -/
  path : Bytes := []

/-- Environment variables; a variable that is not set is empty. -/
abbrev Environment := String → Bytes

/-- Why a document does not fit the settings, by line. -/
inductive SettingsMismatch where
  /-- A value of one type where another is wanted. A scalar has a text. -/
  | wrongType (line : Nat) (tag : Bytes) (text : Option Bytes) (wanted : String)
  | unknownField (line : Nat) (name : Bytes)
  | repeatedField (line : Nat) (name : Bytes)
  | repeatedKey (line : Nat) (key : Bytes) (firstLine : Nat)

/-- Why there are no settings. -/
inductive SettingsError where
  | unopened (path : Bytes) (error : FileError)
  | unread (path : Bytes) (error : FileError)
  | malformed (path : Bytes) (problem : Yaml.Problem)
  | mismatched (path : Bytes) (mismatches : List SettingsMismatch)
  | invalid (path : Bytes) (issues : List Bytes)

namespace SettingsMismatch

/-- A text of more than ten bytes is cut. -/
def excerpt (text : Bytes) : Bytes :=
  utf8 " `" ++ (if 10 < text.length then text.take 7 ++ utf8 "..." else text) ++ utf8 "`"

def message : SettingsMismatch → Bytes
  | wrongType line tag text wanted =>
    utf8 "line " ++ Bytes.ofNat line ++ utf8 ": cannot unmarshal " ++ tag ++
      (text.map excerpt).getD [] ++ utf8 " into " ++ utf8 wanted
  | unknownField line name =>
    utf8 "line " ++ Bytes.ofNat line ++ utf8 ": field " ++ name ++
      utf8 " not found in type config.Config"
  | repeatedField line name =>
    utf8 "line " ++ Bytes.ofNat line ++ utf8 ": field " ++ name ++
      utf8 " already set in type config.Config"
  | repeatedKey line key firstLine =>
    utf8 "line " ++ Bytes.ofNat line ++ utf8 ": mapping key " ++ Text.quote key ++
      utf8 " already defined at line " ++ Bytes.ofNat firstLine

end SettingsMismatch

namespace SettingsError

def message : SettingsError → Bytes
  | unopened path error => utf8 "config: open " ++ path ++ utf8 ": " ++ error.message path
  | unread path error =>
    utf8 "config: parse " ++ path ++ utf8 ": yaml: input error: " ++ error.message path
  | malformed path problem => utf8 "config: parse " ++ path ++ utf8 ": yaml: " ++ problem.message
  | mismatched path mismatches =>
    utf8 "config: parse " ++ path ++ utf8 ": yaml: unmarshal errors:" ++
      mismatches.flatMap fun m => utf8 "\n  " ++ m.message
  | invalid path issues =>
    utf8 "config: " ++ (if path.isEmpty then [] else path ++ utf8 ": ") ++
      utf8 "validation failed:" ++ issues.flatMap fun issue => utf8 "\n- " ++ issue

end SettingsError

namespace Settings

def levelIsValid (s : Settings) : Bool :=
  !s.logLevel.isEmpty && (Log.Level.read s.logLevel).isOk

/-- What is wrong with the values of settings. -/
def issues (s : Settings) : List Bytes :=
  (if s.prompt.isEmpty then [utf8 "prompt must not be empty"] else []) ++
  (if s.levelIsValid then []
   else [utf8 "log_level " ++ Text.quote s.logLevel ++ utf8 " is not a valid level"]) ++
  (if 0 < s.maxCallDepth then []
   else [utf8 "max_call_depth must be positive, got " ++ Bytes.ofInt s.maxCallDepth])

end Settings
end Lox
