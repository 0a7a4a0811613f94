import Lox.Settings.Document

/-! The user's settings: built-in values, and those of a YAML file. -/
namespace Lox
namespace Settings

/-- Loads the settings of a file; without a path they are the built-in ones. -/
def load (files : Files) (path : Bytes) : Except SettingsError Settings :=
  if path.isEmpty then .ok {}
  else
    match files.read path with
    | .error .isDirectory => .error (.unread path .isDirectory)
    | .error e => .error (.unopened path e)
    | .ok content =>
      match Yaml.read content with
      | .error problem => .error (.malformed path problem)
      | .ok document =>
        match document.elim (.ok ({}, [])) ofDocument with
        | .error problem => .error (.malformed path problem)
        | .ok (s, []) =>
          let s := { s with path := path }
          match s.issues with
          | [] => .ok s
          | issues => .error (.invalid path issues)
        | .ok (_, mismatches) => .error (.mismatched path mismatches)

/-- The files that are looked for where none is named. -/
def candidates (vars : Environment) : List Bytes :=
  let inside (directory : Bytes) (parts : List String) : List Bytes :=
    if directory.isEmpty then [] else [Path.join (directory :: parts.map utf8)]
  inside (vars "XDG_CONFIG_HOME") ["tlox", "config.yml"] ++
    inside (vars "HOME") [".config", "tlox", "config.yml"]

/-- The settings file: the one named, or the one that a variable names, or the first candidate that
is there. Without any the path is empty. -/
def locate (files : Files) (vars : Environment) (named : Bytes) : Bytes :=
  if !named.isEmpty then named
  else if !(vars "TLOX_CONFIG").isEmpty then vars "TLOX_CONFIG"
  else ((candidates vars).find? files.isFile).getD []

/-- The level of the log; a text that is no level counts as `warn`. -/
def level (s : Settings) : Log.Level :=
  match Log.Level.read s.logLevel with
  | .ok level => level
  | .error _ => .warn

/-- The history file with the home directory in place of a tilde. Without a home directory there is
none. -/
def historyPath (s : Settings) (home : Bytes) : Bytes :=
  match Bytes.after? (utf8 "~/") s.historyFile with
  | none => s.historyFile
  | some rest => if home.isEmpty then [] else Path.join [home, rest]

end Settings
end Lox
