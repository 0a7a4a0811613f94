import Lox.Log.Level
import Lox.Text.Quoted

/-! Log entries, and their text as JSON lines and for a console. -/
namespace Lox.Log

/-- What a field of an entry holds. -/
inductive Datum where
  | number (n : Nat)
  | text (s : Bytes)
  deriving DecidableEq

structure Entry where
  level : Level
  message : String
  fields : List (String × Datum)
  deriving DecidableEq

namespace Entry

def escapeJson : Utf8.Symbol → Bytes
  | .invalid _ => utf8 "\\ufffd"
  | .char c =>
    if c = '"' then utf8 "\\\""
    else if c = '\\' then utf8 "\\\\"
    else if c = '\n' then utf8 "\\n"
    else if c = '\r' then utf8 "\\r"
    else if c = '\t' then utf8 "\\t"
    else if c.toNat = 8 then utf8 "\\b"
    else if c.toNat = 12 then utf8 "\\f"
    else if c.toNat < 0x20 || c.toNat = 0x7F then utf8 "\\u" ++ Text.hex 4 c.toNat
    else String.utf8EncodeChar c

def jsonString (s : Bytes) : Bytes :=
  utf8 "\"" ++ (Utf8.decode s).flatMap escapeJson ++ utf8 "\""

def Datum.json : Datum → Bytes
  | .number n => Bytes.ofNat n
  | .text s => jsonString s

def jsonField (key : String) (value : Bytes) : Bytes :=
  jsonString (utf8 key) ++ utf8 ":" ++ value

/-- The entry as one line of JSON: level, fields, message. -/
def json (e : Entry) : Bytes :=
  let fields := e.fields.map fun (key, d) => jsonField key (Datum.json d)
  utf8 "\x7b" ++
    (utf8 ",").intercalate ([jsonField "level" (jsonString e.level.text)] ++ fields ++
      [jsonField "message" (jsonString (utf8 e.message))]) ++
    utf8 "\x7d" ++ [newline]

/-- A text is quoted unless it is made of visible ASCII characters other than backslash and double
quote. -/
def consoleText (s : Bytes) : Bytes :=
  if s.any fun b => b < 0x21 || 0x7E < b || b == ascii '\\' || b == ascii '"' then Text.quote s
  else s

def Datum.console : Datum → Bytes
  | .number n => Bytes.ofNat n
  | .text s => consoleText s

/-- The short form of a level name. -/
def shortLevel (name : Bytes) : Bytes :=
  if name = utf8 "trace" then utf8 "TRC"
  else if name = utf8 "debug" then utf8 "DBG"
  else if name = utf8 "info" then utf8 "INF"
  else if name = utf8 "warn" then utf8 "WRN"
  else if name = utf8 "error" then utf8 "ERR"
  else name

/-- Adds a field to fields in the order of their keys. -/
def insertField (key : String) (d : Datum) : List (String × Datum) → List (String × Datum)
  | [] => [(key, d)]
  | (k, e) :: rest =>
    if utf8 key < utf8 k then (key, d) :: (k, e) :: rest else (k, e) :: insertField key d rest

/-- The level shown: a field named `level` takes the place of the level of the entry. -/
def shownLevel (e : Entry) : Bytes :=
  match e.fields.lookup "level" with
  | some (.text s) => s
  | _ => e.level.text

/-- The entry for a console, at a fixed time of day: level, message, and the fields in the order of
their keys. A field named `message` gives way to the message of the entry. -/
def console (e : Entry) : Bytes :=
  let fields := (e.fields.filter fun (key, _) => key != "level" && key != "message").foldl
    (fun sorted (key, d) => insertField key d sorted) []
  utf8 "12:00AM " ++ shortLevel e.shownLevel ++ utf8 " " ++ utf8 e.message ++
    (fields.flatMap fun (key, d) => utf8 " " ++ utf8 key ++ utf8 "=" ++ Datum.console d) ++
    [newline]

end Entry
end Lox.Log
