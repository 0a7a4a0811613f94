import Lox.Decimal.Layout
import Lox.Text.Quoted

/-! JSON values. -/
namespace Lox

inductive Json where
  | null
  | bool (b : Bool)
  | number (x : Float)
  | integer (n : Int)
  | string (s : Bytes)
  | array (items : List Json)
  | object (fields : List (Bytes × Json))

namespace Json

def insertField (key : Bytes) (value : Json) : List (Bytes × Json) → List (Bytes × Json)
  | [] => [(key, value)]
  | (k, v) :: rest =>
    if key < k then (key, value) :: (k, v) :: rest else (k, v) :: insertField key value rest

/-- An object with its fields in the order of their keys. -/
def ofFields (fields : List (String × Json)) : Json :=
  .object (fields.foldl (fun sorted (k, v) => insertField (utf8 k) v sorted) [])

/-- A character in a string, so that it is safe inside HTML and scripts too. -/
def escapeSymbol : Utf8.Symbol → Bytes
  | .invalid _ => utf8 "\\ufffd"
  | .char c =>
    if c = '"' then utf8 "\\\""
    else if c = '\\' then utf8 "\\\\"
    else if c = '\n' then utf8 "\\n"
    else if c = '\r' then utf8 "\\r"
    else if c = '\t' then utf8 "\\t"
    else if c.toNat = 8 then utf8 "\\b"
    else if c.toNat = 12 then utf8 "\\f"
    else if c.toNat < 0x20 || c = '<' || c = '>' || c = '&' || c.toNat = 0x2028 ||
        c.toNat = 0x2029 then utf8 "\\u" ++ Text.hex 4 c.toNat
    else String.utf8EncodeChar c

def quote (s : Bytes) : Bytes := utf8 "\"" ++ (Utf8.decode s).flatMap escapeSymbol ++ utf8 "\""

end Json
end Lox
