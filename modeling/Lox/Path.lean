import Lox.Text.Bytes

/-! File paths, with parts divided by slashes. -/
namespace Lox.Path

def parts (path : Bytes) : List Bytes := path.splitOn (ascii '/')

/-- Adds one part to cleaned parts, last one first. -/
def pushPart (rooted : Bool) (done : List Bytes) (part : Bytes) : List Bytes :=
  if part.isEmpty || part == utf8 "." then done
  else if part == utf8 ".." then
    match done with
    | [] => if rooted then [] else [part]
    | last :: before => if last == utf8 ".." then part :: done else before
  else part :: done

/-- The shortest path to the same place, without empty parts, dots, and steps back where they can
be taken. -/
def clean (path : Bytes) : Bytes :=
  let rooted := path.head? == some (ascii '/')
  let cleaned := (utf8 "/").intercalate ((parts path).foldl (pushPart rooted) []).reverse
  if rooted then ascii '/' :: cleaned else if cleaned.isEmpty then utf8 "." else cleaned

/-- The parts as one clean path, from the first part that is not empty. -/
def join (elements : List Bytes) : Bytes :=
  match elements.dropWhile List.isEmpty with
  | [] => []
  | elements => clean ((utf8 "/").intercalate elements)

end Lox.Path
