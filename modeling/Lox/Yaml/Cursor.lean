import Lox.Yaml.Character
import Lox.Yaml.Problem

/-! A place in a YAML text, with what follows and the line and column. -/
namespace Lox.Yaml

/-- A place: the lines before it, and the characters before it in its line and in all. -/
structure Mark where
  line : Nat := 0
  column : Nat := 0
  index : Nat := 0
  deriving DecidableEq, Repr

/-- A place in a text with what follows it. -/
structure Cursor where
  rest : List Char
  mark : Mark := {}
  /-- Only blanks stand between the last line end and here. -/
  fresh : Bool := false
  /-- What is wrong with the text after the rest. -/
  fault : Option CharacterFault := none
  /-- How many characters the text has from its start on, which bounds every loop over the rest. -/
  extent : Nat := rest.length

namespace Cursor

/-- The start of a text, after a byte order mark. -/
def ofText (text : Bytes) : Cursor :=
  let (read, fault) := characters ((Bytes.after? [0xEF, 0xBB, 0xBF] text).getD text)
  { rest := unifyBreaks read, fault }

def next (c : Cursor) : Cursor :=
  match c.rest with
  | [] => c
  | x :: rest =>
    if isBreak x then
      { c with rest, mark := ⟨c.mark.line + 1, 0, c.mark.index + 1⟩, fresh := true }
    else
      { c with rest, mark := { c.mark with column := c.mark.column + 1, index := c.mark.index + 1 },
               fresh := c.fresh && isBlank x }

def skip (c : Cursor) : (n : Nat) → Cursor
  | 0 => c
  | n + 1 => skip c.next n

/-- The place after the characters that satisfy `p`. -/
def skipWhile (p : Char → Bool) (c : Cursor) : Cursor := c.skip (c.rest.takeWhile p).length

def skipBlanks (c : Cursor) : Cursor := c.skipWhile isBlank

/-- The end of the line. -/
def skipLine (c : Cursor) : Cursor := c.skipWhile fun x => !isBreak x

def starts (c : Cursor) (x : Char) : Bool := c.rest.head? == some x

/-- A character stands here that satisfies `p`. -/
def sees (c : Cursor) (p : Char → Bool) : Bool := c.rest.head?.any p

/-- `word` stands here, and a blank or a line end after it. -/
def startsWord (c : Cursor) (word : List Char) : Bool :=
  word.isPrefixOf c.rest && endsToken (c.rest.drop word.length)

/-- A mark that starts or ends a document stands here. -/
def atMarker (c : Cursor) : Bool :=
  c.mark.column = 0 && (c.startsWord ['-', '-', '-'] || c.startsWord ['.', '.', '.'])

/-- The next `n` characters are sound. -/
def demand (c : Cursor) (n : Nat) : Except Problem Unit :=
  match c.fault with
  | some fault => if c.rest.length < n then .error { what := utf8 fault.message } else .ok ()
  | none => .ok ()

/-- A problem here in something that starts at `start`. -/
def problem (c : Cursor) (start : Mark) (what : String) : Problem :=
  .ofToken start.line c.mark.line what

end Cursor
end Lox.Yaml
