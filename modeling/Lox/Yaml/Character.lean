import Lox.Text.Bytes

/-! The characters of a YAML text. -/
namespace Lox.Yaml

/-- A character that a document may hold. -/
def isAllowed (code : Nat) : Bool :=
  code = 9 || code = 10 || code = 13 || (0x20 ≤ code && code ≤ 0x7E) || code = 0x85 ||
    (0xA0 ≤ code && code ≤ 0xD7FF) || (0xE000 ≤ code && code ≤ 0xFFFD) ||
    (0x10000 ≤ code && code ≤ 0x10FFFF)

/-- How many bytes a character has that starts with a byte, or 0 for a byte that starts none. -/
def widthOf (b : UInt8) : Nat :=
  if b < 0x80 then 1
  else if b < 0xC0 then 0
  else if b < 0xE0 then 2
  else if b < 0xF0 then 3
  else if b < 0xF8 then 4
  else 0

/-- The least code of a character of so many bytes. -/
def leastOfWidth (width : Nat) : Nat :=
  if width = 2 then 0x80 else if width = 3 then 0x800 else if width = 4 then 0x10000 else 0

/-- Why a text goes on with no character. -/
inductive CharacterFault where
  | leading
  | incomplete
  | trailing
  | tooLong
  | surrogate
  | control
  deriving DecidableEq

def CharacterFault.message : CharacterFault → String
  | leading => "invalid leading UTF-8 octet"
  | incomplete => "incomplete UTF-8 octet sequence"
  | trailing => "invalid trailing UTF-8 octet"
  | tooLong => "invalid length of a UTF-8 sequence"
  | surrogate => "invalid Unicode character"
  | control => "control characters are not allowed"

/-- The character that starts with byte `b`, and how many bytes it has. -/
def character (b : UInt8) (rest : Bytes) : Except CharacterFault (Char × Nat) :=
  let width := widthOf b
  let trailing := rest.take (width - 1)
  let code := trailing.foldl (fun n t => n * 64 + t.toNat % 64)
    (if width = 1 then b.toNat else b.toNat % Nat.pow 2 (7 - width))
  if width = 0 then .error .leading
  else if trailing.length + 1 < width then .error .incomplete
  else if trailing.any (fun t => t.toNat / 64 ≠ 2) then .error .trailing
  else if code < leastOfWidth width then .error .tooLong
  else if (0xD800 ≤ code && code ≤ 0xDFFF) || 0x10FFFF < code then .error .surrogate
  else if !isAllowed code then .error .control
  else .ok (Char.ofNat code, width)

/-- The characters of a text, last one first and each with its place, up to the first fault. The
first `skip` bytes belong to a character already read. -/
def charactersOnto (read : List (Char × Nat)) (skip place : Nat) :
    Bytes → List (Char × Nat) × Option (CharacterFault × Nat)
  | [] => (read, none)
  | b :: rest =>
    match skip with
    | skip + 1 => charactersOnto read skip (place + 1) rest
    | 0 =>
      match character b rest with
      | .ok (c, width) => charactersOnto ((c, place) :: read) (width - 1) (place + 1) rest
      | .error fault => (read, some (fault, place))

/-- A text is looked at in pieces of so many bytes, and a fault spoils all of its piece. -/
def pieceSize : Nat := 512

/-- The characters of a text before its first fault, and the fault. An incomplete character at the
end spoils nothing before it. -/
def characters (text : Bytes) : List Char × Option CharacterFault :=
  match charactersOnto [] 0 0 text with
  | (read, none) => (read.reverse.map (·.1), none)
  | (read, some (.incomplete, _)) => (read.reverse.map (·.1), some .incomplete)
  | (read, some (fault, place)) =>
    let sound := read.reverse.filter fun (_, p) => p < place / pieceSize * pieceSize
    (sound.map (·.1), some fault)

/-- A carriage return, alone or before a line feed, is written as a line feed. -/
def unifyBreaks : List Char → List Char
  | [] => []
  | '\r' :: '\n' :: rest => '\n' :: unifyBreaks rest
  | c :: rest => (if c = '\r' then '\n' else c) :: unifyBreaks rest

/-- A line end. The next-line character and the separators of lines and of paragraphs are line ends
too. -/
def isBreak (c : Char) : Bool := c = '\n' || c = '\u0085' || c = '\u2028' || c = '\u2029'

/-- A line end as part of a scalar, where the next-line character counts as a line feed. -/
def breakText (c : Char) : Char := if c = '\u0085' then '\n' else c

def isBlank (c : Char) : Bool := c = ' ' || c = '\t'

/-- A letter of the name of an anchor, a directive or a handle. -/
def isNameLetter (c : Char) : Bool := c.isAlphanum || c = '_' || c = '-'

/-- A blank, a line end or the end of the text. -/
def endsToken : List Char → Bool
  | [] => true
  | c :: _ => isBlank c || isBreak c

/-- A text as bytes. -/
def encode (text : List Char) : Bytes := text.flatMap String.utf8EncodeChar

end Lox.Yaml
