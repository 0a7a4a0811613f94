import Lox.Yaml.Written

/-! The tokens of a YAML text, and the tokens that are names: anchors, tags and directives. -/
namespace Lox.Yaml

namespace Token

inductive Kind where
  | streamEnd
  /-- The directive that gives the version of the format. -/
  | version (major minor : Nat)
  /-- The directive that gives a handle for the start of tags. -/
  | handle (name start : Bytes)
  | documentStart
  | documentEnd
  | blockSequence
  | blockMapping
  | blockEnd
  | flowSequence
  | flowSequenceEnd
  | flowMapping
  | flowMappingEnd
  /-- A dash before an item of a block sequence. -/
  | item
  /-- A comma between the entries of a flow collection. -/
  | separator
  | key
  | value
  | anchor (name : Bytes)
  /-- A node that is used again by the name of its anchor. -/
  | reference (name : Bytes)
  | tag (handle rest : Bytes)
  | scalar (plain : Bool) (text : Bytes)
  deriving DecidableEq

end Token

/-- A token and where it starts. -/
structure Token where
  kind : Token.Kind
  mark : Mark

namespace Token

/-- A token and the place after it. -/
abbrev Reading := Except Problem (Kind × Cursor)

/-- The name of an anchor, after the mark that starts it. -/
def name (c : Cursor) : Except Problem (Bytes × Cursor) :=
  let letters := c.next.rest.takeWhile isNameLetter
  let after := c.next.skip letters.length
  let ends := endsToken after.rest ||
    after.sees fun x => ['?', ':', ',', ']', '\x7d', '%', '@', '\x60'].contains x
  if letters.isEmpty || !ends then
    .error (after.problem c.mark "did not find expected alphabetic or numeric character")
  else .ok (encode letters, after)

def anchorName (c : Cursor) : Reading := do
  let (text, after) ← name c
  return (.anchor text, after)

def referenceName (c : Cursor) : Reading := do
  let (text, after) ← name c
  return (.reference text, after)

/-- A character of the name of a tag. -/
def isTagLetter (x : Char) : Bool :=
  isNameLetter x || [';', '/', '?', ':', '@', '&', '=', '+', '$', '.', ',', '!', '~', '*', '\'',
    '(', ')', '[', ']', '%'].contains x

/-- The bytes of one character that are written as a percent sign and two digits each; `left` is
how many are still to come, and nothing before the first. -/
def escapedBytes (start : Mark) : (fuel : Nat) → (left : Option Nat) → (read : Bytes) → Cursor →
    Except Problem (Bytes × Cursor)
  | 0, _, read, c => .ok (read, c)
  | fuel + 1, left, read, c =>
    if left = some 0 then .ok (read, c)
    else
      match if c.starts '%' then hexNumber? 2 (c.rest.drop 1) else none with
      | none => .error (c.problem start "did not find URI escaped octet")
      | some n =>
        match left with
        | none =>
          if widthOf n.toUInt8 = 0 then
            .error (c.problem start "found an incorrect leading UTF-8 octet")
          else
            escapedBytes start fuel (some (widthOf n.toUInt8 - 1)) (read ++ [n.toUInt8]) (c.skip 3)
        | some left =>
          if n / 64 ≠ 2 then .error (c.problem start "found an incorrect trailing UTF-8 octet")
          else escapedBytes start fuel (some (left - 1)) (read ++ [n.toUInt8]) (c.skip 3)

/-- The letters of a tag, with escaped bytes. -/
def tagLetters (start : Mark) : (fuel : Nat) → (read : Bytes) → Cursor →
    Except Problem (Bytes × Cursor)
  | 0, read, c => .ok (read, c)
  | fuel + 1, read, c =>
    match c.rest with
    | [] => .ok (read, c)
    | x :: _ =>
      if x = '%' then do
        let (read, c) ← escapedBytes start 5 none read c
        tagLetters start fuel read c
      else if isTagLetter x then tagLetters start fuel (read ++ encode [x]) c.next
      else .ok (read, c)

/-- The letters of a tag after `before`; there is one at least in both together. -/
def tagText (start : Mark) (before : Bytes) (isStarted : Bool) (c : Cursor) :
    Except Problem (Bytes × Cursor) := do
  let (text, after) ← tagLetters start (c.extent + 1) before c
  if !isStarted && after.mark.index = c.mark.index then
    throw (after.problem start "did not find expected tag URI")
  return (text, after)

/-- The handle that starts a tag: an exclamation mark, and perhaps a name and another one. -/
def handleText (c : Cursor) : Bytes × Bool × Cursor :=
  let letters := c.next.rest.takeWhile isNameLetter
  let after := c.next.skip letters.length
  if after.starts '!' then (encode ('!' :: letters ++ ['!']), true, after.next)
  else (encode ('!' :: letters), false, after)

/-- A tag: in full between angle brackets, or with a handle. A lone exclamation mark has none. -/
def tagName (c : Cursor) : Reading := do
  let start := c.mark
  let (handle, text, after) ←
    if (c.rest.drop 1).head? == some '<' then do
      let (text, after) ← tagText start [] false (c.skip 2)
      if !after.starts '>' then throw (after.problem start "did not find the expected '>'")
      pure (([] : Bytes), text, after.next)
    else
      match handleText c with
      | (handle, true, after) => do
        let (text, after) ← tagText start [] false after
        pure (handle, text, after)
      | (handle, false, after) => do
        let (text, after) ← tagText start (handle.drop 1) true after
        if text.isEmpty then pure ([], handle, after) else pure (utf8 "!", text, after)
  if !endsToken after.rest then
    throw (after.problem start "did not find expected whitespace or line break")
  return (.tag handle text, after)

/-- A number of one or two digits in the version of the format. -/
def versionNumber (start : Mark) (c : Cursor) : Except Problem (Nat × Cursor) :=
  let digits := c.rest.takeWhile Char.isDigit
  if 2 < digits.length then
    .error ((c.skip 2).problem start "found extremely long version number")
  else if digits.isEmpty then .error (c.problem start "did not find expected version number")
  else .ok (Bytes.digitsValue (encode digits), c.skip digits.length)

def versionDirective (start : Mark) (c : Cursor) : Reading := do
  let (major, c) ← versionNumber start c.skipBlanks
  if !c.starts '.' then throw (c.problem start "did not find expected digit or '.' character")
  let (minor, c) ← versionNumber start c.next
  return (.version major minor, c)

def handleDirective (start : Mark) (c : Cursor) : Reading := do
  let c := c.skipBlanks
  if !c.starts '!' then throw (c.problem start "did not find expected '!'")
  let (handle, isClosed, c) := handleText c
  if !isClosed && handle ≠ utf8 "!" then throw (c.problem start "did not find expected '!'")
  if !c.sees isBlank then throw (c.problem start "did not find expected whitespace")
  let (text, c) ← tagText start [] false c.skipBlanks
  if !endsToken c.rest then
    throw (c.problem start "did not find expected whitespace or line break")
  return (.handle handle text, c)

/-- A directive, which takes a line of its own. -/
def directive (c : Cursor) : Reading := do
  let start := c.mark
  let letters := c.next.rest.takeWhile isNameLetter
  let c := c.next.skip letters.length
  if letters.isEmpty then throw (c.problem start "could not find expected directive name")
  if !endsToken c.rest then
    throw (c.problem start "found unexpected non-alphabetical character")
  let (kind, c) ←
    if letters = ['Y', 'A', 'M', 'L'] then versionDirective start c
    else if letters = ['T', 'A', 'G'] then handleDirective start c
    else throw (c.problem start "found unknown directive name")
  let c := c.skipBlanks
  let c := if c.starts '#' then c.skipLine else c
  if !endsToken c.rest then
    throw (c.problem start "did not find expected comment or line break")
  return (kind, c.next)

end Token
end Lox.Yaml
