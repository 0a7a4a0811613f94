import Lox.Yaml.Cursor

/-! Scalars as they are written in a YAML text: plain, quoted and as blocks of lines. -/
namespace Lox.Yaml

/-- What stands between two words of a scalar, last character first. -/
inductive Gap where
  | blanks (text : List Char)
  /-- Line ends, of which an escaped first one is left out. -/
  | breaks (first : Option Char) (more : List Char)

namespace Gap

/-- What a gap counts for: one line end alone is a space, and the first of several is dropped. A
separator of lines or paragraphs is kept. -/
def fold : Gap → List Char
  | blanks text => text
  | breaks none more => more
  | breaks (some first) more =>
    if first = '\n' then if more.isEmpty then [' '] else more else more ++ [first]

def add (gap : Gap) (x : Char) : Gap :=
  match gap with
  | blanks text => if isBreak x then breaks (some (breakText x)) [] else blanks (x :: text)
  | breaks first more => if isBreak x then breaks first (breakText x :: more) else gap

def hasBreak : Gap → Bool
  | blanks _ => false
  | breaks _ _ => true

/-- The blanks and line ends at the head of a text. After a line end no tab may stand within the
first `indent` columns. -/
def read (start : Mark) (indent : Int) : (fuel : Nat) → Gap → Cursor → Except Problem (Gap × Cursor)
  | 0, gap, c => .ok (gap, c)
  | fuel + 1, gap, c =>
    match c.rest with
    | [] => .ok (gap, c)
    | x :: _ =>
      if gap.hasBreak && (c.mark.column : Int) < indent && x = '\t' then
        .error (c.problem start "found a tab character that violates indentation")
      else if isBlank x || isBreak x then read start indent fuel (gap.add x) c.next
      else .ok (gap, c)

end Gap

/-- A character that ends a plain scalar within a flow collection. -/
def endsFlowWord (x : Char) : Bool :=
  x = ',' || x = '?' || x = '[' || x = ']' || x = '\x7b' || x = '\x7d'

/-- The length of the word of a plain scalar at the head of a text. -/
def wordLength (flow : Bool) : List Char → Nat
  | [] => 0
  | x :: rest =>
    if isBlank x || isBreak x || (x = ':' && endsToken rest) || (flow && endsFlowWord x) then 0
    else wordLength flow rest + 1

/-- A scalar that was read, whether a line end follows it, and the place after it. -/
structure Written where
  text : List Char
  lineEnd : Bool := false
  cursor : Cursor

/-- The words of a plain scalar; `text` and `gap` are read already, last character first. In block
context each line after the first is indented by `indent` columns at least. -/
def plainWords (flow : Bool) (indent : Int) (start : Mark) : (fuel : Nat) → (text : List Char) →
    Gap → Cursor → Except Problem Written
  | 0, text, gap, c => .ok ⟨text.reverse, gap.hasBreak, c⟩
  | fuel + 1, text, gap, c => do
    c.demand 1
    let length := wordLength flow c.rest
    if c.atMarker || c.starts '#' || length = 0 then return ⟨text.reverse, gap.hasBreak, c⟩
    let text := (c.rest.take length).reverse ++ gap.fold ++ text
    let c := c.skip length
    let (gap, c) ← Gap.read start indent (c.extent + 1) (.blanks []) c
    if !flow && (c.mark.column : Int) < indent then return ⟨text.reverse, gap.hasBreak, c⟩
    plainWords flow indent start fuel text gap c

def plain (flow : Bool) (indent : Int) (c : Cursor) : Except Problem Written :=
  plainWords flow indent c.mark (c.extent + 1) [] (.blanks []) c

/-- The character that an escape sequence of one letter stands for. -/
def escapeLetter? (x : Char) : Option Nat :=
  [('0', 0), ('a', 7), ('b', 8), ('t', 9), ('\t', 9), ('n', 10), ('v', 11), ('f', 12), ('r', 13),
   ('e', 27), (' ', 32), ('"', 34), ('\'', 39), ('\\', 92), ('N', 0x85), ('_', 0xA0), ('L', 0x2028),
   ('P', 0x2029)].lookup x

/-- How many hexadecimal digits follow the letter of an escape sequence. -/
def escapeDigits? (x : Char) : Option Nat := [('x', 2), ('u', 4), ('U', 8)].lookup x

def hexValue? (x : Char) : Option Nat :=
  if '0' ≤ x && x ≤ '9' then some (x.toNat - 48)
  else if 'a' ≤ x && x ≤ 'f' then some (x.toNat - 87)
  else if 'A' ≤ x && x ≤ 'F' then some (x.toNat - 55)
  else none

/-- The number of `n` hexadecimal digits at the head of a text. -/
def hexNumber? (n : Nat) (text : List Char) : Option Nat :=
  let digits := text.take n
  if digits.length < n then none
  else digits.foldlM (fun value x => (hexValue? x).map (value * 16 + ·)) 0

/-- The character of the escape sequence after a backslash, and how many characters follow the
backslash. -/
def escape (c : Cursor) (start : Mark) (after : List Char) : Except Problem (Char × Nat) :=
  match after with
  | [] => .error (c.problem start "found unknown escape character")
  | x :: more =>
    match escapeLetter? x, escapeDigits? x with
    | some code, _ => .ok (Char.ofNat code, 1)
    | none, some n =>
      match hexNumber? n more with
      | none => .error (c.problem start "did not find expected hexdecimal number")
      | some code =>
        if code.isValidChar then .ok (Char.ofNat code, n + 1)
        else .error (c.problem start "found invalid Unicode character escape code")
    | none, none => .error (c.problem start "found unknown escape character")

/-- A word of a quoted scalar, up to a blank, a line end or the closing quote. A line end after a
backslash ends the word and is passed over. -/
def quotedWord (quote : Char) (start : Mark) : (fuel : Nat) → (text : List Char) → Cursor →
    Except Problem Written
  | 0, text, c => .ok ⟨text, false, c⟩
  | fuel + 1, text, c =>
    match c.rest with
    | [] => .ok ⟨text, false, c⟩
    | x :: rest =>
      if isBlank x || isBreak x then .ok ⟨text, false, c⟩
      else if x = quote then
        if quote = '\'' && rest.head? == some '\'' then
          quotedWord quote start fuel ('\'' :: text) (c.skip 2)
        else .ok ⟨text, false, c⟩
      else if quote = '"' && x = '\\' then
        if rest.head?.any isBreak then .ok ⟨text, true, c.skip 2⟩
        else do
          let (y, n) ← escape c start rest
          quotedWord quote start fuel (y :: text) (c.skip (n + 1))
      else quotedWord quote start fuel (x :: text) c.next

/-- The words of a quoted scalar up to its closing quote. -/
def quotedWords (quote : Char) (start : Mark) : (fuel : Nat) → (text : List Char) → Cursor →
    Except Problem Written
  | 0, _, c => .error (c.problem start "found unexpected end of stream")
  | fuel + 1, text, c => do
    c.demand 1
    if c.atMarker then throw (c.problem start "found unexpected document indicator")
    if c.rest.isEmpty then throw (c.problem start "found unexpected end of stream")
    let word ← quotedWord quote start (c.extent + 1) text c
    if word.cursor.starts quote then return ⟨word.text.reverse, false, word.cursor.next⟩
    let gap := if word.lineEnd then Gap.breaks none [] else .blanks []
    let (gap, c) ← Gap.read start 0 (word.cursor.extent + 1) gap word.cursor
    quotedWords quote start fuel (gap.fold ++ word.text) c

/-- A quoted scalar, at its opening quote. -/
def quoted (quote : Char) (c : Cursor) : Except Problem Written :=
  quotedWords quote c.mark (c.extent + 1) [] c.next

/-- What becomes of the line ends after the last line of a block. -/
inductive Chomp where
  | strip
  | clip
  | keep
  deriving DecidableEq

def Chomp.ofMark? (x : Char) : Option Chomp := [('-', strip), ('+', keep)].lookup x

/-- The marks after the one that starts a block: how it ends and how far it is indented, in either
order. Nothing said on the indentation is 0. -/
def blockMarks (c : Cursor) : Except Problem (Chomp × Nat × Cursor) := do
  let chomp (c : Cursor) : Option Chomp × Cursor :=
    match c.rest.head?.bind Chomp.ofMark? with
    | some chomp => (some chomp, c.next)
    | none => (none, c)
  let indent (c : Cursor) : Option Nat × Cursor :=
    match c.rest with
    | x :: _ => if x.isDigit then (some (x.toNat - 48), c.next) else (none, c)
    | [] => (none, c)
  let start := c.mark
  let (before, c) := chomp c.next
  let (width, c) := indent c
  let (after, c) := if before.isNone && width.isSome then chomp c else (before, c)
  if width = some 0 then throw (c.problem start "found an indentation indicator equal to 0")
  return (after.getD .clip, width.getD 0, c)

/-- The line ends before the next line of a block that is not empty. `indent` is 0 where the
indentation shows in that line, and `deepest` is the deepest one so far. -/
def blockBreaks (start : Mark) (indent : Nat) : (fuel : Nat) → (deepest : Nat) →
    (breaks : List Char) → Cursor → Except Problem (List Char × Nat × Cursor)
  | 0, deepest, breaks, c => .ok (breaks, deepest, c)
  | fuel + 1, deepest, breaks, c =>
    let spaces := (c.rest.takeWhile (· = ' ')).length
    let c := c.skip (if indent = 0 then spaces else min spaces (indent - c.mark.column))
    let deepest := max deepest c.mark.column
    match c.rest with
    | [] => .ok (breaks, deepest, c)
    | x :: _ =>
      if (indent = 0 || c.mark.column < indent) && x = '\t' then
        .error (c.problem start "found a tab character where an indentation space is expected")
      else if isBreak x then blockBreaks start indent fuel deepest (breakText x :: breaks) c.next
      else .ok (breaks, deepest, c)

/-- The lines of a block. `text` is read already, `first` is the end of its last line, and `more`
are the line ends after that, all with the last character first. -/
def blockLines (literal : Bool) (chomp : Chomp) (start : Mark) (indent : Nat) : (fuel : Nat) →
    (text first more : List Char) → (blankBefore : Bool) → Cursor → Except Problem Written
  | 0, text, _, _, _, c => .ok ⟨text.reverse, true, c⟩
  | fuel + 1, text, first, more, blankBefore, c => do
    c.demand 1
    if c.mark.column ≠ indent || c.rest.isEmpty then
      let text := if chomp = .strip then text else first ++ text
      let text := if chomp = .keep then more ++ text else text
      return ⟨text.reverse, true, c⟩
    let blank := c.sees isBlank
    let folds := !literal && !blankBefore && !blank && first.head? == some '\n'
    let joined := if folds then if more.isEmpty then [' '] else [] else first
    let line := c.rest.takeWhile fun x => !isBreak x
    let text := line.reverse ++ more ++ joined ++ text
    let c := c.skip line.length
    let first := (c.rest.take 1).map breakText
    let (more, _, c) ← blockBreaks start indent (c.extent + 1) 0 [] c.next
    blockLines literal chomp start indent fuel text first more blank c

/-- A block of lines, at the mark that starts it, within a collection at column `outer`. -/
def block (literal : Bool) (outer : Int) (c : Cursor) : Except Problem Written := do
  let start := c.mark
  let (chomp, width, c) ← blockMarks c
  let c := c.skipBlanks
  let c := if c.starts '#' then c.skipLine else c
  if !endsToken c.rest then
    throw (c.problem start "did not find expected comment or line break")
  let c := c.next
  let given := if width = 0 then 0 else (max outer 0).toNat + width
  let (more, deepest, c) ← blockBreaks start given (c.extent + 1) 0 [] c
  let indent := if given = 0 then max (max deepest (outer + 1).toNat) 1 else given
  blockLines literal chomp start indent (c.extent + 1) [] [] more false c

end Lox.Yaml
