import Lox.Yaml.Token

/-! The tokens of a YAML text one after another. Block collections show in the indentation and keys
in the colon after them, so a token is handed out only when those after it are known that may change
what stands before it. -/
namespace Lox.Yaml

/-- A place where a key may start that has no mark of its own. -/
structure PossibleKey where
  /-- The number of the token that starts the key. -/
  number : Nat
  mark : Mark := {}
  /-- Nothing but a key can stand here. -/
  required : Bool := false
  /-- A colon may still follow. -/
  isOpen : Bool := false

/-- A key ends in the line it starts in, and within 1024 characters. -/
def PossibleKey.isPast (k : PossibleKey) (m : Mark) : Bool :=
  k.mark.line < m.line || k.mark.index + 1024 < m.index

/-- The tokens of a text from some place on. -/
structure Tokens where
  cursor : Cursor
  /-- Tokens that are read and not handed out. -/
  ready : List Token := []
  /-- How many tokens were handed out. -/
  taken : Nat := 0
  /-- A key may start here. -/
  keyAllowed : Bool := true
  /-- The last place in the innermost collection where a key may have started. Until there is one,
  its number is that of the token that starts the collection. -/
  lastKey : PossibleKey := { number := 0 }
  /-- The same for the collections around the innermost flow collection. -/
  outerKeys : List PossibleKey := []
  /-- The numbers of the tokens that are held back since they may start a key, each with how many
  flow collections are around it. -/
  heldBack : List (Nat × Nat) := []
  /-- The column of the innermost block collection, or -1. -/
  indent : Int := -1
  outerIndents : List Int := []

abbrev Reading := StateT Tokens (Except Problem)

namespace Tokens

/-- This place is within a flow collection. -/
def inFlow (t : Tokens) : Bool := !t.outerKeys.isEmpty

/-- The number of the next token to be read. -/
def number (t : Tokens) : Nat := t.taken + t.ready.length

def fail {α : Type} (start : Mark) (what : String) : Reading α := do
  throw ((← get).cursor.problem start what)

def push (kind : Token.Kind) (mark : Mark) : Reading Unit :=
  modify fun t => { t with ready := t.ready ++ [⟨kind, mark⟩] }

/-- Puts a token before the one with a number, or last if that one was handed out. -/
def insert (number : Nat) (kind : Token.Kind) (mark : Mark) : Reading Unit :=
  modify fun t =>
    let place := if number < t.taken then t.ready.length else number - t.taken
    { t with ready := t.ready.insertIdx place ⟨kind, mark⟩ }

def missingColon (k : PossibleKey) : Reading Unit := fail k.mark "could not find expected ':'"

/-- A token is not held back any more. -/
def release (number : Nat) : Reading Unit :=
  modify fun t => { t with heldBack := t.heldBack.filter (·.1 ≠ number) }

/-- No colon follows the last key of the innermost collection. -/
def closeKey : Reading Unit :=
  modify fun t => { t with lastKey := { t.lastKey with isOpen := false } }

/-- No key has started in the innermost collection. -/
def dropKey : Reading Unit := do
  let k := (← get).lastKey
  if k.isOpen then
    if k.required then missingColon k
    closeKey
    release k.number

/-- A key may start with the next token. -/
def markKey : Reading Unit := do
  if (← get).keyAllowed then
    dropKey
    modify fun t =>
      let required := !t.inFlow && t.indent = (t.cursor.mark.column : Int)
      { t with lastKey := ⟨t.number, t.cursor.mark, required, true⟩
               heldBack := (t.number, t.outerKeys.length) :: t.heldBack }

/-- The key that has started in the innermost collection and can still end here. -/
def openKey? : Reading (Option PossibleKey) := do
  let k := (← get).lastKey
  if !k.isOpen then return none
  else if k.isPast (← get).cursor.mark then
    if k.required then missingColon k
    closeKey
    return none
  else return some k

/-- Starts a block collection if `column` is beyond the innermost one. -/
def indentTo (column : Nat) (number : Nat) (kind : Token.Kind) (mark : Mark) : Reading Unit := do
  let t ← get
  if !t.inFlow && t.indent < (column : Int) then
    set { t with indent := (column : Int), outerIndents := t.indent :: t.outerIndents }
    insert number kind mark

/-- Ends the block collections that are beyond `column`. -/
def dedentTo (column : Int) (mark : Mark) (indent : Int) : (outer : List Int) → Reading Unit
  | [] => modify fun t => { t with indent, outerIndents := [] }
  | before :: outer =>
    if column < indent then do
      push .blockEnd mark
      dedentTo column mark before outer
    else modify fun t => { t with indent, outerIndents := before :: outer }

def dedent (column : Int) (mark : Mark) : Reading Unit := do
  let t ← get
  if !t.inFlow then dedentTo column mark t.indent t.outerIndents

/-- The end of the last of the comments here that have only blanks and line feeds between them, less
than 512 in each gap. -/
def commentsEnd : (fuel : Nat) → Cursor → Cursor
  | 0, c => c
  | fuel + 1, c =>
    let ended := c.skipLine
    let later := ended.skipWhile fun x => isBlank x || x = '\n'
    if later.starts '#' && later.mark.index - ended.mark.index < 512 then commentsEnd fuel later
    else ended

/-- Skips blanks, comments and line ends. A tab is no blank where a key may start. -/
def skipToToken : (fuel : Nat) → Reading Unit
  | 0 => return
  | fuel + 1 => do
    let t ← get
    let c := if t.cursor.mark.index = 0 && t.cursor.starts '\ufeff' then t.cursor.next else t.cursor
    let c := c.skipWhile fun x => x = ' ' || ((t.inFlow || !t.keyAllowed) && x = '\t')
    let c := if c.starts '#' then commentsEnd c.extent c else c
    if c.sees isBreak then
      set { t with cursor := c.next, keyAllowed := t.keyAllowed || !t.inFlow }
      skipToToken fuel
    else set { t with cursor := c }

/-- Skips a comment in the line of the last token. -/
def skipLineComment : Reading Unit :=
  modify fun t =>
    let c := t.cursor.skipBlanks
    if !t.cursor.fresh && c.starts '#' then { t with cursor := c.skipLine } else t

/-- Reads a token of `n` characters. -/
def mark (kind : Token.Kind) (n : Nat) : Reading Unit := do
  push kind (← get).cursor.mark
  modify fun t => { t with cursor := t.cursor.skip n }

def allowKey (b : Bool) : Reading Unit := modify fun t => { t with keyAllowed := b }

/-- What ends every block collection. -/
def endBlocks : Reading Unit := do
  dedent (-1) (← get).cursor.mark
  dropKey
  allowKey false

def streamEnd : Reading Unit := do
  modify fun t =>
    let m := t.cursor.mark
    if m.column = 0 then t
    else { t with cursor := { t.cursor with mark := { m with line := m.line + 1, column := 0 } } }
  endBlocks
  mark .streamEnd 0

/-- Reads a token that a function knows how to read. -/
def take (read : Cursor → Token.Reading) : Reading Unit := do
  let t ← get
  let (kind, c) ← read t.cursor
  push kind t.cursor.mark
  modify fun t => { t with cursor := c }

def directive : Reading Unit := do
  endBlocks
  take Token.directive

def documentMark (kind : Token.Kind) : Reading Unit := do
  endBlocks
  mark kind 3

def flowStart (kind : Token.Kind) : Reading Unit := do
  markKey
  modify fun t =>
    { t with lastKey := { number := t.number }, outerKeys := t.lastKey :: t.outerKeys }
  allowKey true
  mark kind 1

/-- Ends a flow collection. The token that started it is not held back if nothing in it could have
been a key. -/
def flowEnd (kind : Token.Kind) : Reading Unit := do
  dropKey
  let t ← get
  if let lastKey :: outerKeys := t.outerKeys then
    release t.lastKey.number
    modify fun t => { t with lastKey, outerKeys }
  allowKey false
  mark kind 1

def separator : Reading Unit := do
  dropKey
  allowKey true
  mark .separator 1

/-- Starts a block collection here if need be, where one may start. -/
def startBlock (kind : Token.Kind) (otherwise : String) : Reading Unit := do
  let t ← get
  if !t.inFlow then
    if !t.keyAllowed then fail t.cursor.mark otherwise
    indentTo t.cursor.mark.column t.number kind t.cursor.mark

def item : Reading Unit := do
  startBlock .blockSequence "block sequence entries are not allowed in this context"
  dropKey
  allowKey true
  mark .item 1

def key : Reading Unit := do
  startBlock .blockMapping "mapping keys are not allowed in this context"
  dropKey
  allowKey !(← get).inFlow
  mark .key 1

/-- Reads a colon, before which a key stands that may have no mark of its own yet. -/
def value : Reading Unit := do
  match ← openKey? with
  | some k =>
    insert k.number .key k.mark
    indentTo k.mark.column k.number .blockMapping k.mark
    closeKey
    release k.number
    allowKey false
  | none =>
    startBlock .blockMapping "mapping values are not allowed in this context"
    allowKey !(← get).inFlow
  mark .value 1

/-- Reads a token that may start a key, and after which none may start. -/
def named (read : Cursor → Token.Reading) : Reading Unit := do
  markKey
  allowKey false
  take read

/-- Reads a scalar that may be a key. -/
def inlineScalar (isPlain : Bool) (read : Cursor → Except Problem Written) : Reading Unit := do
  markKey
  allowKey false
  let t ← get
  let written ← read t.cursor
  push (.scalar isPlain (encode written.text)) t.cursor.mark
  modify fun t => { t with cursor := written.cursor, keyAllowed := written.lineEnd }

def blockScalar (literal : Bool) : Reading Unit := do
  dropKey
  allowKey true
  let t ← get
  let written ← block literal t.indent t.cursor
  push (.scalar false (encode written.text)) t.cursor.mark
  modify fun t => { t with cursor := written.cursor }

/-- A character that has a meaning of its own at the start of a token. -/
def isIndicator (x : Char) : Bool :=
  [',', '[', ']', '\x7b', '\x7d', '#', '&', '*', '!', '|', '>', '\'', '"', '%', '@',
   '\x60'].contains x

/-- A plain scalar can start with these characters: all but marks, and a mark that has another
meaning only before a blank. -/
def startsPlain (flow : Bool) : List Char → Bool
  | [] => false
  | x :: rest =>
    if x = '-' then !rest.head?.any isBlank
    else if x = '?' || x = ':' then !flow && !endsToken rest
    else !(isBlank x || isBreak x || isIndicator x)

/-- Reads a token that starts with `x`, before `rest`. -/
def readAt (x : Char) (rest : List Char) : Reading Unit := do
  let t ← get
  let flow := t.inFlow
  if x = '[' then flowStart .flowSequence
  else if x = '\x7b' then flowStart .flowMapping
  else if x = ']' then flowEnd .flowSequenceEnd
  else if x = '\x7d' then flowEnd .flowMappingEnd
  else if x = ',' then separator
  else if x = '?' && (flow || endsToken rest) then key
  else if x = ':' && (flow || endsToken rest) then value
  else if x = '*' then named Token.referenceName
  else if x = '&' then named Token.anchorName
  else if x = '!' then named Token.tagName
  else if x = '|' && !flow then blockScalar true
  else if x = '>' && !flow then blockScalar false
  else if x = '\'' || x = '"' then inlineScalar false (quoted x)
  else if startsPlain flow (x :: rest) then inlineScalar true (plain flow (t.indent + 1))
  else fail t.cursor.mark "found character that cannot start any token"

/-- Reads one token more. -/
def readNext : Reading Unit := do
  let before := (← get).cursor.mark
  (← get).cursor.demand 1
  skipToToken ((← get).cursor.extent + 1)
  dedent (← get).cursor.mark.column before
  let c := (← get).cursor
  c.demand 4
  match c.rest with
  | [] => streamEnd
  | x :: rest =>
    if c.mark.column = 0 && x = '%' then directive
    else if c.mark.column = 0 && c.startsWord ['-', '-', '-'] then documentMark .documentStart
    else if c.mark.column = 0 && c.startsWord ['.', '.', '.'] then documentMark .documentEnd
    else if x = '-' && endsToken rest then item
    else do
      readAt x rest
      skipLineComment

/-- The last key of the collection with so many flow collections around it. -/
def keyWithin? (t : Tokens) (depth : Nat) : Option PossibleKey :=
  (t.lastKey :: t.outerKeys).reverse[depth]?

/-- No colon follows the last key of that collection. -/
def closeKeyWithin (t : Tokens) (depth : Nat) : Tokens :=
  let close (k : PossibleKey) : PossibleKey := { k with isOpen := false }
  if depth = t.outerKeys.length then { t with lastKey := close t.lastKey }
  else { t with outerKeys := t.outerKeys.modify (t.outerKeys.length - 1 - depth) close }

/-- The next token may turn out to start a key. -/
def headIsOpen : Reading Bool := do
  let t ← get
  match t.heldBack.lookup t.taken with
  | none => return false
  | some depth =>
    match t.keyWithin? depth with
    | none => return false
    | some k =>
      if k.isOpen && k.isPast t.cursor.mark then
        if k.required then missingColon k
        set (t.closeKeyWithin depth)
        return false
      else return k.isOpen

/-- Fewer than two tokens stand after the next one, or something may come before it. -/
def needsMore : Reading Bool := do
  if (← get).ready.length < 3 then return true else headIsOpen

/-- Reads tokens until no more are needed to hand out the next one. -/
def prepare : (fuel : Nat) → Reading Unit
  | 0 => return
  | fuel + 1 => do
    if ← needsMore then
      readNext
      prepare fuel

/-- The next token, which stays the next one. -/
def peek : Reading Token := do
  prepare ((← get).cursor.extent + 8)
  let t ← get
  return t.ready.headD ⟨.streamEnd, t.cursor.mark⟩

/-- Hands out the next token. -/
def drop : Reading Unit :=
  modify fun t => { t with ready := t.ready.drop 1, taken := t.taken + 1 }

end Tokens
end Lox.Yaml
