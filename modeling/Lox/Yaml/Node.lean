import Lox.Yaml.Scalar
import Lox.Yaml.Tokens

/-! YAML documents as trees of scalars, sequences and mappings. -/
namespace Lox.Yaml

/-- A node, with the number of its first line and with its tag in the short form. -/
inductive Node where
  | scalar (line : Nat) (tag text : Bytes)
  | sequence (line : Nat) (tag : Bytes) (items : List Node)
  | mapping (line : Nat) (tag : Bytes) (entries : List (Node × Node))
  /-- The node with an anchor, by its name and by its number among those with an anchor. -/
  | reference (line : Nat) (name : Bytes) (number : Nat)

def Node.line : Node → Nat
  | scalar line _ _ | sequence line _ _ | mapping line _ _ | reference line _ _ => line

/-- A document: its root and the nodes with an anchor. -/
structure Document where
  root : Node
  anchored : List (Nat × Node) := []
  /-- How many characters the text has. -/
  extent : Nat

namespace Document

def node? (d : Document) (number : Nat) : Option Node := d.anchored.lookup number

/-- More than there are nodes on any way down from the root that passes each anchor once. -/
def depthBound (d : Document) : Nat := 4 * (d.extent + 2) * (d.anchored.length + 2)

end Document

/-- The names that are known at some place in a document. -/
structure Names where
  /-- The start of tags that a handle stands for. -/
  handles : List (Bytes × Bytes) := []
  /-- The number of the last node with an anchor of this name. -/
  anchors : List (Bytes × Nat) := []
  /-- The nodes with an anchor that are read already. -/
  anchored : List (Nat × Node) := []

/-- Reading nodes from tokens. -/
abbrev Building := StateT Names Reading

namespace Building

def peek : Building Token := liftM Tokens.peek

def drop : Building Unit := liftM Tokens.drop

/-- A problem at a token within something that starts at `start`. -/
def fail {α : Type} (start : Mark) (what : String) (token : Token) : Building α :=
  throw (.ofStructure start.line token.mark.line what)

/-- The node of a missing value. -/
def emptyNode (mark : Mark) : Node := .scalar (mark.line + 1) (utf8 "!!null") []

/-- The short form of a tag. -/
def shortTag (tag : Bytes) : Bytes :=
  match Bytes.after? (utf8 "tag:yaml.org,2002:") tag with
  | some rest => utf8 "!!" ++ rest
  | none => tag

/-- The anchor and the tag before a node. -/
structure Properties where
  anchor : Option Bytes := none
  tag : Option (Token × Bytes × Bytes) := none

/-- The properties of the next node, at most one of each kind. -/
def properties : (fuel : Nat) → Properties → Building Properties
  | 0, p => return p
  | fuel + 1, p => do
    let token ← peek
    match token.kind, p.anchor, p.tag with
    | .anchor name, none, _ => do
      drop
      properties fuel { p with anchor := some name }
    | .tag handle rest, _, none => do
      drop
      properties fuel { p with tag := some (token, handle, rest) }
    | _, _, _ => return p

/-- The tag of a node in the short form. A lone exclamation mark gives none. -/
def tagOf (start : Mark) (p : Properties) : Building (Option Bytes) := do
  match p.tag with
  | none => return none
  | some (token, handle, rest) =>
    let full ←
      if handle.isEmpty then pure rest
      else
        match (← get).handles.lookup handle with
        | some first => pure (first ++ rest)
        | none => fail start "found undefined tag handle" token
    return if full = utf8 "!" then none else some (shortTag full)

/-- The number for the node that comes next, if it has an anchor. -/
def register (p : Properties) : Building (Option Nat) := do
  match p.anchor with
  | none => return none
  | some name =>
    let number := (← get).anchors.length
    modify fun s => { s with anchors := (name, number) :: s.anchors }
    return some number

/-- Keeps a node under the number of its anchor. -/
def keep (number : Option Nat) (node : Node) : Building Node := do
  if let some n := number then
    modify fun s => { s with anchored := (n, node) :: s.anchored }
  return node

/-- The tag of a scalar that gives none: a quoted one is a text, and a plain one shows in its
text. -/
def scalarTag (isPlain : Bool) (text : Bytes) : Bytes :=
  if !isPlain then utf8 "!!str"
  else if text = utf8 "<<" then utf8 "!!merge"
  else (Scalar.ofPlain text).tag

mutual

/-- A node. Block collections start only in block context, and a sequence as the value of a key may
be indented as the key is. -/
def node : (fuel : Nat) → (inBlock besideKey : Bool) → Building Node
  | 0, _, _ => throw { what := utf8 "did not find expected node content" }
  | fuel + 1, inBlock, besideKey => do
    let first ← peek
    let start := first.mark
    let line := start.line + 1
    match first.kind with
    | .reference name => do
      drop
      match (← get).anchors.lookup name with
      | some number => return .reference line name number
      | none => throw { what := utf8 "unknown anchor '" ++ name ++ utf8 "' referenced" }
    | _ => do
      let p ← properties 2 {}
      let token ← peek
      let tag ← tagOf start p
      match token.kind with
      | .scalar isPlain text => do
        let number ← register p
        drop
        keep number (.scalar line (tag.getD (scalarTag isPlain text)) text)
      | .flowSequence => do
        let number ← register p
        drop
        let items ← flowItems fuel token.mark true []
        keep number (.sequence line (tag.getD (utf8 "!!seq")) items)
      | .flowMapping => do
        let number ← register p
        drop
        let entries ← flowEntries fuel token.mark true []
        keep number (.mapping line (tag.getD (utf8 "!!map")) entries)
      | kind => do
        if besideKey && kind = .item then
          let number ← register p
          let items ← besideItems fuel []
          keep number (.sequence line (tag.getD (utf8 "!!seq")) items)
        else if inBlock && kind = .blockSequence then
          let number ← register p
          drop
          let items ← blockItems fuel token.mark []
          keep number (.sequence line (tag.getD (utf8 "!!seq")) items)
        else if inBlock && kind = .blockMapping then
          let number ← register p
          drop
          let entries ← blockEntries fuel token.mark []
          keep number (.mapping line (tag.getD (utf8 "!!map")) entries)
        else if p.anchor.isSome || p.tag.isSome then
          let number ← register p
          keep number (.scalar line (tag.getD (utf8 "!!null")) [])
        else fail start "did not find expected node content" token

/-- The items of a block sequence up to its end; those of `before` are in reverse order. -/
def blockItems : (fuel : Nat) → (start : Mark) → (before : List Node) → Building (List Node)
  | 0, _, before => return before.reverse
  | fuel + 1, start, before => do
    let token ← peek
    match token.kind with
    | .item => do
      drop
      let next ← peek
      match next.kind with
      | .item | .blockEnd => blockItems fuel start (emptyNode token.mark :: before)
      | _ => blockItems fuel start ((← node fuel true false) :: before)
    | .blockEnd => do
      drop
      return before.reverse
    | _ => fail start "did not find expected '-' indicator" token

/-- The items of a sequence that is indented as the key before it. -/
def besideItems : (fuel : Nat) → (before : List Node) → Building (List Node)
  | 0, before => return before.reverse
  | fuel + 1, before => do
    let token ← peek
    match token.kind with
    | .item => do
      drop
      let next ← peek
      match next.kind with
      | .item | .key | .value | .blockEnd => besideItems fuel (emptyNode token.mark :: before)
      | _ => besideItems fuel ((← node fuel true false) :: before)
    | _ => return before.reverse

/-- The entries of a block mapping up to its end; those of `before` are in reverse order. -/
def blockEntries : (fuel : Nat) → (start : Mark) → (before : List (Node × Node)) →
    Building (List (Node × Node))
  | 0, _, before => return before.reverse
  | fuel + 1, start, before => do
    let token ← peek
    match token.kind with
    | .key => do
      drop
      let key ← blockPart fuel token.mark
      let colon ← peek
      match colon.kind with
      | .value => do
        drop
        let value ← blockPart fuel colon.mark
        blockEntries fuel start ((key, value) :: before)
      | _ => blockEntries fuel start ((key, emptyNode colon.mark) :: before)
    | .blockEnd => do
      drop
      return before.reverse
    | _ => fail start "did not find expected key" token

/-- A key or a value of a block mapping, which may be missing. -/
def blockPart : (fuel : Nat) → (mark : Mark) → Building Node
  | 0, mark => return emptyNode mark
  | fuel + 1, mark => do
    match (← peek).kind with
    | .key | .value | .blockEnd => return emptyNode mark
    | _ => node fuel true true

/-- The items of a flow sequence up to its bracket; those of `before` are in reverse order. -/
def flowItems : (fuel : Nat) → (start : Mark) → (isFirst : Bool) → (before : List Node) →
    Building (List Node)
  | 0, _, _, before => return before.reverse
  | fuel + 1, start, isFirst, before => do
    let token ← peek
    if token.kind = .flowSequenceEnd then
      drop
      return before.reverse
    else
      if !isFirst then
        if token.kind = .separator then drop
        else fail start "did not find expected ',' or ']'" token
      let token ← peek
      match token.kind with
      | .flowSequenceEnd => do
        drop
        return before.reverse
      | .key => do
        drop
        let entry ← flowPair fuel
        let pair := Node.mapping (token.mark.line + 1) (utf8 "!!map") [entry]
        flowItems fuel start false (pair :: before)
      | _ => flowItems fuel start false ((← node fuel false false) :: before)

/-- A key with its value as an item of a flow sequence. -/
def flowPair : (fuel : Nat) → Building (Node × Node)
  | 0 => throw { what := utf8 "did not find expected node content" }
  | fuel + 1 => do
    let token ← peek
    let key ←
      match token.kind with
      | .value | .separator | .flowSequenceEnd => do
        drop
        pure (emptyNode token.mark)
      | _ => node fuel false false
    let colon ← peek
    if colon.kind = .value then
      drop
      let next ← peek
      match next.kind with
      | .separator | .flowSequenceEnd => return (key, emptyNode next.mark)
      | _ => return (key, ← node fuel false false)
    else return (key, emptyNode colon.mark)

/-- The entries of a flow mapping up to its brace; those of `before` are in reverse order. -/
def flowEntries : (fuel : Nat) → (start : Mark) → (isFirst : Bool) →
    (before : List (Node × Node)) → Building (List (Node × Node))
  | 0, _, _, before => return before.reverse
  | fuel + 1, start, isFirst, before => do
    let token ← peek
    if token.kind = .flowMappingEnd then
      drop
      return before.reverse
    else
      if !isFirst then
        if token.kind = .separator then drop
        else fail start "did not find expected ',' or '\x7d'" token
      let token ← peek
      match token.kind with
      | .flowMappingEnd => do
        drop
        return before.reverse
      | .key => do
        drop
        let next ← peek
        let key ←
          match next.kind with
          | .value | .separator | .flowMappingEnd => pure (emptyNode next.mark)
          | _ => node fuel false false
        let value ← flowValue fuel
        flowEntries fuel start false ((key, value) :: before)
      | _ => do
        let key ← node fuel false false
        let after ← peek
        flowEntries fuel start false ((key, emptyNode after.mark) :: before)

/-- The value of a flow mapping after its key, which may be missing. -/
def flowValue : (fuel : Nat) → Building Node
  | 0 => throw { what := utf8 "did not find expected node content" }
  | fuel + 1 => do
    let token ← peek
    if token.kind = .value then
      drop
      let next ← peek
      match next.kind with
      | .separator | .flowMappingEnd => return emptyNode next.mark
      | _ => node fuel false false
    else return emptyNode token.mark

end

/-- The handles that every document has. -/
def defaultHandles : List (Bytes × Bytes) :=
  [(utf8 "!", utf8 "!"), (utf8 "!!", utf8 "tag:yaml.org,2002:")]

/-- The directives before a document: at most one for the version and one for each handle. -/
def directives : (fuel : Nat) → (hasVersion : Bool) → Building Unit
  | 0, _ => return
  | fuel + 1, hasVersion => do
    let token ← peek
    match token.kind with
    | .version major minor => do
      if hasVersion then fail {} "found duplicate %YAML directive" token
      if major ≠ 1 || minor ≠ 1 then fail {} "found incompatible YAML document" token
      drop
      directives fuel true
    | .handle name start => do
      if ((← get).handles.lookup name).isSome then fail {} "found duplicate %TAG directive" token
      modify fun s => { s with handles := s.handles ++ [(name, start)] }
      drop
      directives fuel hasVersion
    | _ => modify fun s => { s with handles := s.handles ++ defaultHandles }

/-- The root of the first document, if there is one. The tokens right after it are looked at. -/
def root (fuel : Nat) : Building (Option Node) := do
  let token ← peek
  match token.kind with
  | .streamEnd => return none
  | .version _ _ | .handle _ _ | .documentStart => do
    directives fuel false
    let token ← peek
    if token.kind ≠ .documentStart then
      fail {} "did not find expected <document start>" token
    drop
    let token ← peek
    let node ←
      match token.kind with
      | .version _ _ | .handle _ _ | .documentStart | .documentEnd | .streamEnd =>
        pure (emptyNode token.mark)
      | _ => node fuel true false
    discard peek
    return some node
  | _ => do
    directives fuel false
    let node ← node fuel true false
    discard peek
    return some node

end Building

/-- Reads the first document of a text, if there is one. -/
def read (text : Bytes) : Except Problem (Option Document) := do
  let fuel := 8 * text.length + 64
  let ((node, names), _) ← ((Building.root fuel).run {}).run { cursor := .ofText text }
  return node.map fun root => { root, anchored := names.anchored, extent := text.length }

end Lox.Yaml
