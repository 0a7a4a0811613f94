import Lox.Settings.Basic
import Lox.Yaml.Node

/-! Settings from a YAML document. Each key sets a field, and a merge key stands for the entries of
other mappings that the mapping itself does not have. -/
namespace Lox.Settings
open Yaml (Document Node Problem Scalar)

/-- Reading a document gathers what does not fit, last one first. -/
abbrev Decoding := StateT (List SettingsMismatch) (Except Problem)

def note (m : SettingsMismatch) : Decoding Unit := modify (m :: ·)

/-- A kind of value: its name, and the value that a scalar stands for. -/
structure ValueKind (α : Type) where
  name : String
  ofScalar? : Scalar → (text : Bytes) → Option α

namespace ValueKind

/-- A text is a scalar as it is written. -/
def text : ValueKind Bytes := ⟨"string", fun _ text => some text⟩

/-- Further words for truth values. -/
def word? (text : Bytes) : Option Bool :=
  if Bytes.isOneOf ["y", "Y", "yes", "Yes", "YES", "on", "On", "ON"] text then some true
  else if Bytes.isOneOf ["n", "N", "no", "No", "NO", "off", "Off", "OFF"] text then some false
  else none

def flag : ValueKind Bool := ⟨"bool", fun scalar text =>
  match scalar with
  | .bool b => some b
  | .string => word? text
  | _ => none⟩

/-- The whole part of a number, as a number of 64 bits. -/
def truncate (x : Float) : Int :=
  if -9223372036854775808.0 ≤ x && x < 9223372036854775808.0 then x.toInt64.toInt else -Int.pow 2 63

def count : ValueKind Int := ⟨"int", fun scalar _ =>
  match scalar with
  | .int n => if n < Int.pow 2 63 then some n else none
  | .float x => if x ≤ 9223372036854775808.0 then some (truncate x) else none
  | _ => none⟩

/-- The settings as a whole are no scalar. -/
def settings : ValueKind Settings := ⟨"config.Config", fun _ _ => none⟩

end ValueKind

/-- Two keys are the same. Collections as keys are all alike. -/
def sameKey : Node → Node → Bool
  | .scalar _ _ a, .scalar _ _ b => a == b
  | .sequence _ _ _, .sequence _ _ _ => true
  | .mapping _ _ _, .mapping _ _ _ => true
  | .reference _ a _, .reference _ b _ => a == b
  | _, _ => false

def keyText : Node → Bytes
  | .scalar _ _ text => text
  | .reference _ name _ => name
  | _ => []

/-- Each pair of keys that are the same, the earlier key before the later. -/
def repeatedKeys : List (Node × Node) → List SettingsMismatch
  | [] => []
  | (key, _) :: entries =>
    (entries.filterMap fun (other, _) =>
      if sameKey key other then some (.repeatedKey other.line (keyText other) key.line) else none)
      ++ repeatedKeys entries

/-- The text of a collection in a mismatch: none, unless it has a tag of its own. -/
def collectionText (tag : Bytes) : Option Bytes :=
  if Bytes.isOneOf ["!!seq", "!!map"] tag then none else some []

/-- The value of a node, unless it stands for no value or is of another kind. -/
def value? {α : Type} (kind : ValueKind α) : Node → Decoding (Option α)
  | .scalar line tag text => do
    match ← Scalar.ofTagged tag text with
    | .null => return none
    | scalar =>
      match kind.ofScalar? scalar text with
      | some value => return some value
      | none => do
        note (.wrongType line tag (some text) kind.name)
        return none
  | .sequence line tag _ => do
    note (.wrongType line tag (collectionText tag) kind.name)
    return none
  | .mapping line tag entries => do
    match repeatedKeys entries with
    | [] => note (.wrongType line tag (collectionText tag) kind.name)
    | repeated => repeated.forM note
    return none
  | .reference _ _ _ => return none

/-- The node that a node stands for. -/
def resolve (d : Document) (node : Node) : Node :=
  match node with
  | .reference _ _ number => (d.node? number).getD node
  | _ => node

/-- Sets the field of a name to the value of a node; `none` if there is no such field. -/
def set? (d : Document) (s : Settings) (name : Bytes) (node : Node) : Option (Decoding Settings) :=
  let node := resolve d node
  let take {α : Type} (kind : ValueKind α) (put : α → Settings) : Option (Decoding Settings) :=
    some do return (← value? kind node).elim s put
  if name = utf8 "prompt" then take .text ({ s with prompt := · })
  else if name = utf8 "history_file" then take .text ({ s with historyFile := · })
  else if name = utf8 "color" then take .flag ({ s with colour := · })
  else if name = utf8 "log_level" then take .text ({ s with logLevel := · })
  else if name = utf8 "max_call_depth" then take .count ({ s with maxCallDepth := · })
  else none

/-- A merge key. -/
def isMerge : Node → Bool
  | .scalar _ tag text => tag = utf8 "!!merge" && text = utf8 "<<"
  | _ => false

/-- Settings that are being read. -/
structure Draft where
  settings : Settings := {}
  /-- Within a merge: the names that are given already, which stay as they are. -/
  given : Option (List Bytes) := none

/-- Applies the entries of a mapping in order; `fields` are set by those before. -/
def applyEntries (d : Document) (p : Draft) (fields : List Bytes) :
    List (Node × Node) → Decoding Draft
  | [] => return p
  | (key, node) :: entries => do
    if isMerge key then applyEntries d p fields entries
    else
      match ← value? .text (resolve d key) with
      | none => applyEntries d p fields entries
      | some name =>
        if p.given.any (·.contains name) then applyEntries d p fields entries
        else
          let p := { p with given := p.given.map (name :: ·) }
          match set? d p.settings name node with
          | none => do
            note (.unknownField key.line name)
            applyEntries d p fields entries
          | some change =>
            if fields.contains name then do
              note (.repeatedField key.line name)
              applyEntries d p fields entries
            else do
              let settings ← change
              applyEntries d { p with settings } (name :: fields) entries

/-- The names that a mapping gives, which no merge changes. A mapping as a key is read again here, so
its own repeated keys are noted once more. -/
def ownNames (d : Document) (entries : List (Node × Node)) : Decoding (List Bytes) := do
  let names ← entries.mapM fun (key, _) => do
    match resolve d key with
    | .scalar _ tag text => do
      match ← Scalar.ofTagged tag text with
      | .string => return [text]
      | _ => return []
    | .mapping _ _ entries => do
      (repeatedKeys entries).forM note
      return []
    | _ => return []
  return names.flatten

def notMergeable : Problem :=
  { what := utf8 "map merge requires map or sequence of maps as the value" }

mutual

/-- Applies a mapping: its entries, and then those of the mappings that it merges. -/
def applyMapping (d : Document) : (fuel : Nat) → (active : List Nat) → Draft →
    List (Node × Node) → Decoding Draft
  | 0, _, p, _ => return p
  | fuel + 1, active, p, entries => do
    match repeatedKeys entries with
    | [] => do
      let p ← applyEntries d p [] entries
      match entries.find? fun (key, _) => isMerge key with
      | none => return p
      | some (_, node) =>
        match p.given with
        | some _ => merge d fuel active p node
        | none => do
          let own ← ownNames d entries
          let merged ← merge d fuel active { p with given := some own } node
          return { merged with given := none }
    | repeated => do
      repeated.forM note
      return p

/-- Merges a mapping or a sequence of mappings, of which the earlier ones win. -/
def merge (d : Document) : (fuel : Nat) → (active : List Nat) → Draft → Node → Decoding Draft
  | 0, _, p, _ => return p
  | fuel + 1, active, p, node =>
    match node with
    | .sequence _ _ items => items.foldlM (mergeOne d fuel active) p
    | node => mergeOne d fuel active p node

/-- Merges one mapping. A mapping that merges itself is refused. -/
def mergeOne (d : Document) : (fuel : Nat) → (active : List Nat) → Draft → Node →
    Decoding Draft
  | 0, _, p, _ => return p
  | fuel + 1, active, p, node =>
    match node with
    | .mapping _ _ entries => applyMapping d fuel active p entries
    | .reference _ name number =>
      match d.node? number with
      | some (.mapping _ _ entries) =>
        if active.contains number then
          throw { what := utf8 "anchor '" ++ name ++ utf8 "' value contains itself" }
        else applyMapping d fuel (number :: active) p entries
      | _ => throw notMergeable
    | _ => throw notMergeable

end

/-- The built-in settings with those of a document on top, and what does not fit. -/
def ofDocument (d : Document) : Except Problem (Settings × List SettingsMismatch) := do
  let decoding : Decoding Settings :=
    match d.root with
    | .mapping _ _ entries => do
      let draft ← applyMapping d d.depthBound [] {} entries
      return draft.settings
    | root => do
      discard (value? .settings root)
      return {}
  let (s, found) ← decoding.run []
  return (s, found.reverse)

end Lox.Settings
