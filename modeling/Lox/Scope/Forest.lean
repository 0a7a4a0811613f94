import Lox.Value

/-! Scopes and the forest that they form. Every scope but a root has an older parent, in which names
are looked up that the scope itself does not bind. -/
namespace Lox

/-- The names bound in a scope, and the scope around it. -/
structure Scope where
  bindings : List (Bytes × Value) := []
  parent : Option ScopeId := none

namespace Scope

def find? (s : Scope) (name : Bytes) : Option Value := s.bindings.lookup name

/-- Rebinds `name` where it is bound already, and binds it last otherwise. -/
def insert (name : Bytes) (value : Value) : List (Bytes × Value) → List (Bytes × Value)
  | [] => [(name, value)]
  | (n, v) :: rest =>
    if n == name then (n, value) :: rest else (n, v) :: insert name value rest

def bind (s : Scope) (name : Bytes) (value : Value) : Scope :=
  { s with bindings := insert name value s.bindings }

end Scope

/-- All scopes, oldest first. -/
abbrev Forest := Array Scope

namespace Forest

/-- The scopes from `id` outwards, at most `fuel` of them. -/
def chainFrom (f : Forest) : (fuel : Nat) → ScopeId → List ScopeId
  | 0, _ => []
  | fuel + 1, id =>
    match f[id]? with
    | none => []
    | some s =>
      match s.parent with
      | none => [id]
      | some p => id :: chainFrom f fuel p

/-- The scopes from `id` outwards. -/
def chain (f : Forest) (id : ScopeId) : List ScopeId := chainFrom f f.size id

/-- The nearest of at most `fuel` scopes from `id` outwards that binds `name`. -/
def ownerFrom (f : Forest) (name : Bytes) : (fuel : Nat) → ScopeId → Option ScopeId
  | 0, _ => none
  | fuel + 1, id =>
    match f[id]? with
    | none => none
    | some s =>
      if (s.find? name).isSome then some id
      else
        match s.parent with
        | none => none
        | some p => ownerFrom f name fuel p

/-- The scope in which `name` is found from `id`. -/
def owner? (f : Forest) (id : ScopeId) (name : Bytes) : Option ScopeId :=
  ownerFrom f name f.size id

/-- The value of `name` seen from `id`. -/
def get? (f : Forest) (id : ScopeId) (name : Bytes) : Option Value :=
  match f.owner? id name with
  | none => none
  | some owner =>
    match f[owner]? with
    | none => none
    | some s => s.find? name

/-- Binds `name` in the scope `id` itself. -/
def define (f : Forest) (id : ScopeId) (name : Bytes) (value : Value) : Forest :=
  f.modify id (·.bind name value)

/-- Rebinds `name` where it is found from `id`. -/
def assign? (f : Forest) (id : ScopeId) (name : Bytes) (value : Value) : Option Forest :=
  match f.owner? id name with
  | none => none
  | some owner => some (f.define owner name value)

/-- A new scope inside `parent`, and its number. -/
def grow (f : Forest) (parent : Option ScopeId) (bindings : List (Bytes × Value)) :
    ScopeId × Forest :=
  (f.size, f.push ⟨bindings, parent⟩)

/-- Adds a name to ascending names. -/
def insertName (name : Bytes) : List Bytes → List Bytes
  | [] => [name]
  | n :: rest =>
    if name < n then name :: n :: rest
    else if name == n then n :: rest
    else n :: insertName name rest

/-- The names bound in one scope. -/
def ownNames (f : Forest) (id : ScopeId) : List Bytes :=
  match f[id]? with
  | none => []
  | some s => s.bindings.map (·.1)

/-- Every name visible from `id`, in ascending order of bytes. -/
def names (f : Forest) (id : ScopeId) : List Bytes :=
  ((f.chain id).flatMap f.ownNames).foldl (fun sorted name => insertName name sorted) []

end Forest
end Lox
