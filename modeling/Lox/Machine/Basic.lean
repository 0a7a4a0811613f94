import Lox.Machine.Fault
import Lox.Scope.Suggestion

/-! The state of a running program and its elementary steps. -/
namespace Lox

/-- What a clock shows, in nanoseconds, each time it is read. -/
structure Clock where
  time : Nat → Int

/-- A clock that always shows the same time. -/
def Clock.still (time : Int) : Clock := ⟨fun _ => time⟩

instance : Coe Int Clock := ⟨Clock.still⟩

instance (time : Nat) : OfNat Clock time := ⟨.still time⟩

structure Machine where
  scopes : Forest
  /-- The scope in which names are looked up and declared. -/
  current : ScopeId
  /-- The calls in progress. -/
  depth : Nat := 0
  /-- The number of functions made so far. -/
  functions : Nat := 0
  /-- The texts printed, in order. -/
  printed : Array Bytes := #[]
  clock : Clock := 0
  /-- How often the clock has been read. -/
  readings : Nat := 0

/-- The scope of the global names. -/
def Machine.globals : ScopeId := 0

/-- Why a computation has no value. -/
inductive Halt where
  | fault (f : RuntimeFault)
  /-- The syntax tree is not one that a parse gives. -/
  | malformed
  /-- The steps allotted to the computation are used up. -/
  | exhausted

abbrev Exec := EStateM Halt Machine

/-- How a statement ends. -/
inductive Completion where
  | normal
  | returned (v : Value)
  | broke
  | continued

namespace Machine

/-- Defines a global function of the host. -/
def defineNative (m : Machine) (name : Bytes) (arity : Int) (action : Native.Action) : Machine :=
  { m with
    scopes := m.scopes.define globals name (.native ⟨m.functions, arity, action⟩)
    functions := m.functions + 1 }

def defineGlobal (m : Machine) (name : Bytes) (value : Value) : Machine :=
  { m with scopes := m.scopes.define globals name value }

/-- A machine that has run nothing yet; it knows the function `clock`. -/
def fresh (clock : Clock) : Machine :=
  ({ scopes := #[{}], current := globals, clock } : Machine).defineNative (utf8 "clock") 0 .clock

/-- The global names with their values. -/
def globalNames (m : Machine) : List Bytes := m.scopes.names globals

end Machine

/-- The fault of a name that is not visible from a scope. -/
def Forest.undefinedName (f : Forest) (id : ScopeId) (name : Token) : RuntimeFault :=
  ⟨.undefinedVariable (Suggestion.closest? name.lexeme (f.names id)), name⟩

namespace Exec

def fail {α : Type} (error : RuntimeError) (t : Token) : Exec α := throw (.fault ⟨error, t⟩)

def lookUp (name : Token) : Exec Value := fun m =>
  match m.scopes.get? m.current name.lexeme with
  | some v => .ok v m
  | none => .error (.fault (m.scopes.undefinedName m.current name)) m

def assign (name : Token) (v : Value) : Exec Unit := fun m =>
  match m.scopes.owner? m.current name.lexeme with
  | some owner => .ok () { m with scopes := m.scopes.define owner name.lexeme v }
  | none => .error (.fault (m.scopes.undefinedName m.current name)) m

/-- Binds a name in the current scope. -/
def declare (name : Token) (v : Value) : Exec Unit := fun m =>
  .ok () { m with scopes := m.scopes.define m.current name.lexeme v }

def print (text : Bytes) : Exec Unit := fun m => .ok () { m with printed := m.printed.push text }

/-- Makes a function that closes over the current scope. -/
def close (name : Token) (params : List Token) (body : List Stmt) : Exec Value := fun m =>
  .ok (.function ⟨m.functions, name, params, body, m.current⟩)
    { m with functions := m.functions + 1 }

/-- Runs a step in a new scope inside `parent`. However the step ends, the current scope is then
what it was before. -/
def inScope {α : Type} (parent : ScopeId) (bindings : List (Bytes × Value)) (step : Exec α) :
    Exec α := fun m =>
  let before := m.current
  let inner := m.scopes.size
  match step { m with scopes := m.scopes.push ⟨bindings, some parent⟩, current := inner } with
  | .ok a m' => .ok a { m' with current := before }
  | .error h m' => .error h { m' with current := before }

/-- Runs a step in a new scope inside the current one. -/
def inChild {α : Type} (step : Exec α) : Exec α := fun m => inScope m.current [] step m

/-- Runs a step as a call, which is in progress until the step ends, however it ends. Where `limit`
calls are in progress there is no further one. -/
def asCall {α : Type} (limit : Nat) (paren : Token) (step : Exec α) : Exec α := fun m =>
  if limit ≤ m.depth then .error (.fault ⟨.stackOverflow, paren⟩) m
  else
    match step { m with depth := m.depth + 1 } with
    | .ok a m' => .ok a { m' with depth := m'.depth - 1 }
    | .error h m' => .error h { m' with depth := m'.depth - 1 }

/-- Calls a function of the host. -/
def runNative (paren : Token) (action : Native.Action) (args : List Value) : Exec Value := fun m =>
  match action with
  | .clock =>
    .ok (.number (Float.ofInt (m.clock.time m.readings) / 1e9))
      { m with readings := m.readings + 1 }
  | .lastArgument => .ok (args.getLast?.getD .nil) m
  | .fail text => .error (.fault ⟨.hostFailure text, paren⟩) m
  | .raise code message =>
    .error (.fault ⟨.hostFault code message, ⟨.illegal, [], .nil, ⟨0, 0, 0⟩⟩⟩) m

end Exec
end Lox
