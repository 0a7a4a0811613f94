import Lox.Syntax.Fault

/-! The state of a parse and its elementary steps. -/
namespace Lox

/-- The greatest number of arguments of a call and of parameters of a function. -/
def maxArguments : Nat := 255

/-- The greatest nesting of expressions and statements. -/
def maxNesting : Nat := 256

/-- A parse in progress. -/
structure Parser where
  /-- The tokens not yet consumed. -/
  rest : List Token
  /-- The number of tokens consumed. -/
  consumed : Nat := 0
  /-- The faults found, last one first. -/
  faults : List SyntaxFault := []
  /-- The current nesting. -/
  depth : Nat := 0
  /-- The loops around this place within the current function. -/
  loops : Nat := 0
  /-- The function bodies around this place. -/
  functions : Nat := 0
  /-- The blocks around this place. -/
  blocks : Nat := 0
  /-- The number of tokens consumed before the current declaration. -/
  start : Nat := 0

/-- Why a step does not come to its normal end. -/
inductive Interrupt where
  /-- A fault has been reported; the enclosing declaration is given up. -/
  | bail
  /-- The steps allotted to the parse are used up. -/
  | stalled
  deriving DecidableEq, Repr

abbrev Parse := EStateM Interrupt Parser

namespace Parser

/-- The next token. -/
def current (p : Parser) : Token := p.rest.headD .absent

def atEnd (p : Parser) : Bool := p.current.kind = .endOfInput

/-- The parse after the next token; the end of the input is never passed. -/
def advance (p : Parser) : Parser :=
  match p.rest with
  | [] => p
  | t :: ts => if t.kind = .endOfInput then p else { p with rest := ts, consumed := p.consumed + 1 }

def report (p : Parser) (error : SyntaxError) (t : Token) : Parser :=
  { p with faults := ⟨error, t⟩ :: p.faults }

end Parser

namespace Parse

def peek : Parse Token := fun p => .ok p.current p

/-- The next token has the given kind. -/
def check (kind : Kind) : Parse Bool := fun p => .ok (p.current.kind = kind) p

def atEnd : Parse Bool := fun p => .ok p.atEnd p

def advance : Parse Token := fun p => .ok p.current p.advance

/-- Consumes the next token if its kind is wanted. -/
def accept (wanted : Kind → Bool) : Parse (Option Token) := fun p =>
  if wanted p.current.kind then .ok (some p.current) p.advance else .ok none p

/-- Records a fault and goes on. -/
def report (error : SyntaxError) (t : Token) : Parse Unit := fun p => .ok () (p.report error t)

/-- Records a fault and gives up the enclosing declaration. -/
def fail {α : Type} (error : SyntaxError) (t : Token) : Parse α := fun p =>
  .error .bail (p.report error t)

/-- Consumes a token of the given kind, or gives up. -/
def expect (kind : Kind) (what : String) : Parse Token := fun p =>
  if p.current.kind = kind then .ok p.current p.advance
  else fail (.expected what) p.current p

/-- Counts one more level of nesting, or gives up where there are too many. -/
def deepen : Parse Unit := fun p =>
  if p.depth < maxNesting then .ok () { p with depth := p.depth + 1 }
  else fail .tooDeep p.current p

/-- Runs a step in a changed state. However the step ends, `leave before after` takes back the
change. -/
def bracket {α : Type} (enter : Parser → Parser) (leave : (before after : Parser) → Parser)
    (step : Parse α) : Parse α := fun p =>
  match step (enter p) with
  | .ok a q => .ok a (leave p q)
  | .error e q => .error e (leave p q)

/-- However the step ends, the nesting is what it was before. -/
def restoringDepth {α : Type} (step : Parse α) : Parse α :=
  bracket id (fun before after => { after with depth := before.depth }) step

/-- Runs a step one level deeper. -/
def nested {α : Type} (step : Parse α) : Parse α :=
  restoringDepth do
    deepen
    step

def inLoop {α : Type} (step : Parse α) : Parse α :=
  bracket (fun p => { p with loops := p.loops + 1 })
    (fun before after => { after with loops := before.loops }) step

/-- Runs a step in a function body, where the loops around the function do not count. -/
def inFunction {α : Type} (step : Parse α) : Parse α :=
  bracket (fun p => { p with loops := 0, functions := p.functions + 1 })
    (fun before after => { after with loops := before.loops, functions := before.functions }) step

def inBlock {α : Type} (step : Parse α) : Parse α :=
  bracket (fun p => { p with blocks := p.blocks + 1 })
    (fun before after => { after with blocks := before.blocks }) step

end Parse
end Lox
