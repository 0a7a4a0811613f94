import Lox.Proofs.Syntax.Grammar

/-! The grammar of declarations and statements: the token sequences they are made of, each with its
tree and with the number of levels that its statements nest at most. -/
namespace Lox

/-- What stands around a statement within its program. -/
structure Surroundings where
  /-- A loop of the same function. -/
  loop : Bool
  function : Bool
  deriving DecidableEq

/-- No loop and no function. -/
def Surroundings.program : Surroundings := ⟨false, false⟩

/-- A function body, where the loops around the function do not count. -/
def Surroundings.functionBody : Surroundings := ⟨false, true⟩

def Surroundings.loopBody (w : Surroundings) : Surroundings := { w with loop := true }

/-- A clause that is an expression or missing. -/
inductive DerivesOptional : Option Expr → List Token → Prop where
  | none : DerivesOptional none []
  | some {e : Expr} {ts : List Token} (d : Derives (.phrase .expression e) ts) :
      DerivesOptional (some e) ts

inductive VariableDeclaration : Stmt → List Token → Prop where
  | bare {keyword name semicolon : Token} (hv : keyword.kind = .kwVar)
      (hn : name.kind = .identifier) (hs : semicolon.kind = .semicolon) :
      VariableDeclaration (.declare name none) [keyword, name, semicolon]
  | initialized {keyword name equals semicolon : Token} {ts : List Token} {e : Expr}
      (hv : keyword.kind = .kwVar) (hn : name.kind = .identifier) (he : equals.kind = .equal)
      (d : Derives (.phrase .expression e) ts) (hs : semicolon.kind = .semicolon) :
      VariableDeclaration (.declare name (some e)) (keyword :: name :: equals :: (ts ++ [semicolon]))

theorem VariableDeclaration.starts {s : Stmt} {ts : List Token} (h : VariableDeclaration s ts) :
    ∃ keyword us, ts = keyword :: us ∧ keyword.kind = .kwVar := by
  cases h with
  | bare hv => exact ⟨_, _, rfl, hv⟩
  | initialized hv => exact ⟨_, _, rfl, hv⟩

/-- The first clause of a `for` loop, with the semicolon that ends it. -/
inductive Initializer : Option Stmt → List Token → Prop where
  | none {semicolon : Token} (hs : semicolon.kind = .semicolon) : Initializer none [semicolon]
  | declared {s : Stmt} {ts : List Token} (h : VariableDeclaration s ts) : Initializer (some s) ts
  | expression {semicolon : Token} {ts : List Token} {e : Expr}
      (d : Derives (.phrase .expression e) ts) (hs : semicolon.kind = .semicolon) :
      Initializer (some (.expression e)) (ts ++ [semicolon])

/-- The names of parameters, separated by commas. -/
inductive Parameters : List Token → List Token → Prop where
  | none : Parameters [] []
  | one {name : Token} (hn : name.kind = .identifier) : Parameters [name] [name]
  | more {name comma other : Token} {names ts : List Token} (hn : name.kind = .identifier)
      (hc : comma.kind = .comma) (others : Parameters (other :: names) ts) :
      Parameters (name :: other :: names) (name :: comma :: ts)

theorem Parameters.starts {name : Token} {names ts : List Token} (h : Parameters (name :: names) ts) :
    ∃ us, ts = name :: us ∧ name.kind = .identifier := by
  cases h with
  | one hn => exact ⟨[], rfl, hn⟩
  | more hn => exact ⟨_, rfl, hn⟩

/-- A loop after what initializes it. -/
def Stmt.initialized : Option Stmt → Stmt → Stmt
  | none, s => s
  | some init, s => .block [init, s]

/-- A part of a program with its tree. A statement is closed if no `else` that follows it could
belong to an `if` at its end. -/
inductive Part where
  | statement (closed : Bool) (s : Stmt)
  | declaration (s : Stmt)
  | declarations (ss : List Stmt)

/-- The tokens make up the part, and its statements nest at most so many levels deep. The body of a
function is no deeper than its declaration. -/
inductive Composes : Surroundings → Nat → Part → List Token → Prop where
  | empty {w : Surroundings} {k : Nat} {semicolon : Token} (hs : semicolon.kind = .semicolon) :
      Composes w (k + 1) (.statement true .empty) [semicolon]
  | expression {w : Surroundings} {k : Nat} {semicolon : Token} {ts : List Token} {e : Expr}
      (d : Derives (.phrase .expression e) ts) (hs : semicolon.kind = .semicolon) :
      Composes w (k + 1) (.statement true (.expression e)) (ts ++ [semicolon])
  | print {w : Surroundings} {k : Nat} {keyword semicolon : Token} {ts : List Token} {e : Expr}
      (hk : keyword.kind = .kwPrint) (d : Derives (.phrase .expression e) ts)
      (hs : semicolon.kind = .semicolon) :
      Composes w (k + 1) (.statement true (.print keyword e)) (keyword :: (ts ++ [semicolon]))
  | breakLoop {w : Surroundings} {k : Nat} {keyword semicolon : Token} (hw : w.loop = true)
      (hk : keyword.kind = .kwBreak) (hs : semicolon.kind = .semicolon) :
      Composes w (k + 1) (.statement true (.breakLoop keyword)) [keyword, semicolon]
  | continueLoop {w : Surroundings} {k : Nat} {keyword semicolon : Token} (hw : w.loop = true)
      (hk : keyword.kind = .kwContinue) (hs : semicolon.kind = .semicolon) :
      Composes w (k + 1) (.statement true (.continueLoop keyword)) [keyword, semicolon]
  | returnValue {w : Surroundings} {k : Nat} {keyword semicolon : Token} {ts : List Token}
      {value : Option Expr} (hw : w.function = true) (hk : keyword.kind = .kwReturn)
      (d : DerivesOptional value ts) (hs : semicolon.kind = .semicolon) :
      Composes w (k + 1) (.statement true (.returnValue keyword value))
        (keyword :: (ts ++ [semicolon]))
  | block {w : Surroundings} {k : Nat} {left right : Token} {ts : List Token} {ss : List Stmt}
      (hl : left.kind = .leftBrace) (body : Composes w k (.declarations ss) ts)
      (hr : right.kind = .rightBrace) :
      Composes w (k + 1) (.statement true (.block ss)) (left :: (ts ++ [right]))
  | branch {w : Surroundings} {k : Nat} {closed : Bool} {keyword left right : Token}
      {ts us : List Token} {e : Expr} {s : Stmt} (hk : keyword.kind = .kwIf)
      (hl : left.kind = .leftParen) (d : Derives (.phrase .expression e) ts)
      (hr : right.kind = .rightParen) (yes : Composes w k (.statement closed s) us) :
      Composes w (k + 1) (.statement false (.branch e s none))
        (keyword :: left :: (ts ++ right :: us))
  /-- An `else` belongs to the nearest `if` that has none: what stands before it is closed. -/
  | branches {w : Surroundings} {k : Nat} {closed : Bool} {keyword left right other : Token}
      {ts us vs : List Token} {e : Expr} {s s' : Stmt} (hk : keyword.kind = .kwIf)
      (hl : left.kind = .leftParen) (d : Derives (.phrase .expression e) ts)
      (hr : right.kind = .rightParen) (yes : Composes w k (.statement true s) us)
      (ho : other.kind = .kwElse) (no : Composes w k (.statement closed s') vs) :
      Composes w (k + 1) (.statement closed (.branch e s (some s')))
        (keyword :: left :: (ts ++ right :: (us ++ other :: vs)))
  | whileLoop {w : Surroundings} {k : Nat} {closed : Bool} {keyword left right : Token}
      {ts us : List Token} {e : Expr} {s : Stmt} (hk : keyword.kind = .kwWhile)
      (hl : left.kind = .leftParen) (d : Derives (.phrase .expression e) ts)
      (hr : right.kind = .rightParen) (body : Composes w.loopBody k (.statement closed s) us) :
      Composes w (k + 1) (.statement closed (.loop e s none))
        (keyword :: left :: (ts ++ right :: us))
  /-- Without a condition a `for` loop has no end of its own. -/
  | forLoop {w : Surroundings} {k : Nat} {closed : Bool} {keyword left semicolon right : Token}
      {is cs rs us : List Token} {init : Option Stmt} {condition increment : Option Expr} {s : Stmt}
      (hk : keyword.kind = .kwFor) (hl : left.kind = .leftParen) (hi : Initializer init is)
      (hc : DerivesOptional condition cs) (hs : semicolon.kind = .semicolon)
      (hn : DerivesOptional increment rs) (hr : right.kind = .rightParen)
      (body : Composes w.loopBody k (.statement closed s) us) :
      Composes w (k + 1)
        (.statement closed (.initialized init
          (.loop (condition.getD (.literal (.bool true))) s increment)))
        (keyword :: left :: (is ++ (cs ++ semicolon :: (rs ++ right :: us))))
  | declareVariable {w : Surroundings} {k : Nat} {s : Stmt} {ts : List Token}
      (h : VariableDeclaration s ts) : Composes w k (.declaration s) ts
  | declareFunction {w : Surroundings} {k : Nat} {keyword name leftParen rightParen left right : Token}
      {names ts us : List Token} {ss : List Stmt} (hk : keyword.kind = .kwFun)
      (hn : name.kind = .identifier) (hlp : leftParen.kind = .leftParen) (hp : Parameters names ts)
      (hmax : names.length ≤ 255) (hrp : rightParen.kind = .rightParen)
      (hl : left.kind = .leftBrace) (body : Composes .functionBody k (.declarations ss) us)
      (hr : right.kind = .rightBrace) :
      Composes w k (.declaration (.function name names ss))
        (keyword :: name :: leftParen :: (ts ++ rightParen :: left :: (us ++ [right])))
  | statement {w : Surroundings} {k : Nat} {closed : Bool} {s : Stmt} {ts : List Token}
      (h : Composes w k (.statement closed s) ts) : Composes w k (.declaration s) ts
  | done {w : Surroundings} {k : Nat} : Composes w k (.declarations []) []
  | next {w : Surroundings} {k : Nat} {s : Stmt} {ss : List Stmt} {ts us : List Token}
      (first : Composes w k (.declaration s) ts) (others : Composes w k (.declarations ss) us) :
      Composes w k (.declarations (s :: ss)) (ts ++ us)

namespace Composes

private theorem exists_succ {k l : Nat} (h : k + 1 ≤ l) : ∃ m, l = m + 1 ∧ k ≤ m :=
  ⟨l - 1, by omega, by omega⟩

/-- What nests at most so deep nests at most deeper. -/
theorem mono {w : Surroundings} {k l : Nat} {part : Part} {ts : List Token}
    (h : Composes w k part ts) (hkl : k ≤ l) : Composes w l part ts := by
  induction h generalizing l with
  | empty hs =>
    obtain ⟨l, rfl, -⟩ := exists_succ hkl
    exact .empty hs
  | expression d hs =>
    obtain ⟨l, rfl, -⟩ := exists_succ hkl
    exact .expression d hs
  | print hk d hs =>
    obtain ⟨l, rfl, -⟩ := exists_succ hkl
    exact .print hk d hs
  | breakLoop hw hk hs =>
    obtain ⟨l, rfl, -⟩ := exists_succ hkl
    exact .breakLoop hw hk hs
  | continueLoop hw hk hs =>
    obtain ⟨l, rfl, -⟩ := exists_succ hkl
    exact .continueLoop hw hk hs
  | returnValue hw hk d hs =>
    obtain ⟨l, rfl, -⟩ := exists_succ hkl
    exact .returnValue hw hk d hs
  | block hl _ hr ih =>
    obtain ⟨l, rfl, hle⟩ := exists_succ hkl
    exact .block hl (ih hle) hr
  | branch hk hl d hr _ ih =>
    obtain ⟨l, rfl, hle⟩ := exists_succ hkl
    exact .branch hk hl d hr (ih hle)
  | branches hk hl d hr _ ho _ ihy ihn =>
    obtain ⟨l, rfl, hle⟩ := exists_succ hkl
    exact .branches hk hl d hr (ihy hle) ho (ihn hle)
  | whileLoop hk hl d hr _ ih =>
    obtain ⟨l, rfl, hle⟩ := exists_succ hkl
    exact .whileLoop hk hl d hr (ih hle)
  | forLoop hk hl hi hc hs hn hr _ ih =>
    obtain ⟨l, rfl, hle⟩ := exists_succ hkl
    exact .forLoop hk hl hi hc hs hn hr (ih hle)
  | declareVariable h => exact .declareVariable h
  | declareFunction hk hn hlp hp hmax hrp hl _ hr ih =>
    exact .declareFunction hk hn hlp hp hmax hrp hl (ih hkl) hr
  | statement _ ih => exact .statement (ih hkl)
  | done => exact .done
  | next _ _ ihf iho => exact .next (ihf hkl) (iho hkl)

end Composes

/-- A token of this kind can start a statement. -/
def Kind.startsStatement (k : Kind) : Bool :=
  k.starts 12 ||
    match k with
    | .semicolon | .leftBrace | .kwPrint | .kwIf | .kwWhile | .kwFor | .kwBreak | .kwContinue
    | .kwReturn => true
    | _ => false

/-- A token of this kind can start a declaration. -/
def Kind.startsDeclaration (k : Kind) : Bool := k.startsStatement || k = .kwVar || k = .kwFun

namespace Composes

theorem starts_statement {w : Surroundings} {k : Nat} {closed : Bool} {s : Stmt} {ts : List Token}
    (h : Composes w k (.statement closed s) ts) :
    ∃ t us, ts = t :: us ∧ t.kind.startsStatement = true := by
  have first {t : Token} {us : List Token} {kind : Kind} (hk : t.kind = kind)
      (hs : kind.startsStatement = true) :
      ∃ t' us', t :: us = t' :: us' ∧ t'.kind.startsStatement = true := ⟨t, us, rfl, hk ▸ hs⟩
  cases h with
  | empty hs => exact first hs rfl
  | expression d hs =>
    obtain ⟨t, us, rfl, ht⟩ := d.phrase_starts
    exact ⟨t, us ++ [_], rfl, by simp [Kind.startsStatement, show t.kind.starts 12 = true from ht]⟩
  | print hk | breakLoop _ hk | continueLoop _ hk | returnValue _ hk | block hk | branch hk
  | branches hk | whileLoop hk | forLoop hk => exact first hk rfl

theorem starts_declaration {w : Surroundings} {k : Nat} {s : Stmt} {ts : List Token}
    (h : Composes w k (.declaration s) ts) :
    ∃ t us, ts = t :: us ∧ t.kind.startsDeclaration = true := by
  cases h with
  | declareVariable h =>
    obtain ⟨t, us, rfl, ht⟩ := h.starts
    exact ⟨t, us, rfl, by rw [ht]; rfl⟩
  | declareFunction hk => exact ⟨_, _, rfl, by rw [hk]; rfl⟩
  | statement h =>
    obtain ⟨t, us, rfl, ht⟩ := h.starts_statement
    exact ⟨t, us, rfl, by simp [Kind.startsDeclaration, ht]⟩

theorem starts_declarations {w : Surroundings} {k : Nat} {ss : List Stmt} {ts : List Token}
    (h : Composes w k (.declarations ss) ts) :
    ts = [] ∨ ∃ t us, ts = t :: us ∧ t.kind.startsDeclaration = true := by
  cases h with
  | done => exact .inl rfl
  | next first =>
    obtain ⟨t, us, rfl, ht⟩ := first.starts_declaration
    exact .inr ⟨t, us ++ _, rfl, ht⟩

end Composes
end Lox
