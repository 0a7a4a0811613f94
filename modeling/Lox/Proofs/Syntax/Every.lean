import Lox.Syntax.Tree

/-! Properties that hold throughout a tree. -/
namespace Lox

/-- The expressions directly within an expression. -/
def Expr.parts : Expr → List Expr
  | .literal _ | .variable _ => []
  | .grouping e | .unary _ e | .crement _ e | .assign _ e => [e]
  | .binary _ a b | .logicalAnd _ a b | .logicalOr _ a b | .comma a b => [a, b]
  | .conditional _ c a b => [c, a, b]
  | .call callee _ args => callee :: args

theorem Expr.sizeOf_part_lt {e a : Expr} (h : a ∈ e.parts) : sizeOf a < sizeOf e := by
  cases e with
  | literal v => cases h
  | «variable» name => cases h
  | call callee paren args =>
    rw [Expr.call.sizeOf_spec]
    obtain rfl | ha := List.mem_cons.1 h
    · omega
    · have hlt := List.sizeOf_lt_of_mem ha
      omega
  | _ =>
    simp only [Expr.parts, List.mem_cons, List.not_mem_nil, or_false] at h
    grind

/-- What holds of an expression as soon as it holds of its parts holds of all expressions. -/
theorem Expr.of_parts {P : Expr → Prop} (h : ∀ e, (∀ a ∈ e.parts, P a) → P e) (e : Expr) :
    P e := by
  induction hn : sizeOf e using Nat.strongRecOn generalizing e with
  | ind n ih =>
    subst hn
    exact h e fun a ha => ih _ (sizeOf_part_lt ha) a rfl

/-- An expression and all expressions within it have the property. -/
inductive Expr.Every (P : Expr → Prop) : Expr → Prop where
  | node {e : Expr} (here : P e) (parts : ∀ a ∈ e.parts, Every P a) : Every P e

namespace Expr.Every
variable {P P' : Expr → Prop} {e : Expr}

theorem here (h : e.Every P) : P e := by
  cases h with
  | node here _ => exact here

theorem part (h : e.Every P) {a : Expr} (ha : a ∈ e.parts) : a.Every P := by
  cases h with
  | node _ parts => exact parts a ha

theorem mono (hP : ∀ a, P a → P' a) (h : e.Every P) : e.Every P' := by
  induction h with
  | node here _ ih => exact .node (hP _ here) ih

/-! Trees by the number of their parts. -/

theorem leaf (h : P e) (hparts : e.parts = []) : e.Every P := by
  refine .node h fun a ha => ?_
  rw [hparts] at ha
  cases ha

theorem node₁ {a : Expr} (h : P e) (hparts : e.parts = [a]) (ha : a.Every P) : e.Every P := by
  refine .node h ?_
  rw [hparts]
  exact List.forall_mem_singleton.2 ha

theorem node₂ {a b : Expr} (h : P e) (hparts : e.parts = [a, b]) (ha : a.Every P)
    (hb : b.Every P) : e.Every P := by
  refine .node h ?_
  rw [hparts]
  exact List.forall_mem_cons.2 ⟨ha, List.forall_mem_singleton.2 hb⟩

theorem node₃ {a b c : Expr} (h : P e) (hparts : e.parts = [a, b, c]) (ha : a.Every P)
    (hb : b.Every P) (hc : c.Every P) : e.Every P := by
  refine .node h ?_
  rw [hparts]
  exact List.forall_mem_cons.2 ⟨ha, List.forall_mem_cons.2 ⟨hb, List.forall_mem_singleton.2 hc⟩⟩

end Expr.Every

/-- The expressions directly within a statement. -/
def Stmt.expressions : Stmt → List Expr
  | .expression e | .print _ e => [e]
  | .declare _ init => init.toList
  | .branch c _ _ => [c]
  | .loop c _ increment => c :: increment.toList
  | .returnValue _ value => value.toList
  | .empty | .block _ | .breakLoop _ | .continueLoop _ | .function _ _ _ => []

/-- The statements directly within a statement. -/
def Stmt.parts : Stmt → List Stmt
  | .block ss => ss
  | .branch _ yes no => yes :: no.toList
  | .loop _ body _ => [body]
  | .function _ _ body => body
  | .empty | .expression _ | .print _ _ | .declare _ _ | .breakLoop _ | .continueLoop _
  | .returnValue _ _ => []

theorem Stmt.sizeOf_part_lt {s t : Stmt} (h : t ∈ s.parts) : sizeOf t < sizeOf s := by
  cases s with
  | block body =>
    have hlt := List.sizeOf_lt_of_mem h
    rw [block.sizeOf_spec]
    exact Nat.lt_add_left 1 hlt
  | branch c yes no =>
    cases no with
    | none =>
      cases List.mem_singleton.1 h
      rw [branch.sizeOf_spec]
      omega
    | some other =>
      rw [branch.sizeOf_spec, Option.some.sizeOf_spec]
      obtain rfl | h := List.mem_cons.1 h
      · omega
      · cases List.mem_singleton.1 h
        omega
  | loop c body i =>
    cases List.mem_singleton.1 h
    rw [loop.sizeOf_spec]
    omega
  | function name params body =>
    have hlt := List.sizeOf_lt_of_mem h
    rw [function.sizeOf_spec]
    exact Nat.lt_add_left _ hlt
  | _ => cases h

/-- What holds of a statement as soon as it holds of its parts holds of all statements. -/
theorem Stmt.of_parts {Q : Stmt → Prop} (h : ∀ s, (∀ t ∈ s.parts, Q t) → Q s) (s : Stmt) : Q s := by
  induction hn : sizeOf s using Nat.strongRecOn generalizing s with
  | ind n ih =>
    subst hn
    exact h s fun t ht => ih _ (sizeOf_part_lt ht) t rfl

/-- All expressions of a statement have the property `P`, and it and all statements within it
have the property `Q`. -/
inductive Stmt.Every (P : Expr → Prop) (Q : Stmt → Prop) : Stmt → Prop where
  | node {s : Stmt} (here : Q s) (expressions : ∀ e ∈ s.expressions, e.Every P)
      (parts : ∀ t ∈ s.parts, Every P Q t) : Every P Q s

namespace Stmt.Every
variable {P P' : Expr → Prop} {Q Q' : Stmt → Prop} {s : Stmt}

theorem here (h : s.Every P Q) : Q s := by
  cases h with
  | node here _ _ => exact here

theorem expression (h : s.Every P Q) {e : Expr} (he : e ∈ s.expressions) : e.Every P := by
  cases h with
  | node _ expressions _ => exact expressions e he

theorem part (h : s.Every P Q) {t : Stmt} (ht : t ∈ s.parts) : t.Every P Q := by
  cases h with
  | node _ _ parts => exact parts t ht

theorem mono (hP : ∀ e, P e → P' e) (hQ : ∀ t, Q t → Q' t) (h : s.Every P Q) :
    s.Every P' Q' := by
  induction h with
  | node here expressions _ ih =>
    exact .node (hQ _ here) (fun e he => (expressions e he).mono hP) ih

end Stmt.Every
end Lox
