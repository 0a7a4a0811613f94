import Lox.Proofs.Machine.Safety
import Lox.Proofs.Syntax.Program

/-! No token sequence is both a lone expression and a program. A program is empty or ends with a
semicolon or a closing brace, and an expression holds neither. -/
namespace Lox

/-- A token of this kind ends a statement or a block. -/
def Kind.closes (k : Kind) : Bool := k = .semicolon || k = .rightBrace

theorem Kind.closes_eq_false_of_inExpression {k : Kind} (h : k.inExpression = true) :
    k.closes = false := by
  cases k <;> first | rfl | cases h

/-- The last token ends a statement or a block. -/
def Closed (ts : List Token) : Prop := ∃ us t, ts = us ++ [t] ∧ t.kind.closes = true

namespace Closed
variable {t : Token} {us : List Token}

theorem of_semicolon (us : List Token) (h : t.kind = .semicolon) : Closed (us ++ [t]) :=
  ⟨us, t, rfl, by rw [h]; rfl⟩

theorem of_rightBrace (us : List Token) (h : t.kind = .rightBrace) : Closed (us ++ [t]) :=
  ⟨us, t, rfl, by rw [h]; rfl⟩

theorem after (ts : List Token) (h : Closed us) : Closed (ts ++ us) := by
  obtain ⟨vs, t, rfl, ht⟩ := h
  exact ⟨ts ++ vs, t, (List.append_assoc ts vs [t]).symm, ht⟩

theorem cons (t : Token) (h : Closed us) : Closed (t :: us) := h.after [t]

end Closed

theorem VariableDeclaration.closed {s : Stmt} {ts : List Token} (h : VariableDeclaration s ts) :
    Closed ts := by
  cases h with
  | bare _ _ hs => exact .of_semicolon [_, _] hs
  | initialized _ _ _ _ hs => exact (((Closed.of_semicolon _ hs).cons _).cons _).cons _

/-- Statements and declarations are closed, and so are declarations one after the other unless there
are none. -/
def Part.Closes : Part → List Token → Prop
  | .statement _ _, ts | .declaration _, ts => Closed ts
  | .declarations ss, ts => ss = [] ∧ ts = [] ∨ Closed ts

/-- What the grammar composes is closed. -/
theorem Composes.closes {w : Surroundings} {k : Nat} {part : Part} {ts : List Token}
    (h : Composes w k part ts) : part.Closes ts := by
  induction h with
  | empty hs => exact .of_semicolon [] hs
  | expression _ hs => exact .of_semicolon _ hs
  | print _ _ hs => exact (Closed.of_semicolon _ hs).cons _
  | breakLoop _ _ hs => exact .of_semicolon [_] hs
  | continueLoop _ _ hs => exact .of_semicolon [_] hs
  | returnValue _ _ _ hs => exact (Closed.of_semicolon _ hs).cons _
  | block _ _ hr _ => exact (Closed.of_rightBrace _ hr).cons _
  | branch _ _ _ _ _ ih => exact (((ih.cons _).after _).cons _).cons _
  | branches _ _ _ _ _ _ _ _ ih => exact (((((ih.cons _).after _).cons _).after _).cons _).cons _
  | whileLoop _ _ _ _ _ ih => exact (((ih.cons _).after _).cons _).cons _
  | forLoop _ _ _ _ _ _ _ _ ih =>
    exact ((((((ih.cons _).after _).cons _).after _).after _).cons _).cons _
  | declareVariable h => exact h.closed
  | declareFunction _ _ _ _ _ _ _ _ hr _ =>
    exact ((((((Closed.of_rightBrace _ hr).cons _).cons _).after _).cons _).cons _).cons _
  | statement _ ih => exact ih
  | done => exact .inl ⟨rfl, rfl⟩
  | next _ _ ihfirst ihothers =>
    obtain ⟨-, rfl⟩ | hothers := ihothers
    · rw [List.append_nil]
      exact .inr ihfirst
    · exact .inr (hothers.after _)

theorem Derives.not_closed {f : Form} {ts : List Token} (h : Derives f ts) : ¬ Closed ts := by
  rintro ⟨us, t, rfl, hcloses⟩
  have hin := Parse.inExpression_of_derives h t (List.mem_append_right us List.mem_cons_self)
  rw [Kind.closes_eq_false_of_inExpression hin] at hcloses
  cases hcloses

/-- The tokens of an expression are not those of a program. -/
theorem Derives.not_composes {e : Expr} {ts : List Token} (h : Derives (.phrase .expression e) ts)
    {w : Surroundings} {k : Nat} {ss : List Stmt} : ¬ Composes w k (.declarations ss) ts := by
  intro hcomposes
  obtain ⟨-, rfl⟩ | hclosed := hcomposes.closes
  · obtain ⟨t, us, hts, -⟩ := h.phrase_starts
    cases hts
  · exact h.not_closed hclosed

/-- Tokens that are parsed as a program without faults are not parsed so as a lone expression. -/
theorem LoneExpression.faults_of_program {tokens : List Token} {p : Program}
    (h : Program.parse? tokens = some p) (hp : p.faults = []) : (parse tokens).faults ≠ [] := by
  intro hnone
  cases hresult : parse tokens with
  | mk expression faults =>
    rw [hresult] at hnone
    cases expression with
    | none => exact faults_ne_nil (by rw [hresult]) (by rw [hresult]; exact hnone)
    | some e =>
      have hparse : parse tokens = ⟨some e, []⟩ := hresult.trans (congrArg _ hnone)
      obtain ⟨k, hcomposes⟩ := Program.composes_of_parse? h hp
      exact (derives_of_parse hparse).not_composes hcomposes

end Lox
