import Lox.Prompt
import Lox.Proofs.Syntax.Separation
import Lox.Proofs.Token.Lossless

/-! The prompt never waits for more lines after a unit that can be run: every brace that a program
opens it closes again, and an expression has none. -/
namespace Lox

/-- What a token of this kind adds to the braces that are open. -/
def Kind.brace : Kind → Int
  | .leftBrace => 1
  | .rightBrace => -1
  | _ => 0

theorem Kind.brace_eq_zero_of_inExpression {k : Kind} (h : k.inExpression = true) :
    k.brace = 0 := by
  cases k <;> first | rfl | cases h

namespace Prompt

/-- Braces are counted from any depth alike. -/
theorem foldl_openBraces (depth : Int) (ts : List Token) :
    ts.foldl (fun depth t =>
      if t.kind = .leftBrace then depth + 1
      else if t.kind = .rightBrace then depth - 1
      else depth) depth = depth + openBraces ts := by
  induction ts generalizing depth with
  | nil => exact (Int.add_zero depth).symm
  | cons t ts ih =>
    have hstep (d : Int) : (if t.kind = .leftBrace then d + 1
        else if t.kind = .rightBrace then d - 1 else d) = d + t.kind.brace := by
      cases t.kind <;> simp [Kind.brace, Int.sub_eq_add_neg]
    rw [openBraces, List.foldl_cons, List.foldl_cons, hstep, hstep, ih, ih, Int.zero_add,
      Int.add_assoc]

@[simp] theorem openBraces_nil : openBraces [] = 0 := rfl

@[simp] theorem openBraces_append (ts us : List Token) :
    openBraces (ts ++ us) = openBraces ts + openBraces us := by
  rw [openBraces, List.foldl_append]
  exact foldl_openBraces _ us

@[simp] theorem openBraces_cons (t : Token) (ts : List Token) :
    openBraces (t :: ts) = t.kind.brace + openBraces ts := by
  have hone : openBraces [t] = t.kind.brace := by
    rw [openBraces, List.foldl_cons, List.foldl_nil]
    cases t.kind <;> rfl
  rw [← List.singleton_append, openBraces_append, hone]

end Prompt

open Prompt (openBraces)

/-! Neither grammar leaves a brace open. -/

theorem Derives.openBraces_eq_zero {f : Form} {ts : List Token} (h : Derives f ts) :
    openBraces ts = 0 := by
  have hin := Parse.inExpression_of_derives h
  clear h
  induction ts with
  | nil => rfl
  | cons t ts ih =>
    obtain ⟨ht, hts⟩ := List.forall_mem_cons.1 hin
    rw [Prompt.openBraces_cons, Kind.brace_eq_zero_of_inExpression ht, ih hts, Int.add_zero]

theorem DerivesOptional.openBraces_eq_zero {e : Option Expr} {ts : List Token}
    (h : DerivesOptional e ts) : openBraces ts = 0 := by
  cases h with
  | none => rfl
  | some d => exact d.openBraces_eq_zero

theorem VariableDeclaration.openBraces_eq_zero {s : Stmt} {ts : List Token}
    (h : VariableDeclaration s ts) : openBraces ts = 0 := by
  cases h with
  | bare hv hn hs => simp [hv, hn, hs, Kind.brace]
  | initialized hv hn he d hs => simp [hv, hn, he, hs, d.openBraces_eq_zero, Kind.brace]

theorem Initializer.openBraces_eq_zero {s : Option Stmt} {ts : List Token} (h : Initializer s ts) :
    openBraces ts = 0 := by
  cases h with
  | none hs => simp [hs, Kind.brace]
  | declared h => exact h.openBraces_eq_zero
  | expression d hs => simp [hs, d.openBraces_eq_zero, Kind.brace]

theorem Parameters.openBraces_eq_zero {names ts : List Token} (h : Parameters names ts) :
    openBraces ts = 0 := by
  induction h with
  | none => rfl
  | one hn => simp [hn, Kind.brace]
  | more hn hc _ ih => simp [hn, hc, ih, Kind.brace]

/-- What the grammar composes closes all braces that it opens. -/
theorem Composes.openBraces_eq_zero {w : Surroundings} {k : Nat} {part : Part} {ts : List Token}
    (h : Composes w k part ts) : openBraces ts = 0 := by
  induction h with
  | empty hs => simp [hs, Kind.brace]
  | expression d hs => simp [hs, d.openBraces_eq_zero, Kind.brace]
  | print hk d hs => simp [hk, hs, d.openBraces_eq_zero, Kind.brace]
  | breakLoop _ hk hs | continueLoop _ hk hs => simp [hk, hs, Kind.brace]
  | returnValue _ hk d hs => simp [hk, hs, d.openBraces_eq_zero, Kind.brace]
  | block hl _ hr ih => simp [hl, hr, ih, Kind.brace]
  | branch hk hl d hr _ ih => simp [hk, hl, hr, d.openBraces_eq_zero, ih, Kind.brace]
  | branches hk hl d hr _ ho _ ihyes ihno =>
    simp [hk, hl, hr, ho, d.openBraces_eq_zero, ihyes, ihno, Kind.brace]
  | whileLoop hk hl d hr _ ih => simp [hk, hl, hr, d.openBraces_eq_zero, ih, Kind.brace]
  | forLoop hk hl hi hc hs hn hr _ ih =>
    simp [hk, hl, hs, hr, hi.openBraces_eq_zero, hc.openBraces_eq_zero, hn.openBraces_eq_zero, ih,
      Kind.brace]
  | declareVariable h => exact h.openBraces_eq_zero
  | declareFunction hk hn hlp hp _ hrp hl _ hr ih =>
    simp [hk, hn, hlp, hrp, hl, hr, hp.openBraces_eq_zero, ih, Kind.brace]
  | statement _ ih => exact ih
  | done => rfl
  | next _ _ ihfirst ihothers => simp [ihfirst, ihothers]

namespace Prompt

/-- The end of the input is no brace. -/
theorem openBraces_tokens (source : Bytes) : openBraces (Scan.ofSource source).tokens =
    openBraces ((Scan.ofSource source).tokens.takeWhile fun t => t.kind ≠ .endOfInput) := by
  have hend : nextKind [(⟨.endOfInput, [], .nil, .after source⟩ : Token)] = .endOfInput := rfl
  rw [Scan.tokens_eq, takeWhile_before_end (Scan.segments_not_end source) hend]
  simp [Kind.brace]

theorem isUnfinished_eq_false {source : Bytes} (hscan : (Scan.ofSource source).faults = [])
    (h : openBraces ((Scan.ofSource source).tokens.takeWhile fun t => t.kind ≠ .endOfInput) = 0) :
    isUnfinished source = false := by
  unfold isUnfinished endsInside
  dsimp only
  rw [hscan, openBraces_tokens, h]
  rfl

/-- A source without faults in its tokens that is accepted as a program or as an expression needs no
more lines. -/
theorem accepted_unit_is_finished {source : Bytes} (hscan : (Scan.ofSource source).faults = [])
    (haccepted :
      (∃ p, Program.parse? (Scan.ofSource source).tokens = some p ∧ p.faults = []) ∨
        (LoneExpression.parse (Scan.ofSource source).tokens).faults = []) :
    isUnfinished source = false := by
  refine isUnfinished_eq_false hscan ?_
  obtain ⟨p, hparse, hfaults⟩ | hfaults := haccepted
  · obtain ⟨k, hcomposes⟩ := Program.composes_of_parse? hparse hfaults
    exact hcomposes.openBraces_eq_zero
  · cases hparse : LoneExpression.parse (Scan.ofSource source).tokens with
    | mk expression faults =>
      rw [hparse] at hfaults
      cases expression with
      | none =>
        have hnone : (LoneExpression.parse (Scan.ofSource source).tokens).expression = none := by
          rw [hparse]
        exact absurd (by rw [hparse]; exact hfaults) (LoneExpression.faults_ne_nil hnone)
      | some e =>
        have hlone : LoneExpression.parse (Scan.ofSource source).tokens = ⟨some e, []⟩ :=
          hparse.trans (congrArg _ hfaults)
        exact (LoneExpression.derives_of_parse hlone).openBraces_eq_zero

/-- Braces in a string and in a comment are none. -/
theorem accepted_unit_is_finished_braces :
    let source := utf8 "fun f() \x7b print \"\x7b\"; \x7d // \x7b"
    let scan := Scan.ofSource source
    scan.faults = [] ∧ (∃ p, Program.parse? scan.tokens = some p ∧ p.faults = []) ∧
      isUnfinished source = false := by
  intro source scan
  have hscan : scan.faults = [] := by decide +kernel
  have hparse : (Program.parse? scan.tokens).map (·.faults) = some [] := by decide +kernel
  have haccepted := Option.map_eq_some_iff.1 hparse
  exact ⟨hscan, haccepted, accepted_unit_is_finished hscan (.inl haccepted)⟩

end Prompt
end Lox
