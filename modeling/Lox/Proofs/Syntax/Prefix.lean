import Lox.Proofs.Syntax.Concatenation
import Lox.Proofs.Syntax.StatementAllotment
import Lox.Proofs.Syntax.StatementEmbedding

/-! What follows a program without faults is parsed as if it stood alone. -/
namespace Lox

/-- The declarations of a program follow those before them. -/
theorem Parse.program_before (n : Nat) (before : List Stmt) (p : Parser) :
    program n before p = ((before.reverse ++ ·) <$> program n []) p := by
  induction n generalizing before p with
  | zero => rfl
  | succ n ih =>
    rw [map_apply]
    by_cases hend : p.current.kind = .endOfInput
    · rw [program_end before (Nat.succ_pos n) hend, program_end [] (Nat.succ_pos n) hend]
      simp
    · rw [program_succ n before hend, program_succ n [] hend]
      cases hd : declaration n p with
      | error e q => rw [bind_error hd, bind_error hd]
      | ok o q =>
        rw [bind_ok hd, bind_ok hd]
        cases o with
        | none => exact (ih before q).trans (map_apply _ _ q)
        | some s =>
          dsimp only
          rw [ih (s :: before), ih [s], map_apply, map_apply]
          cases program n [] q with
          | ok ss r => simp
          | error e r => rfl

namespace Program

/-- The program that a parse ends with. -/
def ofResult : EStateM.Result Interrupt Parser (List Stmt) → Option Program
  | .ok ss p => some ⟨ss, p.faults.reverse⟩
  | .error _ _ => none

/-- More steps than those allotted give the same program. -/
theorem parse?_of_le {tokens : List Token} {n : Nat} (hn : Parser.allotment tokens.length ≤ n) :
    parse? tokens = ofResult (Parse.program n [] { rest := tokens }) := by
  cases h : Parse.program n [] { rest := tokens } with
  | ok ss q => exact parse?_of_ok h
  | error e q =>
    have hextended := Parse.ExtendedBy.of_le (x := (Parse.program · []))
      (fun k => Parse.extendedBy_program k []) hn { rest := tokens }
    unfold parse?
    obtain hsame | ⟨r, hr⟩ := hextended
    · rw [hsame, h]
      rfl
    · rw [hr]
      rfl

theorem ofResult_outer (k : Nat) (ss : List Stmt) (x : Parse (List Stmt)) (p : Parser) :
    ofResult (Parse.mapState (Embedding.outer ⟨k, [], []⟩) (((ss ++ ·) <$> x) p)) =
      (ofResult (x p)).map fun program => ⟨ss ++ program.statements, program.faults⟩ := by
  rw [Parse.map_apply]
  cases x p with
  | ok rs q =>
    have hfaults : (Embedding.outer ⟨k, [], []⟩ q).faults = q.faults := List.append_nil _
    simp only [Parse.mapState, ofResult, Option.map_some, hfaults]
  | error e q => rfl

/-- What follows a program without faults, and is neither an `else` nor a class, is parsed as if it
stood alone: the faults are its own, its statements follow those of the program, and the parse ends
if it ends there. -/
theorem parsed_behind_program {ts us : List Token} {stop last : Token} {program : Program}
    (hstop : stop.kind = .endOfInput) (hts : ∀ t ∈ ts, t.kind ≠ .endOfInput)
    (hlast : last.kind = .endOfInput) (h : parse? (ts ++ [stop]) = some program)
    (hnone : program.faults = []) (hfirst : ∀ t ∈ us.head?, t.kind ≠ .kwElse ∧ t.kind ≠ .kwClass) :
    parse? (ts ++ us ++ [last]) = (parse? (us ++ [last])).map fun others =>
      ⟨program.statements ++ others.statements, others.faults⟩ := by
  obtain ⟨ss, faults⟩ := program
  obtain rfl : faults = [] := hnone
  have haccepted : Parse.Accepted ss ts := accepted_of_parse? hstop hts h
  have hnext : nextKind (us ++ [last]) ≠ .kwElse ∧ nextKind (us ++ [last]) ≠ .kwClass := by
    cases us with
    | nil =>
      have hkind : nextKind ([] ++ [last]) = .endOfInput := hlast
      rw [hkind]
      decide
    | cons u us => exact hfirst u rfl
  rw [List.append_assoc]
  generalize hrest : us ++ [last] = rest at hnext ⊢
  have hlen : (ts ++ rest).length = ts.length + rest.length := List.length_append
  have hshort := haccepted.length_le
  have hallotted : Parser.allotment rest.length ≤
      Parser.allotment (ts ++ rest).length - ss.length := by
    unfold Parser.allotment
    omega
  have htaken := haccepted.program_eq (n := Parser.allotment (ts ++ rest).length)
    (p := { rest := ts ++ rest }) [] rfl rfl rfl hnext.1 (by simp only [Parser.allotment]; omega)
  have hplace : Parser.pass { rest := ts ++ rest } ts =
      Embedding.outer ⟨ts.length, [], []⟩ { rest := rest } := by
    simp [Parser.pass, Embedding.outer, Embedding.parser, Parser.startingAt]
  have halone := Parse.program_outer (E := ⟨ts.length, [], []⟩) rfl
    (Parser.allotment (ts ++ rest).length - ss.length) (ss.reverse ++ []) { rest := rest }
    (.ofTokens rest) (.inr hnext.2)
  rw [parse?_of_le (Nat.le_refl _), parse?_of_le hallotted, htaken, hplace, halone,
    Parse.program_before, List.append_nil, List.reverse_reverse, ofResult_outer]

/-- Behind an `if` without an `else`, a statement with a fault and one without. -/
theorem parsed_behind_program_fault :
    let token (kind : Kind) : Token := ⟨kind, [], .nil, ⟨0, 1, 1⟩⟩
    let name := token .identifier
    let semicolon := token .semicolon
    let ts := [token .kwIf, token .leftParen, name, token .rightParen, name, semicolon]
    let us := [token .equal, name, semicolon, name, semicolon]
    ∃ program, parse? (ts ++ us ++ [token .endOfInput]) = some program ∧
      program.statements.length = 2 ∧ program.faults = [⟨.expectedExpression, token .equal⟩] := by
  intro token name semicolon ts us
  have halone : (parse? (ts ++ [token .endOfInput])).map (fun p => (p.statements.length, p.faults)) =
      some (1, []) := by decide +kernel
  have hbehind : (parse? (us ++ [token .endOfInput])).map (fun p => (p.statements.length, p.faults)) =
      some (1, [⟨.expectedExpression, token .equal⟩]) := by decide +kernel
  obtain ⟨first, hfirst, hone⟩ := Option.map_eq_some_iff.1 halone
  obtain ⟨others, hothers, htwo⟩ := Option.map_eq_some_iff.1 hbehind
  obtain ⟨hlen, hnone⟩ := Prod.mk.inj hone
  obtain ⟨hlen', hfault⟩ := Prod.mk.inj htwo
  have hlast : (token .endOfInput).kind = .endOfInput := rfl
  have hnext : ∀ t ∈ us.head?, t.kind ≠ .kwElse ∧ t.kind ≠ .kwClass := by decide
  have h := parsed_behind_program rfl (by decide) hlast hfirst hnone hnext
  rw [hothers] at h
  refine ⟨_, h, ?_, hfault⟩
  rw [List.length_append, hlen, hlen']

end Program
end Lox
