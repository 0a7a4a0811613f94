import Lox.Proofs.Syntax.LoneExpression
import Lox.Proofs.Syntax.Recovery

/-! A program is accepted exactly if the grammar composes it, and gets the trees composed. -/
namespace Lox

theorem Resumable.not_end {k : Nat} {edge : Bool} {ts : List Token} (h : Resumable k edge ts) :
    ∀ t ∈ ts, t.kind ≠ .endOfInput := by
  induction ts with
  | nil => exact fun t ht => nomatch ht
  | cons t ts ih =>
    refine List.forall_mem_cons.2 ⟨fun hk => ?_, ih h.2⟩
    have hsited := h.1
    rwa [Sited, hk] at hsited

namespace Program

theorem parse?_ok {tokens : List Token} {ss : List Stmt} {q : Parser}
    (h : Parse.program (Parser.allotment tokens.length) [] { rest := tokens } = .ok ss q) :
    parse? tokens = some ⟨ss, q.faults.reverse⟩ := by
  unfold parse?
  rw [h]

theorem composes_of_parse? {tokens : List Token} {program : Program}
    (h : parse? tokens = some program) (hfaults : program.faults = []) :
    ∃ k, Composes .program k (.declarations program.statements)
      (tokens.takeWhile fun t => t.kind ≠ .endOfInput) := by
  unfold parse? at h
  split at h
  next ss q hq =>
    cases h
    obtain ⟨ts, rs, k, hts, hend, rfl, d⟩ :=
      Parse.program_sound _ [] hq (List.reverse_eq_nil_iff.1 hfaults)
    refine ⟨k, ?_⟩
    rw [show tokens = ts ++ q.rest from hts, takeWhile_before_end d.resumable.not_end hend]
    exact d
  next => cases h

/-- What the grammar composes is parsed, unless it needs more nesting than there is. -/
theorem parse?_of_composes {k : Nat} {ts : List Token} {ss : List Stmt} {stop : Token}
    (more : List Token) (d : Composes .program k (.declarations ss) ts) (hk : k ≤ maxNesting)
    (hstop : stop.kind = .endOfInput) :
    parse? (ts ++ stop :: more) = some ⟨ss, []⟩ ∨
      (∃ program, parse? (ts ++ stop :: more) = some program ∧
        SyntaxFault.Reported "E2009" program.faults) ∧ 256 ≤ ts.length := by
  have lists : Parse.Lists .program ss ts := Parse.taken_of_composes d
  obtain ⟨room, hroom, hsettles⟩ := lists.atTop []
  generalize htokens : ts ++ stop :: more = tokens
  have hsteps : 32 * tokens.length + 29 ≤ Parser.allotment tokens.length := by
    simp only [Parser.allotment]
    omega
  obtain ⟨hok, hup⟩ := @hsettles (Parser.allotment tokens.length) { rest := tokens } (stop :: more)
    rfl hstop htokens.symm hsteps (Nat.zero_le _)
  by_cases hr : 0 + room ≤ maxNesting
  · exact .inl (parse?_ok (hok hr))
  · right
    have hstands : Parse.Stands k 29 (Parser.allotment tokens.length) { rest := tokens }
        (ts ++ stop :: more) := ⟨htokens.symm, by simpa using hk, Nat.le_refl _, htokens ▸ hsteps⟩
    obtain ⟨rs, q, hq⟩ := Parse.program_halts _ [] hstands d.resumable d.fresh hstop rfl
    obtain ⟨f, hf, he⟩ := hup (Nat.lt_of_not_le hr)
    refine ⟨⟨⟨rs, q.faults.reverse⟩, parse?_ok hq, f, ?_, by rw [he]; rfl⟩, ?_⟩
    · simp only [hq] at hf
      exact List.mem_reverse.2 hf
    · rw [maxNesting] at hr
      omega

/-- The parser of a program accepts a token sequence without a fault only if the grammar composes
its statements from it; and where the grammar composes statements that nest at most 256 levels, it
returns them unless some expression is nested too deeply, for which it takes at least 256 tokens. -/
theorem parse_follows_statement_grammar :
    (∀ (tokens : List Token) (program : Program), parse? tokens = some program →
      program.faults = [] → ∃ k, Composes .program k (.declarations program.statements)
        (tokens.takeWhile fun t => t.kind ≠ .endOfInput)) ∧
    ∀ (k : Nat) (ts more : List Token) (ss : List Stmt) (stop : Token),
      Composes .program k (.declarations ss) ts → k ≤ 256 → stop.kind = .endOfInput →
      ∃ program, parse? (ts ++ stop :: more) = some program ∧
        (program = ⟨ss, []⟩ ∨ SyntaxFault.Reported "E2009" program.faults) ∧
        (SyntaxFault.Reported "E2009" program.faults → 256 ≤ ts.length) := by
  refine ⟨fun tokens program => composes_of_parse?, fun k ts more ss stop d hk hstop => ?_⟩
  obtain h | ⟨⟨program, h, hreported⟩, hlen⟩ := parse?_of_composes more d hk hstop
  · refine ⟨⟨ss, []⟩, h, .inl rfl, fun hf => ?_⟩
    obtain ⟨f, hf, -⟩ := hf
    cases hf
  · exact ⟨program, h, .inr hreported, fun _ => hlen⟩

/-- The grammar composes
`fun f(a, b) { for (var a = b; a < b; a++) if (a or b) break; else return a + b, b; }`, and so it is
parsed. -/
theorem parse_follows_statement_grammar_function :
    let token (kind : Kind) : Token := ⟨kind, [], .nil, .start⟩
    let name := token .identifier
    let x : Expr := .variable name
    let leftParen := token .leftParen
    let rightParen := token .rightParen
    let semicolon := token .semicolon
    let exit := token .kwBreak
    let give := token .kwReturn
    let choice := [token .kwIf, leftParen, name, token .kwOr, name, rightParen, exit, semicolon,
      token .kwElse, give, name, token .plus, name, token .comma, name, semicolon]
    let loop := token .kwFor :: leftParen :: token .kwVar :: name :: token .equal :: name ::
      semicolon :: name :: token .less :: name :: semicolon :: name :: token .plusPlus ::
      rightParen :: choice
    let ts := token .kwFun :: name :: leftParen :: name :: token .comma :: name :: rightParen ::
      token .leftBrace :: (loop ++ [token .rightBrace])
    let ss : List Stmt := [.function name [name, name] [.block [
      .declare name (some x),
      .loop (.binary (token .less) x x)
        (.branch (.logicalOr (token .kwOr) x x) (.breakLoop exit)
          (some (.returnValue give (some (.comma (.binary (token .plus) x x) x)))))
        (some (.crement (token .plusPlus) x))]]]
    (∃ k, Composes .program k (.declarations ss) ts) ∧
      parse? (ts ++ [token .endOfInput]) = some ⟨ss, []⟩ := by
  intro token name x leftParen rightParen semicolon exit give choice loop ts ss
  have up {e : Expr} {ts : List Token} (h : Derives (.phrase (.chain .or) e) ts) :
      Derives (.phrase .expression e) ts :=
    .operand (l := .comma) (.conditional (.disjunction h))
  have call : Derives (.phrase .call x) [name] := .primary (.atom rfl)
  have unary : Derives (.phrase .unary x) [name] := .suffixed (.call call)
  have either : Derives (.phrase (.chain .or) (.logicalOr (token .kwOr) x x))
      [name, token .kwOr, name] :=
    .link unary.of_unary (.or rfl) (.operand (l := .and) unary.term_of_unary.equality_of_term)
  have sum : Derives (.phrase (.chain .term) (.binary (token .plus) x x))
      [name, token .plus, name] :=
    .link unary.term_of_unary (.term (by decide)) (.operand (l := .factor) unary)
  have both : Derives (.phrase .expression (.comma (.binary (token .plus) x x) x))
      [name, token .plus, name, token .comma, name] :=
    .link (up sum.equality_of_term.of_equality) (.comma rfl)
      (.conditional (.disjunction unary.of_unary))
  have less : Derives (.phrase (.chain .comparison) (.binary (token .less) x x))
      [name, token .less, name] :=
    .link (.operand (l := .comparison) unary.term_of_unary) (.comparison (by decide))
      unary.term_of_unary
  have condition : Derives (.phrase .expression (.binary (token .less) x x))
      [name, token .less, name] :=
    up (.of_equality (.operand (l := .equality) less))
  have increment : Derives (.phrase .unary (.crement (token .plusPlus) x))
      [name, token .plusPlus] :=
    .suffixed (.postcrement call (by decide))
  have dchoice : Composes ⟨true, true⟩ 2 (.statement true _) choice :=
    .branches rfl rfl (up either) rfl (.breakLoop rfl rfl rfl) rfl
      (.returnValue rfl rfl (.some both) rfl)
  have dloop : Composes .functionBody 3 (.statement true _) loop :=
    .forLoop rfl rfl (.declared (.initialized rfl rfl rfl (up unary.of_unary) rfl))
      (.some condition) rfl (.some (up increment.of_unary)) rfl dchoice
  have function : Composes .program 3 (.declaration (.function name [name, name] _)) ts :=
    .declareFunction rfl rfl rfl (.more rfl rfl (.one rfl)) (by decide) rfl rfl
      (.next (.statement dloop) .done) rfl
  have d : Composes .program 3 (.declarations ss) ts := .next function .done
  obtain ⟨program, hparse, h, hlong⟩ :=
    parse_follows_statement_grammar.2 3 ts [] ss (token .endOfInput) d (by decide) rfl
  have hexact : program = ⟨ss, []⟩ := h.resolve_right fun h => absurd (hlong h) (by decide)
  subst hexact
  have back := parse_follows_statement_grammar.1 _ _ hparse rfl
  rw [takeWhile_before_end (by decide) rfl] at back
  exact ⟨back, hparse⟩

end Program
end Lox
