import Lox.Proofs.Syntax.ExpressionCompleteness

/-! A lone expression is accepted exactly if the grammar derives it, and gets the tree derived. -/
namespace Lox

/-- One of the faults has the code. -/
def SyntaxFault.Reported (code : String) (faults : List SyntaxFault) : Prop :=
  ∃ f ∈ faults, f.error.code = code

theorem takeWhile_before_end {ts us : List Token} (h : ∀ t ∈ ts, t.kind ≠ .endOfInput)
    (hu : nextKind us = .endOfInput) :
    (ts ++ us).takeWhile (fun t => t.kind ≠ .endOfInput) = ts := by
  rw [List.takeWhile_append_of_pos (by simpa using h)]
  cases us with
  | nil => simp
  | cons u us => rw [List.takeWhile_cons_of_neg (by simpa using hu), List.append_nil]

namespace Parse

theorem loneExpression_eq_ok {n : Nat} {p q : Parser} {e : Expr}
    (h : loneExpression n p = .ok e q) :
    expression n p = .ok e q ∧ nextKind q.rest = .endOfInput := by
  obtain ⟨e', r, he, h₀⟩ := bind_eq_ok h
  obtain ⟨b, r', hb, h₁⟩ := bind_eq_ok h₀
  cases hb
  cases hend : r.atEnd with
  | false => simp [hend, fail_apply, bind_ok (peek_apply r)] at h₁
  | true =>
    simp only [hend] at h₁
    cases h₁
    exact ⟨he, of_decide_eq_true hend⟩

theorem loneExpression_ok {n : Nat} {p q : Parser} {e : Expr} (h : expression n p = .ok e q)
    (hend : nextKind q.rest = .endOfInput) : loneExpression n p = .ok e q := by
  have hb : atEnd q = .ok true q := by
    rw [atEnd_apply, Parser.current_kind, hend]
    rfl
  rw [loneExpression, bind_ok h, bind_ok hb]
  rfl

end Parse

namespace LoneExpression

theorem derives_of_parse {tokens : List Token} {e : Expr} (h : parse tokens = ⟨some e, []⟩) :
    Derives (.phrase .expression e) (tokens.takeWhile (fun t => t.kind ≠ .endOfInput)) := by
  unfold parse at h
  split at h
  next e' p hp =>
    simp only [mk.injEq, Option.some.injEq, List.reverse_eq_nil_iff] at h
    obtain ⟨rfl, hfaults⟩ := h
    obtain ⟨he, hend⟩ := Parse.loneExpression_eq_ok hp
    obtain ⟨ts, hts, d⟩ := (Parse.expressionSound _).expression he (by simp [hfaults])
    have hpass : ∀ t ∈ ts, t.kind ≠ .endOfInput := fun t ht =>
      of_decide_eq_true (Kind.passable_of_inExpression (Parse.inExpression_of_derives d t ht))
    rw [show tokens = ts ++ p.rest from hts, takeWhile_before_end hpass hend]
    exact d
  next => cases h

theorem parse_ok {tokens : List Token} {e : Expr} {q : Parser}
    (h : Parse.loneExpression (Parser.allotment tokens.length) { rest := tokens } = .ok e q) :
    parse tokens = ⟨some e, q.faults.reverse⟩ := by
  unfold parse
  rw [h]

theorem parse_error {tokens : List Token} {i : Interrupt} {q : Parser}
    (h : Parse.loneExpression (Parser.allotment tokens.length) { rest := tokens } = .error i q) :
    parse tokens = ⟨none, q.faults.reverse⟩ := by
  unfold parse
  rw [h]

/-- What the grammar derives is parsed, unless it needs more nesting than there is. -/
theorem parse_of_derives {ts : List Token} {e : Expr} {stop : Token} (more : List Token)
    (d : Derives (.phrase .expression e) ts) (hstop : stop.kind = .endOfInput) :
    parse (ts ++ stop :: more) = ⟨some e, []⟩ ∨
      (∃ t, parse (ts ++ stop :: more) = ⟨none, [⟨.tooDeep, t⟩]⟩) ∧ 256 ≤ ts.length := by
  obtain ⟨room, hroom, htakes⟩ := Parse.fits_expression (Parse.parsed_of_derives d).reads
  generalize htokens : ts ++ stop :: more = tokens
  obtain ⟨hok, hup⟩ := @htakes (Parser.allotment tokens.length) { rest := tokens } (stop :: more)
    htokens.symm (by rw [nextKind_cons, hstop]; decide)
    (by simp only [Parser.allotment]; omega) (Nat.zero_le _)
  by_cases hr : 0 + room ≤ maxNesting
  · left
    refine parse_ok (Parse.loneExpression_ok (hok hr) ?_)
    rw [Parser.pass_rest htokens.symm, nextKind_cons, hstop]
  · right
    obtain ⟨t, q, hq, hfaults, -⟩ := hup (Nat.lt_of_not_le hr)
    refine ⟨⟨t, ?_⟩, ?_⟩
    · rw [parse_error (Parse.bind_error hq), hfaults]
      rfl
    · rw [maxNesting] at hr
      omega

/-- The parser of a lone expression accepts a token sequence without a fault only if the grammar
derives the tree from it; and where the grammar derives a tree, it returns that tree unless the
sequence is nested too deeply, for which it takes at least 256 tokens. -/
theorem parse_follows_grammar :
    (∀ (tokens : List Token) (e : Expr), parse tokens = ⟨some e, []⟩ →
      Derives (.phrase .expression e) (tokens.takeWhile fun t => t.kind ≠ .endOfInput)) ∧
    ∀ (ts more : List Token) (e : Expr) (stop : Token),
      Derives (.phrase .expression e) ts → stop.kind = .endOfInput →
      (parse (ts ++ stop :: more) = ⟨some e, []⟩ ∨
        SyntaxFault.Reported "E2009" (parse (ts ++ stop :: more)).faults) ∧
      (SyntaxFault.Reported "E2009" (parse (ts ++ stop :: more)).faults → 256 ≤ ts.length) := by
  refine ⟨fun tokens e => derives_of_parse, fun ts more e stop d hstop => ?_⟩
  obtain h | ⟨⟨t, h⟩, hlen⟩ := parse_of_derives more d hstop
  · refine ⟨.inl h, fun hf => ?_⟩
    rw [h] at hf
    obtain ⟨f, hf, -⟩ := hf
    cases hf
  · refine ⟨.inr ?_, fun _ => hlen⟩
    rw [h]
    exact ⟨⟨.tooDeep, t⟩, List.mem_singleton_self _, rfl⟩

/-- The grammar derives a tree from `a = f(b) or -c * d >= e ? !a == b : c++ + d, a and b`, and so
it is parsed. -/
theorem parse_follows_grammar_assignment :
    let token (kind : Kind) : Token := ⟨kind, [], .nil, .start⟩
    let name := token .identifier
    let x : Expr := .variable name
    let right := token .rightParen
    let ts := [name, token .equal, name, token .leftParen, name, right, token .kwOr, token .minus,
      name, token .star, name, token .greaterEqual, name, token .question, token .bang, name,
      token .equalEqual, name, token .colon, name, token .plusPlus, token .plus, name, token .comma,
      name, token .kwAnd, name]
    let product : Expr := .binary (token .star) (.unary (token .minus) x) x
    let condition : Expr := .logicalOr (token .kwOr) (.call x right [x])
      (.binary (token .greaterEqual) product x)
    let yes : Expr := .binary (token .equalEqual) (.unary (token .bang) x) x
    let no : Expr := .binary (token .plus) (.crement (token .plusPlus) x) x
    let e : Expr := .comma (.assign name (.conditional (token .question) condition yes no))
      (.logicalAnd (token .kwAnd) x x)
    Derives (.phrase .expression e) ts ∧ parse (ts ++ [token .endOfInput]) = ⟨some e, []⟩ := by
  intro token name x right ts product condition yes no e
  have call : Derives (.phrase .call x) [name] := .primary (.atom rfl)
  have unary : Derives (.phrase .unary x) [name] := .suffixed (.call call)
  have applied : Derives (.phrase .unary (.call x right [x]))
      [name, token .leftParen, name, right] :=
    .suffixed (.call (.apply call rfl (.oneArgument (.conditional (.disjunction unary.of_unary)))
      (by decide) rfl))
  have negative : Derives (.phrase .unary (.unary (token .minus) x)) [token .minus, name] :=
    .negation (by decide) unary
  have dproduct : Derives (.phrase (.chain .factor) product)
      [token .minus, name, token .star, name] :=
    .link (.operand (l := .factor) negative) (.factor (by decide)) unary
  have dcomparison : Derives
      (.phrase (.chain .comparison) (.binary (token .greaterEqual) product x))
      [token .minus, name, token .star, name, token .greaterEqual, name] :=
    .link (.operand (l := .comparison) (.operand (l := .term) dproduct)) (.comparison (by decide))
      unary.term_of_unary
  have dcondition : Derives (.phrase (.chain .or) condition) [name, token .leftParen, name, right,
      token .kwOr, token .minus, name, token .star, name, token .greaterEqual, name] :=
    .link applied.of_unary (.or rfl) (.operand (l := .and) (.operand (l := .equality) dcomparison))
  have opposite : Derives (.phrase .unary (.unary (token .bang) x)) [token .bang, name] :=
    .negation (by decide) unary
  have dyes : Derives (.phrase (.chain .equality) yes)
      [token .bang, name, token .equalEqual, name] :=
    .link opposite.term_of_unary.equality_of_term (.equality (by decide))
      (.operand (l := .comparison) unary.term_of_unary)
  have greater : Derives (.phrase .unary (.crement (token .plusPlus) x)) [name, token .plusPlus] :=
    .suffixed (.postcrement call (by decide))
  have dno : Derives (.phrase (.chain .term) no) [name, token .plusPlus, token .plus, name] :=
    .link greater.term_of_unary (.term (by decide)) (.operand (l := .factor) unary)
  have dlast : Derives (.phrase (.chain .and) (.logicalAnd (token .kwAnd) x x))
      [name, token .kwAnd, name] :=
    .link (.operand (l := .and) unary.term_of_unary.equality_of_term) (.and rfl)
      unary.term_of_unary.equality_of_term
  have dassignment : Derives (.phrase .assignment (.assign name
      (.conditional (token .question) condition yes no))) (ts.take 23) :=
    .assign rfl rfl (.conditional (.choice dcondition rfl
      (.conditional (.disjunction dyes.of_equality)) rfl
      (.disjunction dno.equality_of_term.of_equality)))
  have d : Derives (.phrase .expression e) ts :=
    .link (.operand (l := .comma) dassignment) (.comma rfl)
      (.conditional (.disjunction (.operand (l := .or) dlast)))
  obtain ⟨h, hlong⟩ := parse_follows_grammar.2 ts [] e (token .endOfInput) d rfl
  have hparse : parse (ts ++ [token .endOfInput]) = ⟨some e, []⟩ :=
    h.resolve_right fun h => absurd (hlong h) (by decide)
  have back := parse_follows_grammar.1 _ e hparse
  rw [takeWhile_before_end (by decide) rfl] at back
  exact ⟨back, hparse⟩

end LoneExpression
end Lox
