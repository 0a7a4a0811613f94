import Lox.Proofs.Syntax.Steps

/-! What a parse can change. However a step ends, it has only passed tokens and added faults; the
counters are what they were before, but for the nesting within a chain. -/
namespace Lox

/-- The kinds of the tokens that expressions are made of. -/
def Kind.inExpression : Kind → Bool
  | .leftParen | .rightParen | .comma | .minus | .plus | .slash | .star | .question | .colon
  | .bang | .bangEqual | .equal | .equalEqual | .greater | .greaterEqual | .less | .lessEqual
  | .plusPlus | .minusMinus | .identifier | .string | .number
  | .kwAnd | .kwFalse | .kwNil | .kwOr | .kwTrue => true
  | _ => false

/-- The kinds of the tokens that a parse can pass at all. -/
def Kind.passable (k : Kind) : Bool := k ≠ .endOfInput

theorem Kind.passable_of_inExpression {k : Kind} (h : k.inExpression = true) :
    k.passable = true := by
  cases k <;> first | rfl | cases h

/-- The state that a step ends in. -/
def Parse.final {α : Type} : EStateM.Result Interrupt Parser α → Parser
  | .ok _ q => q
  | .error _ q => q

/-- `q` comes after `p` in a parse that has passed tokens of `allowed` kinds only. -/
structure Parser.Follows (allowed : Kind → Bool) (p q : Parser) : Prop where
  passed : ∃ ts, p.rest = ts ++ q.rest ∧ q.consumed = p.consumed + ts.length ∧
    ∀ t ∈ ts, allowed t.kind = true
  faults : p.faults <:+ q.faults
  loops : q.loops = p.loops
  functions : q.functions = p.functions
  blocks : q.blocks = p.blocks
  start : q.start = p.start

namespace Parser.Follows
variable {allowed : Kind → Bool} {p q r : Parser}

theorem refl (allowed : Kind → Bool) (p : Parser) : p.Follows allowed p :=
  ⟨⟨[], rfl, rfl, by simp⟩, List.suffix_rfl, rfl, rfl, rfl, rfl⟩

theorem trans (h : p.Follows allowed q) (h' : q.Follows allowed r) : p.Follows allowed r := by
  obtain ⟨ts, hr, hc, ha⟩ := h.passed
  obtain ⟨us, hr', hc', ha'⟩ := h'.passed
  refine ⟨⟨ts ++ us, ?_, ?_, ?_⟩, h.faults.trans h'.faults, h'.loops.trans h.loops,
    h'.functions.trans h.functions, h'.blocks.trans h.blocks, h'.start.trans h.start⟩
  · rw [hr, hr', List.append_assoc]
  · rw [hc', hc, List.length_append, Nat.add_assoc]
  · intro t ht
    rcases List.mem_append.mp ht with ht | ht
    · exact ha t ht
    · exact ha' t ht

theorem mono {wider : Kind → Bool} (hw : ∀ k, allowed k = true → wider k = true)
    (h : p.Follows allowed q) : p.Follows wider q := by
  obtain ⟨ts, hr, hc, ha⟩ := h.passed
  exact ⟨⟨ts, hr, hc, fun t ht => hw _ (ha t ht)⟩, h.faults, h.loops, h.functions, h.blocks, h.start⟩

theorem suffix (h : p.Follows allowed q) : q.rest <:+ p.rest := by
  obtain ⟨ts, hr, -, -⟩ := h.passed
  exact ⟨ts, hr.symm⟩

theorem length_le (h : p.Follows allowed q) : q.rest.length ≤ p.rest.length := h.suffix.length_le

theorem faults_le (h : p.Follows allowed q) : p.faults.length ≤ q.faults.length :=
  h.faults.length_le

theorem atDepth (h : p.Follows allowed q) (d : Nat) : p.Follows allowed (q.atDepth d) :=
  ⟨h.passed, h.faults, h.loops, h.functions, h.blocks, h.start⟩

theorem report (e : SyntaxError) (t : Token) : p.Follows allowed (p.report e t) :=
  ⟨⟨[], rfl, rfl, by simp⟩, List.suffix_cons _ _, rfl, rfl, rfl, rfl⟩

theorem pass_current (hk : allowed p.current.kind = true) (hend : allowed .endOfInput = false) :
    p.Follows allowed (p.pass [p.current]) := by
  have hne : p.current.kind ≠ .endOfInput := by
    intro h
    rw [h, hend] at hk
    cases hk
  exact ⟨⟨[p.current], rest_eq_cons hne, rfl, by simpa using hk⟩, List.suffix_rfl, rfl, rfl, rfl, rfl⟩

end Parser.Follows

namespace Parse
variable {α β : Type} {allowed : Kind → Bool}

/-- However the step ends, the parse is further on; where it gives up, there is a new fault. -/
structure Steady (allowed : Kind → Bool) (step : Parse α) : Prop where
  follows : ∀ p : Parser, p.Follows allowed (final (step p))
  bails : ∀ p q, step p = .error .bail q → p.faults.length < q.faults.length

/-- A steady step that keeps the nesting too. -/
structure Keeps (allowed : Kind → Bool) (step : Parse α) : Prop extends Steady allowed step where
  depth : ∀ p, (final (step p)).depth = p.depth

theorem Steady.of_ok {step : Parse α} {p q : Parser} {a : α} (h : Steady allowed step)
    (hs : step p = .ok a q) : p.Follows allowed q := by
  have := h.follows p
  rwa [hs] at this

theorem Steady.of_error {step : Parse α} {p q : Parser} {e : Interrupt} (h : Steady allowed step)
    (hs : step p = .error e q) : p.Follows allowed q := by
  have := h.follows p
  rwa [hs] at this

theorem Steady.faults_le {step : Parse α} {p q : Parser} {a : α} (h : Steady allowed step)
    (hs : step p = .ok a q) : p.faults.length ≤ q.faults.length := (h.of_ok hs).faults_le

theorem Keeps.depth_of_ok {step : Parse α} {p q : Parser} {a : α} (h : Keeps allowed step)
    (hs : step p = .ok a q) : q.depth = p.depth := by
  have := h.depth p
  rwa [hs] at this

theorem Steady.bind {x : Parse α} {f : α → Parse β} (hx : Steady allowed x)
    (hf : ∀ a, Steady allowed (f a)) : Steady allowed (x >>= f) where
  follows p := by
    cases h : x p with
    | ok a q =>
      rw [bind_ok h]
      exact (hx.of_ok h).trans ((hf a).follows q)
    | error e q =>
      rw [bind_error h]
      exact hx.of_error h
  bails p r hr := by
    cases h : x p with
    | ok a q =>
      rw [bind_ok h] at hr
      have := (hx.of_ok h).faults_le
      have := (hf a).bails q r hr
      omega
    | error e q =>
      rw [bind_error h] at hr
      cases hr
      exact hx.bails p r h

theorem Keeps.bind {x : Parse α} {f : α → Parse β} (hx : Keeps allowed x)
    (hf : ∀ a, Keeps allowed (f a)) : Keeps allowed (x >>= f) where
  toSteady := hx.toSteady.bind fun a => (hf a).toSteady
  depth p := by
    cases h : x p with
    | ok a q => rw [bind_ok h, (hf a).depth, hx.depth_of_ok h]
    | error e q =>
      have := hx.depth p
      rw [bind_error h]
      rwa [h] at this

/-- A step that ends normally in a state further on. -/
theorem keeps_of_eq {step : Parse α} (next : Parser → Parser) (value : Parser → α)
    (hs : ∀ p, step p = .ok (value p) (next p)) (hf : ∀ p : Parser, p.Follows allowed (next p))
    (hd : ∀ p, (next p).depth = p.depth) : Keeps allowed step where
  follows p := by rw [hs]; exact hf p
  bails p q h := by rw [hs] at h; cases h
  depth p := by rw [hs]; exact hd p

/-- A step that goes on, from each state, as some step that keeps the nesting. -/
theorem Keeps.of_apply {step : Parse α}
    (h : ∀ p, ∃ (next : Parse α) (q : Parser), Keeps allowed next ∧ p.Follows allowed q ∧
      q.depth = p.depth ∧ step p = next q) : Keeps allowed step := by
  refine ⟨⟨fun p => ?_, fun p r hr => ?_⟩, fun p => ?_⟩
  · obtain ⟨next, q, hn, hq, -, hs⟩ := h p
    rw [hs]
    exact hq.trans (hn.follows q)
  · obtain ⟨next, q, hn, hq, -, hs⟩ := h p
    have := hn.bails q r (hs ▸ hr)
    have := hq.faults_le
    omega
  · obtain ⟨next, q, hn, -, hd, hs⟩ := h p
    rw [hs, hn.depth, hd]

theorem keeps_pure (a : α) : Keeps allowed (pure a : Parse α) :=
  keeps_of_eq id (fun _ => a) (fun _ => rfl) (.refl _) (fun _ => rfl)

theorem keeps_throw : Keeps allowed (throw .stalled : Parse α) where
  follows := .refl _
  bails p q h := by cases h
  depth _ := rfl

theorem keeps_check (k : Kind) : Keeps allowed (check k) :=
  keeps_of_eq id (fun p => p.current.kind = k) (fun _ => rfl) (.refl _) (fun _ => rfl)

theorem keeps_atEnd : Keeps allowed Parse.atEnd :=
  keeps_of_eq id Parser.atEnd (fun _ => rfl) (.refl _) (fun _ => rfl)

theorem keeps_report (e : SyntaxError) (t : Token) : Keeps allowed (report e t) :=
  keeps_of_eq (·.report e t) (fun _ => ()) (fun _ => rfl) (fun _ => .report e t) (fun _ => rfl)

theorem keeps_fail (e : SyntaxError) (t : Token) : Keeps allowed (fail e t : Parse α) where
  follows _ := .report e t
  bails p q h := by
    rw [fail_apply] at h
    cases h
    exact Nat.lt_succ_self _
  depth _ := rfl

theorem keeps_tally (e : SyntaxError) (count : Nat) : Keeps allowed (tally e count) := by
  refine keeps_of_eq _ _ (fun _ => rfl) (fun p => ?_) (fun p => ?_)
  · split
    · exact .report e p.current
    · exact .refl _ p
  · split <;> rfl

theorem keeps_accept {w : Kind → Bool} (hw : ∀ k, w k = true → allowed k = true)
    (hend : allowed .endOfInput = false) : Keeps allowed (accept w) := by
  have hwend : w .endOfInput = false := by
    cases h : w .endOfInput with
    | false => rfl
    | true => rw [hw _ h] at hend; cases hend
  refine .of_apply fun p => ?_
  cases hk : w p.current.kind with
  | false => exact ⟨pure none, p, keeps_pure _, .refl _ p, rfl, accept_none hk⟩
  | true =>
    exact ⟨pure (some p.current), _, keeps_pure _, .pass_current (hw _ hk) hend, rfl,
      accept_some hwend hk⟩

theorem keeps_expect {k : Kind} (what : String) (hk : allowed k = true)
    (hend : allowed .endOfInput = false) : Keeps allowed (expect k what) := by
  have hne : k ≠ .endOfInput := by
    intro h
    rw [h, hend] at hk
    cases hk
  refine .of_apply fun p => ?_
  by_cases hp : p.current.kind = k
  · exact ⟨pure p.current, _, keeps_pure _, .pass_current (hp ▸ hk) hend, rfl, expect_ok hne hp⟩
  · exact ⟨fail (.expected what) p.current, p, keeps_fail _ _, .refl _ p, rfl,
      by rw [expect, if_neg hp]⟩

theorem steady_deepen : Steady allowed deepen where
  follows p := by
    by_cases hd : p.depth < maxNesting
    · rw [deepen_ok hd]
      exact (Parser.Follows.refl _ p).atDepth _
    · rw [deepen_error (by omega)]
      exact .report _ _
  bails p q h := by
    by_cases hd : p.depth < maxNesting
    · rw [deepen_ok hd] at h
      cases h
    · rw [deepen_error (by omega)] at h
      cases h
      exact Nat.lt_succ_self _

theorem keeps_restoringDepth {step : Parse α} (h : Steady allowed step) :
    Keeps allowed (restoringDepth step) := by
  refine ⟨⟨fun p => ?_, fun p q hq => ?_⟩, fun p => ?_⟩
  · have := (h.follows p).atDepth p.depth
    rw [restoringDepth_apply]
    cases hs : step p <;> rw [hs] at this <;> exact this
  · rw [restoringDepth_apply] at hq
    cases hs : step p with
    | ok a r => rw [hs] at hq; cases hq
    | error e r =>
      rw [hs] at hq
      cases hq
      exact h.bails p r hs
  · rw [restoringDepth_apply]
    cases step p <;> rfl

theorem keeps_nested {step : Parse α} (h : Steady allowed step) : Keeps allowed (nested step) :=
  keeps_restoringDepth (steady_deepen.bind fun _ => h)

theorem keeps_map (f : α → β) {x : Parse α} (hx : Keeps allowed x) : Keeps allowed (f <$> x) := by
  have h : f <$> x = x >>= fun a => pure (f a) := by
    funext p
    rw [map_apply, bind_apply]
    rfl
  rw [h]
  exact hx.bind fun a => keeps_pure (f a)

/-! Expressions. -/

theorem inExpression_of_joins {l : Level} {k : Kind} (h : l.joins k = true) :
    k.inExpression = true := by
  cases k <;> first | rfl | (cases l <;> cases h)

theorem inExpression_of_isNegation {k : Kind} (h : k.isNegation = true) :
    k.inExpression = true := by
  simp only [Kind.isNegation, Bool.or_eq_true, decide_eq_true_eq] at h
  rcases h with rfl | rfl <;> rfl

theorem inExpression_of_isCrement {k : Kind} (h : k.isCrement = true) :
    k.inExpression = true := by
  simp only [Kind.isCrement, Bool.or_eq_true, decide_eq_true_eq] at h
  rcases h with rfl | rfl <;> rfl

theorem keeps_accept_kind {k : Kind} (hk : allowed k = true)
    (hend : allowed .endOfInput = false) : Keeps allowed (accept (· = k)) :=
  keeps_accept (fun j hj => by rw [of_decide_eq_true hj]; exact hk) hend

theorem inExpression_of_atom {t : Token} {e : Expr} (h : t.atom? = some e) :
    t.kind.inExpression = true := by
  unfold Token.atom? at h
  split at h <;> first | (simp only [*]; rfl) | cases h

theorem inExpression_of_derives {f : Form} {ts : List Token} (h : Derives f ts) :
    ∀ t ∈ ts, t.kind.inExpression = true := by
  induction h with
  | operand _ ih | conditional _ ih | disjunction _ ih | suffixed _ ih | call _ ih | primary _ ih
  | oneArgument _ ih => exact ih
  | link _ hop _ ihl ihr =>
    have hjoins := (joined_iff.1 hop).1
    exact List.forall_mem_append.2 ⟨ihl, List.forall_mem_cons.2 ⟨inExpression_of_joins hjoins, ihr⟩⟩
  | assign hn he _ ih =>
    exact List.forall_mem_cons.2 ⟨by rw [hn]; rfl, List.forall_mem_cons.2 ⟨by rw [he]; rfl, ih⟩⟩
  | choice _ hq _ hc _ ihc ihy ihn =>
    refine List.forall_mem_append.2 ⟨ihc, List.forall_mem_cons.2 ⟨by rw [hq]; rfl, ?_⟩⟩
    exact List.forall_mem_append.2 ⟨ihy, List.forall_mem_cons.2 ⟨by rw [hc]; rfl, ihn⟩⟩
  | negation hop _ ih =>
    have hsign := Kind.isNegation_iff.2 hop
    exact List.forall_mem_cons.2 ⟨inExpression_of_isNegation hsign, ih⟩
  | precrement hop _ ih =>
    have hsign := Kind.isCrement_iff.2 hop
    exact List.forall_mem_cons.2 ⟨inExpression_of_isCrement hsign, ih⟩
  | postcrement _ hop ih =>
    have hsign := Kind.isCrement_iff.2 hop
    exact List.forall_mem_append.2
      ⟨ih, List.forall_mem_singleton.2 (inExpression_of_isCrement hsign)⟩
  | apply _ hl _ _ hr ihc iha =>
    refine List.forall_mem_append.2 ⟨ihc, List.forall_mem_cons.2 ⟨by rw [hl]; rfl, ?_⟩⟩
    exact List.forall_mem_append.2 ⟨iha, List.forall_mem_singleton.2 (by rw [hr]; rfl)⟩
  | atom h => exact List.forall_mem_singleton.2 (inExpression_of_atom h)
  | grouping hl _ hr ih =>
    refine List.forall_mem_cons.2 ⟨by rw [hl]; rfl, ?_⟩
    exact List.forall_mem_append.2 ⟨ih, List.forall_mem_singleton.2 (by rw [hr]; rfl)⟩
  | noArgument => exact nofun
  | moreArguments _ hc _ ihf iho =>
    exact List.forall_mem_append.2 ⟨ihf, List.forall_mem_cons.2 ⟨by rw [hc]; rfl, iho⟩⟩

/-- The parsers of expressions keep all counters, or all but the nesting within a chain. -/
structure ExpressionCourse (n : Nat) : Prop where
  expression : Keeps Kind.inExpression (expression n)
  chain : ∀ l, Keeps Kind.inExpression (chain n l)
  operand : ∀ l, Keeps Kind.inExpression (operand n l)
  links : ∀ l e, Steady Kind.inExpression (links n l e)
  assignment : Keeps Kind.inExpression (assignment n)
  conditional : Keeps Kind.inExpression (conditional n)
  unary : Keeps Kind.inExpression (unary n)
  suffixed : Keeps Kind.inExpression (suffixed n)
  call : Keeps Kind.inExpression (call n)
  calls : ∀ e, Steady Kind.inExpression (calls n e)
  arguments : Keeps Kind.inExpression (arguments n)
  argumentList : ∀ c es, Keeps Kind.inExpression (argumentList n c es)
  primary : Keeps Kind.inExpression (primary n)

theorem ExpressionCourse.zero : ExpressionCourse 0 := by
  constructor <;> intros <;> first | exact keeps_throw | exact keeps_throw.toSteady

namespace ExpressionCourse
variable {n : Nat}

private theorem links_succ (h : ExpressionCourse n) (l : Level) (e : Expr) :
    Steady Kind.inExpression (Parse.links (n + 1) l e) := by
  unfold Parse.links
  refine (keeps_accept (fun _ => inExpression_of_joins) rfl).toSteady.bind fun o => ?_
  cases o with
  | none => exact (keeps_pure e).toSteady
  | some op =>
    exact steady_deepen.bind fun _ => (h.operand l).toSteady.bind fun right => h.links l _

private theorem operand_succ (h : ExpressionCourse n) (l : Level) :
    Keeps Kind.inExpression (Parse.operand (n + 1) l) := by
  cases l with
  | comma => exact h.assignment
  | or => exact h.chain .and
  | and => exact h.chain .equality
  | equality => exact h.chain .comparison
  | comparison => exact h.chain .term
  | term => exact h.chain .factor
  | factor => exact h.unary

private theorem assignment_succ (h : ExpressionCourse n) :
    Keeps Kind.inExpression (Parse.assignment (n + 1)) := by
  unfold Parse.assignment
  refine h.conditional.bind fun target => (keeps_accept_kind rfl rfl).bind fun o => ?_
  cases o with
  | none => exact keeps_pure target
  | some equals =>
    refine keeps_nested (h.assignment.toSteady.bind fun value => ?_)
    split
    · exact (keeps_pure _).toSteady
    · exact ((keeps_report _ _).bind fun _ => keeps_pure _).toSteady

private theorem conditional_succ (h : ExpressionCourse n) :
    Keeps Kind.inExpression (Parse.conditional (n + 1)) := by
  unfold Parse.conditional
  refine (h.chain .or).bind fun condition => (keeps_accept_kind rfl rfl).bind fun o => ?_
  cases o with
  | none => exact keeps_pure condition
  | some question =>
    exact keeps_nested (h.assignment.bind fun yes => (keeps_expect _ rfl rfl).bind fun _ =>
      h.conditional.bind fun no => keeps_pure _).toSteady

private theorem unary_succ (h : ExpressionCourse n) :
    Keeps Kind.inExpression (Parse.unary (n + 1)) := by
  unfold Parse.unary
  refine (keeps_accept (fun _ => inExpression_of_isNegation) rfl).bind fun o => ?_
  cases o with
  | some op => exact keeps_nested (h.unary.bind fun operand => keeps_pure _).toSteady
  | none =>
    refine (keeps_accept (fun _ => inExpression_of_isCrement) rfl).bind fun o => ?_
    cases o with
    | some op => exact keeps_nested (h.unary.bind fun target => keeps_pure _).toSteady
    | none => exact h.suffixed

private theorem suffixed_succ (h : ExpressionCourse n) :
    Keeps Kind.inExpression (Parse.suffixed (n + 1)) := by
  unfold Parse.suffixed
  refine h.call.bind fun target =>
    (keeps_accept (fun _ => inExpression_of_isCrement) rfl).bind fun o => ?_
  cases o <;> exact keeps_pure _

private theorem calls_succ (h : ExpressionCourse n) (e : Expr) :
    Steady Kind.inExpression (Parse.calls (n + 1) e) := by
  unfold Parse.calls
  refine (keeps_accept_kind rfl rfl).toSteady.bind fun o => ?_
  cases o with
  | none => exact (keeps_pure e).toSteady
  | some _ =>
    exact steady_deepen.bind fun _ => h.arguments.toSteady.bind fun args =>
      (keeps_expect _ rfl rfl).toSteady.bind fun paren => h.calls _

private theorem arguments_succ (h : ExpressionCourse n) :
    Keeps Kind.inExpression (Parse.arguments (n + 1)) := by
  unfold Parse.arguments
  refine (keeps_check _).bind fun b => ?_
  split
  · exact keeps_pure []
  · exact h.argumentList 0 []

private theorem argumentList_succ (h : ExpressionCourse n) (c : Nat) (es : List Expr) :
    Keeps Kind.inExpression (Parse.argumentList (n + 1) c es) := by
  rw [Parse.argumentList_succ]
  refine (keeps_tally _ c).bind fun _ => h.assignment.bind fun arg =>
    (keeps_accept_kind rfl rfl).bind fun o => ?_
  cases o with
  | none => exact keeps_pure _
  | some _ => exact h.argumentList _ _

private theorem primary_succ (h : ExpressionCourse n) :
    Keeps Kind.inExpression (Parse.primary (n + 1)) := by
  have group : Keeps Kind.inExpression (do
      let inner ← Parse.expression n
      let _ ← expect .rightParen "')' after expression"
      pure (Expr.grouping inner)) :=
    h.expression.bind fun inner => (keeps_expect _ rfl rfl).bind fun _ => keeps_pure _
  have first (p : Parser) (hp : p.current.kind.inExpression = true) :
      p.Follows Kind.inExpression (p.pass [p.current]) := .pass_current hp rfl
  refine .of_apply fun p => ?_
  cases ha : p.current.atom? with
  | some e =>
    exact ⟨pure e, _, keeps_pure e, first p (inExpression_of_atom ha), rfl, primary_atom ha⟩
  | none =>
    by_cases hk : p.current.kind = .leftParen
    · exact ⟨_, _, group, first p (hk ▸ rfl), rfl, primary_grouping hk⟩
    · exact ⟨fail .expectedExpression p.current, p, keeps_fail _ _, .refl _ p, rfl,
        primary_error ha hk⟩

theorem succ (h : ExpressionCourse n) : ExpressionCourse (n + 1) where
  expression := keeps_nested (h.chain .comma).toSteady
  chain l := keeps_restoringDepth ((h.operand l).toSteady.bind fun first => h.links l first)
  operand := operand_succ h
  links := links_succ h
  assignment := assignment_succ h
  conditional := conditional_succ h
  unary := unary_succ h
  suffixed := suffixed_succ h
  call := keeps_restoringDepth (h.primary.toSteady.bind fun callee => h.calls callee)
  calls := calls_succ h
  arguments := arguments_succ h
  argumentList := argumentList_succ h
  primary := primary_succ h

end ExpressionCourse

theorem expressionCourse (n : Nat) : ExpressionCourse n := by
  induction n with
  | zero => exact .zero
  | succ n ih => exact ih.succ

end Parse
end Lox
