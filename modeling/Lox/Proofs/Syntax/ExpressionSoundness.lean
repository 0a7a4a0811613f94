import Lox.Proofs.Syntax.Course

/-! What is parsed as an expression without a fault is one: the tokens passed derive the tree that
is returned. -/
namespace Lox.Parse

/-- Where the step ends normally and reports nothing, it has passed a phrase of the category. -/
def Passes (c : Category) (step : Parse Expr) : Prop :=
  ∀ ⦃p q : Parser⦄ ⦃e : Expr⦄, step p = .ok e q → q.faults.length ≤ p.faults.length →
    ∃ ts, p.rest = ts ++ q.rest ∧ Derives (.phrase c e) ts

/-- Where the step ends normally and reports nothing, it has passed what makes a longer phrase of
the category out of the phrase of `a`. -/
def Extends (c : Category) (a : Expr) (step : Parse Expr) : Prop :=
  ∀ ⦃p q : Parser⦄ ⦃e : Expr⦄, step p = .ok e q → q.faults.length ≤ p.faults.length →
    ∃ us, p.rest = us ++ q.rest ∧
      ∀ ts, Derives (.phrase c a) ts → Derives (.phrase c e) (ts ++ us)

theorem joins_endOfInput (l : Level) : l.joins .endOfInput = false := by
  cases l <;> rfl

/-- The parsers of expressions accept only what the grammar derives. -/
structure ExpressionSound (n : Nat) : Prop where
  expression : Passes .expression (expression n)
  chain : ∀ l, Passes (.chain l) (chain n l)
  operand : ∀ l, Passes l.operands (operand n l)
  links : ∀ l a, Extends (.chain l) a (links n l a)
  assignment : Passes .assignment (assignment n)
  conditional : Passes .conditional (conditional n)
  unary : Passes .unary (unary n)
  suffixed : Passes .suffixed (suffixed n)
  call : Passes .call (call n)
  calls : ∀ f, Extends .call f (calls n f)
  arguments : ∀ ⦃p q : Parser⦄ ⦃es : List Expr⦄, arguments n p = .ok es q →
    q.faults.length ≤ p.faults.length →
    ∃ us, p.rest = us ++ q.rest ∧ Derives (.arguments es) us ∧ es.length ≤ maxArguments
  argumentList : ∀ (count : Nat) (before : List Expr) ⦃p q : Parser⦄ ⦃es : List Expr⦄,
    argumentList n count before p = .ok es q → q.faults.length ≤ p.faults.length →
    count ≤ maxArguments →
    ∃ us f fs, p.rest = us ++ q.rest ∧ es = before.reverse ++ f :: fs ∧
      Derives (.arguments (f :: fs)) us ∧ count + (f :: fs).length ≤ maxArguments
  primary : Passes .primary (primary n)

theorem ExpressionSound.zero : ExpressionSound 0 where
  expression _ _ _ h := nomatch h
  chain _ _ _ _ h := nomatch h
  operand _ _ _ _ h := nomatch h
  links _ _ _ _ _ h := nomatch h
  assignment _ _ _ h := nomatch h
  conditional _ _ _ h := nomatch h
  unary _ _ _ h := nomatch h
  suffixed _ _ _ h := nomatch h
  call _ _ _ h := nomatch h
  calls _ _ _ _ h := nomatch h
  arguments _ _ _ h := nomatch h
  argumentList _ _ _ _ _ h := nomatch h
  primary _ _ _ h := nomatch h

namespace ExpressionSound
variable {n : Nat}

private theorem expression_succ (ih : ExpressionSound n) :
    Passes .expression (Parse.expression (n + 1)) := by
  intro p r e h hf
  obtain ⟨-, q, hq, rfl⟩ := nested_eq_ok h
  obtain ⟨ts, hts, dts⟩ := ih.chain .comma hq hf
  exact ⟨ts, hts, dts⟩

private theorem chain_succ (ih : ExpressionSound n) (l : Level) :
    Passes (.chain l) (Parse.chain (n + 1) l) := by
  intro p r e h hf
  obtain ⟨q, hq, rfl⟩ := restoringDepth_eq_ok h
  obtain ⟨first, s, h₁, h₂⟩ := bind_eq_ok hq
  have hs := ((expressionCourse n).operand l).faults_le h₁
  have hq := ((expressionCourse n).links l first).faults_le h₂
  change q.faults.length ≤ p.faults.length at hf
  obtain ⟨ts, hts, dts⟩ := ih.operand l h₁ (by omega)
  obtain ⟨us, hus, dus⟩ := ih.links l first h₂ (by omega)
  refine ⟨ts ++ us, ?_, dus ts (.operand dts)⟩
  rw [hts, hus, List.append_assoc]
  rfl

private theorem operand_succ (ih : ExpressionSound n) (l : Level) :
    Passes l.operands (Parse.operand (n + 1) l) := by
  cases l with
  | comma => exact ih.assignment
  | or => exact ih.chain .and
  | and => exact ih.chain .equality
  | equality => exact ih.chain .comparison
  | comparison => exact ih.chain .term
  | term => exact ih.chain .factor
  | factor => exact ih.unary

private theorem links_succ (ih : ExpressionSound n) (l : Level) (a : Expr) :
    Extends (.chain l) a (Parse.links (n + 1) l a) := by
  intro p r e h hf
  unfold Parse.links at h
  obtain ⟨o, q, ho, h₀⟩ := bind_eq_ok h
  obtain ⟨rfl, rfl, -⟩ | ⟨rfl, rfl, hop, hp⟩ := accept_eq_ok (joins_endOfInput l) ho
  · cases h₀
    exact ⟨[], rfl, fun ts d => by rwa [List.append_nil]⟩
  · obtain ⟨_, q, hq, h₁⟩ := bind_eq_ok h₀
    obtain ⟨-, rfl⟩ := deepen_eq_ok hq
    obtain ⟨right, s, h₂, h₃⟩ := bind_eq_ok h₁
    have hs := ((expressionCourse n).operand l).faults_le h₂
    have hr := ((expressionCourse n).links l _).faults_le h₃
    change p.faults.length ≤ s.faults.length at hs
    obtain ⟨us, hus, dus⟩ := ih.operand l h₂ (Nat.le_trans hr hf)
    obtain ⟨vs, hvs, dvs⟩ := ih.links l _ h₃ (by omega)
    change (p.pass [p.current]).rest = us ++ s.rest at hus
    refine ⟨p.current :: (us ++ vs), ?_, fun ts d => ?_⟩
    · rw [hp, hus, hvs]
      simp
    · have := dvs _ (.link d (joined_iff.2 ⟨hop, rfl⟩) dus)
      simpa only [List.append_assoc, List.cons_append] using this

private theorem assignment_succ (ih : ExpressionSound n) :
    Passes .assignment (Parse.assignment (n + 1)) := by
  intro p r e h hf
  unfold Parse.assignment at h
  obtain ⟨target, q, h₁, h₀⟩ := bind_eq_ok h
  obtain ⟨o, s, ho, h₂⟩ := bind_eq_ok h₀
  have hq := (expressionCourse n).conditional.faults_le h₁
  obtain ⟨rfl, rfl, -⟩ | ⟨rfl, rfl, hop, hs⟩ := accept_eq_ok rfl ho
  · cases h₂
    obtain ⟨ts, hts, dts⟩ := ih.conditional h₁ hf
    exact ⟨ts, hts, .conditional dts⟩
  · obtain ⟨-, u, hu, rfl⟩ := nested_eq_ok h₂
    obtain ⟨value, v, h₃, h₄⟩ := bind_eq_ok hu
    have hv := (expressionCourse n).assignment.faults_le h₃
    change q.faults.length ≤ v.faults.length at hv
    change u.faults.length ≤ p.faults.length at hf
    split at h₄
    · next name =>
      cases h₄
      obtain ⟨ts, hts, dts⟩ := ih.conditional h₁ (by omega)
      obtain ⟨us, hus, dus⟩ := ih.assignment h₃ (Nat.le_trans hf hq)
      obtain ⟨rfl, hn⟩ := dts.eq_name rfl
      change (q.pass [q.current]).rest = us ++ u.rest at hus
      refine ⟨name :: q.current :: us, ?_, .assign hn (of_decide_eq_true hop) dus⟩
      rw [hts, hs, hus]
      rfl
    · -- a target that is no variable is reported
      cases h₄
      change v.faults.length + 1 ≤ p.faults.length at hf
      omega

private theorem conditional_succ (ih : ExpressionSound n) :
    Passes .conditional (Parse.conditional (n + 1)) := by
  intro p r e h hf
  unfold Parse.conditional at h
  obtain ⟨condition, q, h₁, h₀⟩ := bind_eq_ok h
  obtain ⟨o, s, ho, h₂⟩ := bind_eq_ok h₀
  have hq := ((expressionCourse n).chain .or).faults_le h₁
  obtain ⟨rfl, rfl, -⟩ | ⟨rfl, rfl, hop, hs⟩ := accept_eq_ok rfl ho
  · cases h₂
    obtain ⟨ts, hts, dts⟩ := ih.chain .or h₁ hf
    exact ⟨ts, hts, .disjunction dts⟩
  · obtain ⟨-, u, hu, rfl⟩ := nested_eq_ok h₂
    obtain ⟨yes, v, h₃, h₄⟩ := bind_eq_ok hu
    obtain ⟨colon, w, hw, h₅⟩ := bind_eq_ok h₄
    obtain ⟨hc, hvw, rfl⟩ := expect_eq_ok (by decide) hw
    obtain ⟨no, x, h₆, h₇⟩ := bind_eq_ok h₅
    cases h₇
    have hv := (expressionCourse n).assignment.faults_le h₃
    have hx := (expressionCourse n).conditional.faults_le h₆
    change q.faults.length ≤ v.faults.length at hv
    change v.faults.length ≤ u.faults.length at hx
    change u.faults.length ≤ p.faults.length at hf
    obtain ⟨ts, hts, dts⟩ := ih.chain .or h₁ (by omega)
    obtain ⟨us, hus, dus⟩ := ih.assignment h₃ (show v.faults.length ≤ q.faults.length by omega)
    obtain ⟨vs, hvs, dvs⟩ := ih.conditional h₆ (show u.faults.length ≤ v.faults.length by omega)
    change (q.pass [q.current]).rest = us ++ v.rest at hus
    refine ⟨ts ++ q.current :: (us ++ colon :: vs), ?_,
      .choice dts (of_decide_eq_true hop) dus hc dvs⟩
    rw [hts, hs, hus, hvw, hvs]
    simp

private theorem unary_succ (ih : ExpressionSound n) : Passes .unary (Parse.unary (n + 1)) := by
  intro p r e h hf
  unfold Parse.unary at h
  obtain ⟨o, s, ho, h₁⟩ := bind_eq_ok h
  obtain ⟨rfl, rfl, -⟩ | ⟨rfl, rfl, hop, hs⟩ := accept_eq_ok rfl ho
  · obtain ⟨o, s, ho, h₂⟩ := bind_eq_ok h₁
    obtain ⟨rfl, rfl, -⟩ | ⟨rfl, rfl, hop, hs⟩ := accept_eq_ok rfl ho
    · obtain ⟨ts, hts, dts⟩ := ih.suffixed h₂ hf
      exact ⟨ts, hts, .suffixed dts⟩
    · obtain ⟨-, u, hu, rfl⟩ := nested_eq_ok h₂
      obtain ⟨target, v, h₃, h₄⟩ := bind_eq_ok hu
      cases h₄
      obtain ⟨ts, hts, dts⟩ := ih.unary h₃ hf
      exact ⟨_ :: ts, hs.trans (congrArg (_ :: ·) hts), .precrement (Kind.isCrement_iff.1 hop) dts⟩
  · obtain ⟨-, u, hu, rfl⟩ := nested_eq_ok h₁
    obtain ⟨operand, v, h₃, h₄⟩ := bind_eq_ok hu
    cases h₄
    obtain ⟨ts, hts, dts⟩ := ih.unary h₃ hf
    exact ⟨_ :: ts, hs.trans (congrArg (_ :: ·) hts), .negation (Kind.isNegation_iff.1 hop) dts⟩

private theorem suffixed_succ (ih : ExpressionSound n) :
    Passes .suffixed (Parse.suffixed (n + 1)) := by
  intro p r e h hf
  unfold Parse.suffixed at h
  obtain ⟨target, q, h₁, h₀⟩ := bind_eq_ok h
  obtain ⟨o, s, ho, h₂⟩ := bind_eq_ok h₀
  obtain ⟨rfl, rfl, -⟩ | ⟨rfl, rfl, hop, hs⟩ := accept_eq_ok rfl ho
  · cases h₂
    obtain ⟨ts, hts, dts⟩ := ih.call h₁ hf
    exact ⟨ts, hts, .call dts⟩
  · cases h₂
    obtain ⟨ts, hts, dts⟩ := ih.call h₁ hf
    refine ⟨ts ++ [q.current], ?_, .postcrement dts (Kind.isCrement_iff.1 hop)⟩
    rw [hts, hs]
    simp

private theorem call_succ (ih : ExpressionSound n) : Passes .call (Parse.call (n + 1)) := by
  intro p r e h hf
  obtain ⟨q, hq, rfl⟩ := restoringDepth_eq_ok h
  obtain ⟨callee, s, h₁, h₂⟩ := bind_eq_ok hq
  have hs := (expressionCourse n).primary.faults_le h₁
  have hq := ((expressionCourse n).calls callee).faults_le h₂
  change q.faults.length ≤ p.faults.length at hf
  obtain ⟨ts, hts, dts⟩ := ih.primary h₁ (by omega)
  obtain ⟨us, hus, dus⟩ := ih.calls callee h₂ (by omega)
  refine ⟨ts ++ us, ?_, dus ts (.primary dts)⟩
  rw [hts, hus, List.append_assoc]
  rfl

private theorem calls_succ (ih : ExpressionSound n) (f : Expr) :
    Extends .call f (Parse.calls (n + 1) f) := by
  intro p r e h hf
  unfold Parse.calls at h
  obtain ⟨o, q, ho, h₀⟩ := bind_eq_ok h
  obtain ⟨rfl, rfl, -⟩ | ⟨rfl, rfl, hop, hp⟩ := accept_eq_ok rfl ho
  · cases h₀
    exact ⟨[], rfl, fun ts d => by rwa [List.append_nil]⟩
  · obtain ⟨_, q, hq, h₁⟩ := bind_eq_ok h₀
    obtain ⟨-, rfl⟩ := deepen_eq_ok hq
    obtain ⟨args, s, h₂, h₃⟩ := bind_eq_ok h₁
    obtain ⟨paren, w, hw, h₄⟩ := bind_eq_ok h₃
    obtain ⟨hc, hsw, rfl⟩ := expect_eq_ok (by decide) hw
    have hs := (expressionCourse n).arguments.faults_le h₂
    have hr := ((expressionCourse n).calls _).faults_le h₄
    change p.faults.length ≤ s.faults.length at hs
    change s.faults.length ≤ r.faults.length at hr
    obtain ⟨us, hus, dus, hn⟩ := ih.arguments h₂ (Nat.le_trans hr hf)
    obtain ⟨vs, hvs, dvs⟩ := ih.calls _ h₄ (show r.faults.length ≤ s.faults.length by omega)
    change (p.pass [p.current]).rest = us ++ s.rest at hus
    refine ⟨p.current :: (us ++ paren :: vs), ?_, fun ts d => ?_⟩
    · rw [hp, hus, hsw, hvs]
      simp
    · have := dvs _ (.apply d (of_decide_eq_true hop) dus hn hc)
      simpa only [List.append_assoc, List.cons_append, List.nil_append] using this

private theorem arguments_succ (ih : ExpressionSound n) ⦃p q : Parser⦄ ⦃es : List Expr⦄
    (h : Parse.arguments (n + 1) p = .ok es q) (hf : q.faults.length ≤ p.faults.length) :
    ∃ us, p.rest = us ++ q.rest ∧ Derives (.arguments es) us ∧ es.length ≤ maxArguments := by
  unfold Parse.arguments at h
  rw [bind_ok (check_apply _ p)] at h
  split at h
  · cases h
    exact ⟨[], rfl, .noArgument, Nat.zero_le _⟩
  · obtain ⟨us, f, fs, hus, rfl, dus, hn⟩ := ih.argumentList 0 [] h hf (Nat.zero_le _)
    rw [Nat.zero_add] at hn
    exact ⟨us, hus, dus, hn⟩

private theorem argumentList_succ (ih : ExpressionSound n) (count : Nat) (before : List Expr)
    ⦃p q : Parser⦄ ⦃es : List Expr⦄ (h : Parse.argumentList (n + 1) count before p = .ok es q)
    (hf : q.faults.length ≤ p.faults.length) (hcount : count ≤ maxArguments) :
    ∃ us f fs, p.rest = us ++ q.rest ∧ es = before.reverse ++ f :: fs ∧
      Derives (.arguments (f :: fs)) us ∧ count + (f :: fs).length ≤ maxArguments := by
  rw [Parse.argumentList_succ] at h
  obtain ⟨_, s, hs, h₀⟩ := bind_eq_ok h
  obtain ⟨arg, u, h₁, h₂⟩ := bind_eq_ok h₀
  obtain ⟨o, v, ho, h₃⟩ := bind_eq_ok h₂
  have hu := (expressionCourse n).assignment.faults_le h₁
  have hcomma : Keeps Kind.inExpression (accept (· = .comma)) := keeps_accept_kind rfl rfl
  have hv := hcomma.faults_le ho
  have hq : v.faults.length ≤ q.faults.length := by
    cases o with
    | none => cases h₃; exact Nat.le_refl _
    | some _ => exact ((expressionCourse n).argumentList _ _).faults_le h₃
  -- one argument too many would be reported
  obtain ⟨-, hs⟩ | ⟨hlt, rfl⟩ := tally_eq_ok hs
  · omega
  obtain ⟨ts, hts, dts⟩ := ih.assignment h₁ (by omega)
  obtain ⟨rfl, rfl, -⟩ | ⟨rfl, rfl, hop, hs⟩ := accept_eq_ok rfl ho
  · cases h₃
    refine ⟨ts, arg, [], hts, by simp, .oneArgument dts, ?_⟩
    simp only [List.length_singleton]
    omega
  · obtain ⟨us, f, fs, hus, rfl, dus, hn⟩ := ih.argumentList _ _ h₃ (by omega) (by omega)
    refine ⟨ts ++ u.current :: us, arg, f :: fs, ?_, by simp,
      .moreArguments dts (of_decide_eq_true hop) dus, ?_⟩
    · rw [hts, hs, hus]
      simp
    · simp only [List.length_cons] at hn ⊢
      omega

private theorem primary_succ (ih : ExpressionSound n) :
    Passes .primary (Parse.primary (n + 1)) := by
  intro p r e h hf
  cases ha : p.current.atom? with
  | some a =>
    rw [primary_atom ha] at h
    cases h
    exact ⟨[p.current], Parser.rest_eq_cons (Token.kind_of_atom? ha), .atom ha⟩
  | none =>
    by_cases hk : p.current.kind = .leftParen
    · rw [primary_grouping hk] at h
      obtain ⟨inner, q, h₁, h₀⟩ := bind_eq_ok h
      obtain ⟨right, s, hs, h₂⟩ := bind_eq_ok h₀
      obtain ⟨hr, hqs, rfl⟩ := expect_eq_ok (by decide) hs
      cases h₂
      obtain ⟨ts, hts, dts⟩ := ih.expression h₁ hf
      refine ⟨p.current :: (ts ++ [right]), ?_, .grouping hk dts hr⟩
      rw [Parser.rest_eq_cons (p := p) (by simp [hk]), hts, hqs]
      simp
    · rw [primary_error ha hk] at h
      cases h

theorem succ (ih : ExpressionSound n) : ExpressionSound (n + 1) where
  expression := expression_succ ih
  chain := chain_succ ih
  operand := operand_succ ih
  links := links_succ ih
  assignment := assignment_succ ih
  conditional := conditional_succ ih
  unary := unary_succ ih
  suffixed := suffixed_succ ih
  call := call_succ ih
  calls := calls_succ ih
  arguments := arguments_succ ih
  argumentList := argumentList_succ ih
  primary := primary_succ ih

end ExpressionSound

theorem expressionSound (n : Nat) : ExpressionSound n := by
  induction n with
  | zero => exact .zero
  | succ n ih => exact ih.succ

end Lox.Parse
