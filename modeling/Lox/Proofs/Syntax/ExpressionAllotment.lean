import Lox.Proofs.Syntax.ExpressionSoundness

/-! The steps allotted to the parse of an expression suffice, whatever the tokens are. -/
namespace Lox.Parse
variable {α β : Type}

/-- The parse did not use up its steps. -/
def Halts (r : EStateM.Result Interrupt Parser α) : Prop := ∀ q, r ≠ .error .stalled q

theorem halts_ok (a : α) (q : Parser) : Halts (.ok a q : EStateM.Result Interrupt Parser α) :=
  fun _ h => nomatch h

theorem halts_bail (q : Parser) : Halts (.error .bail q : EStateM.Result Interrupt Parser α) :=
  fun _ h => nomatch h

theorem Halts.bind {x : Parse α} {f : α → Parse β} {p : Parser} (hx : Halts (x p))
    (hf : ∀ a q, x p = .ok a q → Halts (f a q)) : Halts ((x >>= f) p) := by
  cases h : x p with
  | ok a q => rw [bind_ok h]; exact hf a q h
  | error e q =>
    rw [bind_error h]
    intro r hr
    cases hr
    exact hx q h

theorem halts_accept (w : Kind → Bool) (p : Parser) : Halts (accept w p) := by
  unfold accept
  split <;> exact halts_ok _ _

theorem halts_expect (k : Kind) (what : String) (p : Parser) : Halts (expect k what p) := by
  unfold expect
  split
  · exact halts_ok _ _
  · exact halts_bail _

theorem halts_deepen (p : Parser) : Halts (deepen p) := by
  unfold deepen
  split
  · exact halts_ok _ _
  · exact halts_bail _

theorem Halts.restoringDepth {step : Parse α} {p : Parser} (h : Halts (step p)) :
    Halts (restoringDepth step p) := by
  rw [restoringDepth_apply]
  cases hs : step p with
  | ok a q => exact halts_ok _ _
  | error e q =>
    intro r hr
    cases hr
    exact h q hs

theorem Halts.nested {step : Parse α} {p : Parser} (h : Halts (step (p.atDepth (p.depth + 1)))) :
    Halts (nested step p) := by
  refine Halts.restoringDepth ((halts_deepen p).bind fun _ q hq => ?_)
  obtain ⟨-, rfl⟩ := deepen_eq_ok hq
  exact h

theorem Halts.map {x : Parse α} {p : Parser} (g : α → β) (h : Halts (x p)) :
    Halts ((g <$> x) p) := by
  rw [map_apply]
  cases hs : x p with
  | ok a q => exact halts_ok _ _
  | error e q =>
    intro r hr
    cases hr
    exact h q hs

/-- The step does not use up the steps allotted to it. -/
def Affords (cost n : Nat) (step : Parse α) : Prop :=
  ∀ p : Parser, 32 * p.rest.length + cost ≤ n → Halts (step p)

/-- The tokens after the next one are fewer. -/
theorem length_pass_current {p : Parser} (h : p.current.kind ≠ .endOfInput) :
    p.rest.length = (p.pass [p.current]).rest.length + 1 := by
  rw [Parser.rest_eq_cons h]
  rfl

/-- Where a token was accepted, fewer are left. -/
theorem accept_some_length {w : Kind → Bool} (hend : w .endOfInput = false) {p q : Parser}
    {t : Token} (h : accept w p = .ok (some t) q) : p.rest.length = q.rest.length + 1 := by
  obtain ⟨ho, -, -⟩ | ⟨-, rfl, -, hrest⟩ := accept_eq_ok hend h
  · cases ho
  · rw [hrest]
    rfl

theorem accept_none_eq {w : Kind → Bool} (hend : w .endOfInput = false) {p q : Parser}
    (h : accept w p = .ok none q) : q = p := by
  obtain ⟨-, rfl, -⟩ | ⟨ho, -⟩ := accept_eq_ok hend h
  · rfl
  · cases ho

/-- The parsers of expressions halt within the steps allotted. -/
structure ExpressionAllotment (n : Nat) : Prop where
  expression : Affords 26 n (expression n)
  chain : ∀ l, Affords (2 * (Category.chain l).rank + 1) n (chain n l)
  operand : ∀ l, Affords (2 * (Category.chain l).rank) n (operand n l)
  links : ∀ l e, Affords 1 n (links n l e)
  assignment : Affords 23 n (assignment n)
  conditional : Affords 21 n (conditional n)
  unary : Affords 7 n (unary n)
  suffixed : Affords 5 n (suffixed n)
  call : Affords 3 n (call n)
  calls : ∀ e, Affords 1 n (calls n e)
  arguments : Affords 25 n (arguments n)
  argumentList : ∀ c es, Affords 24 n (argumentList n c es)
  primary : Affords 1 n (primary n)

theorem ExpressionAllotment.zero : ExpressionAllotment 0 where
  expression _ h := absurd h (by omega)
  chain _ _ h := absurd h (by omega)
  operand l _ h := absurd h (by have := l.operands_rank; omega)
  links _ _ _ h := absurd h (by omega)
  assignment _ h := absurd h (by omega)
  conditional _ h := absurd h (by omega)
  unary _ h := absurd h (by omega)
  suffixed _ h := absurd h (by omega)
  call _ h := absurd h (by omega)
  calls _ _ h := absurd h (by omega)
  arguments _ h := absurd h (by omega)
  argumentList _ _ _ h := absurd h (by omega)
  primary _ h := absurd h (by omega)

namespace ExpressionAllotment
variable {n : Nat}

private theorem chain_succ (ih : ExpressionAllotment n) (l : Level) :
    Affords (2 * (Category.chain l).rank + 1) (n + 1) (Parse.chain (n + 1) l) := by
  intro p hn
  refine Halts.restoringDepth ((ih.operand l p (by omega)).bind fun first q hq => ?_)
  have hlen := (((expressionCourse n).operand l).of_ok hq).length_le
  have := l.operands_rank
  exact ih.links l first q (by omega)

private theorem operand_succ (ih : ExpressionAllotment n) (l : Level) :
    Affords (2 * (Category.chain l).rank) (n + 1) (Parse.operand (n + 1) l) := by
  intro p hn
  cases l with
  | comma => exact ih.assignment p (by simp only [Category.rank] at hn; omega)
  | or => exact ih.chain .and p (by simp only [Category.rank] at hn ⊢; omega)
  | and => exact ih.chain .equality p (by simp only [Category.rank] at hn ⊢; omega)
  | equality => exact ih.chain .comparison p (by simp only [Category.rank] at hn ⊢; omega)
  | comparison => exact ih.chain .term p (by simp only [Category.rank] at hn ⊢; omega)
  | term => exact ih.chain .factor p (by simp only [Category.rank] at hn ⊢; omega)
  | factor => exact ih.unary p (by simp only [Category.rank] at hn; omega)

private theorem links_succ (ih : ExpressionAllotment n) (l : Level) (e : Expr) :
    Affords 1 (n + 1) (Parse.links (n + 1) l e) := by
  intro p hn
  refine (halts_accept _ p).bind fun o q hq => ?_
  cases o with
  | none => exact halts_ok _ _
  | some op =>
    have hlen := accept_some_length (joins_endOfInput l) hq
    refine (halts_deepen q).bind fun _ r hr => ?_
    obtain ⟨-, rfl⟩ := deepen_eq_ok hr
    have := (Category.chain l).rank_le
    refine (ih.operand l _ ?_).bind fun right s hs => ih.links l _ s ?_
    · rw [Parser.atDepth_rest]
      omega
    · have := (((expressionCourse n).operand l).of_ok hs).length_le
      rw [Parser.atDepth_rest] at this
      omega

private theorem assignment_succ (ih : ExpressionAllotment n) :
    Affords 23 (n + 1) (Parse.assignment (n + 1)) := by
  intro p hn
  refine (ih.conditional p (by omega)).bind fun target q hq => ?_
  have hlen := ((expressionCourse n).conditional.of_ok hq).length_le
  refine (halts_accept _ q).bind fun o r hr => ?_
  cases o with
  | none => exact halts_ok _ _
  | some equals =>
    have hlen' := accept_some_length rfl hr
    refine Halts.nested ((ih.assignment _ ?_).bind fun value s hs => ?_)
    · rw [Parser.atDepth_rest]
      omega
    · cases target <;> exact halts_ok _ _

private theorem conditional_succ (ih : ExpressionAllotment n) :
    Affords 21 (n + 1) (Parse.conditional (n + 1)) := by
  intro p hn
  refine (ih.chain .or p (by simp only [Category.rank]; omega)).bind fun condition q hq => ?_
  have hlen := (((expressionCourse n).chain .or).of_ok hq).length_le
  refine (halts_accept _ q).bind fun o r hr => ?_
  cases o with
  | none => exact halts_ok _ _
  | some question =>
    have hlen' := accept_some_length rfl hr
    refine Halts.nested ((ih.assignment _ ?_).bind fun yes s hs => ?_)
    · rw [Parser.atDepth_rest]
      omega
    have hlen'' := ((expressionCourse n).assignment.of_ok hs).length_le
    rw [Parser.atDepth_rest] at hlen''
    refine (halts_expect _ _ s).bind fun colon u hu => ?_
    obtain ⟨-, hrest, rfl⟩ := expect_eq_ok (by decide) hu
    rw [hrest, List.length_cons] at hlen''
    exact (ih.conditional _ (by omega)).bind fun no v hv => halts_ok _ _

private theorem unary_succ (ih : ExpressionAllotment n) :
    Affords 7 (n + 1) (Parse.unary (n + 1)) := by
  intro p hn
  refine (halts_accept _ p).bind fun o q hq => ?_
  cases o with
  | some op =>
    have hlen := accept_some_length rfl hq
    refine Halts.nested ((ih.unary _ ?_).bind fun operand s hs => halts_ok _ _)
    rw [Parser.atDepth_rest]
    omega
  | none =>
    obtain rfl := accept_none_eq rfl hq
    refine (halts_accept _ q).bind fun o r hr => ?_
    cases o with
    | some op =>
      have hlen := accept_some_length rfl hr
      refine Halts.nested ((ih.unary _ ?_).bind fun target s hs => halts_ok _ _)
      rw [Parser.atDepth_rest]
      omega
    | none =>
      obtain rfl := accept_none_eq rfl hr
      exact ih.suffixed r (by omega)

private theorem suffixed_succ (ih : ExpressionAllotment n) :
    Affords 5 (n + 1) (Parse.suffixed (n + 1)) := by
  intro p hn
  refine (ih.call p (by omega)).bind fun target q hq => (halts_accept _ q).bind fun o r hr => ?_
  cases o <;> exact halts_ok _ _

private theorem call_succ (ih : ExpressionAllotment n) :
    Affords 3 (n + 1) (Parse.call (n + 1)) := by
  intro p hn
  refine Halts.restoringDepth ((ih.primary p (by omega)).bind fun callee q hq => ?_)
  have hlen := ((expressionCourse n).primary.of_ok hq).length_le
  exact ih.calls callee q (by omega)

private theorem calls_succ (ih : ExpressionAllotment n) (e : Expr) :
    Affords 1 (n + 1) (Parse.calls (n + 1) e) := by
  intro p hn
  refine (halts_accept _ p).bind fun o q hq => ?_
  cases o with
  | none => exact halts_ok _ _
  | some paren =>
    have hlen := accept_some_length rfl hq
    refine (halts_deepen q).bind fun _ r hr => ?_
    obtain ⟨-, rfl⟩ := deepen_eq_ok hr
    refine (ih.arguments _ ?_).bind fun args s hs => (halts_expect _ _ s).bind fun right u hu => ?_
    · rw [Parser.atDepth_rest]
      omega
    · have hlen' := ((expressionCourse n).arguments.of_ok hs).length_le
      obtain ⟨-, hrest, rfl⟩ := expect_eq_ok (by decide) hu
      rw [Parser.atDepth_rest, hrest, List.length_cons] at hlen'
      exact ih.calls _ _ (by omega)

private theorem arguments_succ (ih : ExpressionAllotment n) :
    Affords 25 (n + 1) (Parse.arguments (n + 1)) := by
  intro p hn
  refine (halts_ok _ _).bind fun b q hq => ?_
  cases hq
  split
  · exact halts_ok _ _
  · exact ih.argumentList 0 [] _ (by omega)

private theorem argumentList_succ (ih : ExpressionAllotment n) (c : Nat) (es : List Expr) :
    Affords 24 (n + 1) (Parse.argumentList (n + 1) c es) := by
  intro p hn
  rw [Parse.argumentList_succ]
  have htally : Keeps Kind.passable (tally .tooManyArguments c) := keeps_tally _ c
  refine Halts.bind (x := tally .tooManyArguments c) (halts_ok _ _) fun _ q hq => ?_
  have hlen := (htally.of_ok hq).length_le
  refine (ih.assignment q (by omega)).bind fun arg r hr => ?_
  have hlen' := ((expressionCourse n).assignment.of_ok hr).length_le
  refine (halts_accept _ r).bind fun o s hs => ?_
  cases o with
  | none => exact halts_ok _ _
  | some comma =>
    have := accept_some_length rfl hs
    exact ih.argumentList _ _ _ (by omega)

private theorem primary_succ (ih : ExpressionAllotment n) :
    Affords 1 (n + 1) (Parse.primary (n + 1)) := by
  intro p hn
  cases ha : p.current.atom? with
  | some e => rw [primary_atom ha]; exact halts_ok _ _
  | none =>
    by_cases hk : p.current.kind = .leftParen
    · rw [primary_grouping hk]
      have hlen := length_pass_current (p := p) (by rw [hk]; decide)
      exact (ih.expression _ (by omega)).bind fun inner q hq =>
        (halts_expect _ _ q).bind fun _ r hr => halts_ok _ _
    · rw [primary_error ha hk]
      exact halts_bail _

theorem succ (ih : ExpressionAllotment n) : ExpressionAllotment (n + 1) where
  expression p hn := Halts.nested (ih.chain .comma _
    (by simp only [Category.rank, Parser.atDepth_rest]; omega))
  chain := chain_succ ih
  operand := operand_succ ih
  links := links_succ ih
  assignment := assignment_succ ih
  conditional := conditional_succ ih
  unary := unary_succ ih
  suffixed := suffixed_succ ih
  call := call_succ ih
  calls := calls_succ ih
  arguments := arguments_succ ih
  argumentList := argumentList_succ ih
  primary := primary_succ ih

end ExpressionAllotment

theorem expressionAllotment (n : Nat) : ExpressionAllotment n := by
  induction n with
  | zero => exact .zero
  | succ n ih => exact ih.succ

end Lox.Parse
