import Lox.Proofs.Syntax.ExpressionSoundness
import Lox.Proofs.Syntax.StatementSteps

/-! A parse does not depend on where in a longer text its tokens stand. What it finds does not depend
on the tokens behind a semicolon either, as long as it does not pass the semicolon. -/
namespace Lox

/-- The end of a step with another state. -/
def Parse.mapState {α : Type} (f : Parser → Parser) :
    EStateM.Result Interrupt Parser α → EStateM.Result Interrupt Parser α
  | .ok a q => .ok a (f q)
  | .error e q => .error e (f q)

/-- What stands around the tokens of a parse in a longer text. -/
structure Embedding where
  /-- The number of tokens before them. -/
  before : Nat
  /-- The faults found in the tokens before them, last one first. -/
  faults : List SyntaxFault
  /-- The tokens behind them. -/
  behind : List Token

namespace Embedding
variable {α β : Type} (E : Embedding)

/-- The state of a parse in the longer text. -/
def parser (p : Parser) : Parser :=
  { p with
    rest := p.rest ++ E.behind
    consumed := p.consumed + E.before
    start := p.start + E.before
    faults := p.faults ++ E.faults }

/-- The tokens behind are out of reach: there are none, or a semicolon stands before them. -/
def Sealed (p : Parser) : Prop := E.behind = [] ∨ ∃ t ∈ p.rest, t.kind = .semicolon

variable {E} {p : Parser}

theorem parser_current (h : E.Sealed p) : (E.parser p).current = p.current := by
  unfold Parser.current parser
  obtain h | ⟨t, ht, -⟩ := h
  · rw [h, List.append_nil]
  · cases hrest : p.rest with
    | nil =>
      rw [hrest] at ht
      cases ht
    | cons u us => rfl

theorem parser_pass (hend : p.current.kind ≠ .endOfInput) :
    (E.parser p).pass [p.current] = E.parser (p.pass [p.current]) := by
  have hrest := Parser.rest_of_current hend
  unfold Parser.pass parser
  rw [hrest]
  simp [Nat.add_right_comm]

theorem Sealed.pass (h : E.Sealed p) (hend : p.current.kind ≠ .endOfInput)
    (hk : p.current.kind ≠ .semicolon ∨ E.behind = []) : E.Sealed (p.pass [p.current]) := by
  obtain hk | hk := hk
  · refine h.imp_right fun ⟨t, ht, hs⟩ => ⟨t, ?_, hs⟩
    rw [Parser.rest_eq_cons hend] at ht
    exact (List.mem_cons.1 ht).resolve_left fun he => hk (he ▸ hs)
  · exact .inl hk

theorem sealed_of_rest {q : Parser} (h : E.Sealed p) (hq : q.rest = p.rest) : E.Sealed q :=
  h.imp_right fun hs => hq ▸ hs

end Embedding

namespace Parse
variable {α β : Type} {E : Embedding}

/-- From the state `p` the step does the same in the longer text, and where it gives up, the tokens
behind are still out of reach. -/
structure Tracks (E : Embedding) (x : Parse α) (p : Parser) : Prop where
  same : x (E.parser p) = mapState E.parser (x p)
  bails : ∀ e q, x p = .error e q → E.Sealed q

/-- However the step ends, it does the same in the longer text, and does not bring the tokens behind
into reach. -/
def Embeds (E : Embedding) (x : Parse α) : Prop :=
  ∀ p, E.Sealed p → x (E.parser p) = mapState E.parser (x p) ∧ E.Sealed (final (x p))

theorem Embeds.tracks {x : Parse α} (h : Embeds E x) {p : Parser} (hp : E.Sealed p) :
    Tracks E x p := by
  obtain ⟨hsame, hfinal⟩ := h p hp
  refine ⟨hsame, fun e q hq => ?_⟩
  rwa [hq] at hfinal

theorem Tracks.bind {x : Parse α} {f : α → Parse β} {p : Parser} (hx : Tracks E x p)
    (hf : ∀ a q, x p = .ok a q → Tracks E (f a) q) : Tracks E (x >>= f) p := by
  have hsame := hx.same
  cases h : x p with
  | ok a q =>
    rw [h] at hsame
    constructor
    · rw [bind_ok h, bind_ok hsame]
      exact (hf a q h).same
    · rw [bind_ok h]
      exact (hf a q h).bails
  | error e q =>
    rw [h] at hsame
    constructor
    · rw [bind_error h, bind_error hsame]
      rfl
    · rw [bind_error h]
      rintro _ _ ⟨⟩
      exact hx.bails e q h

theorem Tracks.restoringDepth {x : Parse α} {p : Parser} (hx : Tracks E x p) :
    Tracks E (restoringDepth x) p := by
  constructor
  · rw [restoringDepth_apply, restoringDepth_apply, hx.same]
    cases x p <;> rfl
  · intro e r hr
    rw [restoringDepth_apply] at hr
    cases h : x p with
    | ok a q =>
      rw [h] at hr
      cases hr
    | error e q =>
      rw [h] at hr
      cases hr
      exact Embedding.sealed_of_rest (hx.bails e q h) rfl

namespace Embeds

/-- Where nothing stands behind, nothing can come into reach. -/
theorem of_tracks {x : Parse α} (hE : E.behind = []) (h : ∀ p, E.Sealed p → Tracks E x p) :
    Embeds E x := fun p hp => ⟨(h p hp).same, .inl hE⟩

theorem bind_tracks {x : Parse α} {f : α → Parse β} {p : Parser} (hx : Embeds E x)
    (hp : E.Sealed p) (hf : ∀ a q, E.Sealed q → Tracks E (f a) q) : Tracks E (x >>= f) p := by
  refine (hx.tracks hp).bind fun a q hq => hf a q ?_
  have hfinal := (hx p hp).2
  rwa [hq] at hfinal

theorem bind {x : Parse α} {f : α → Parse β} (hx : Embeds E x) (hf : ∀ a, Embeds E (f a)) :
    Embeds E (x >>= f) := by
  intro p hp
  obtain ⟨hsame, hfinal⟩ := hx p hp
  cases h : x p with
  | ok a q =>
    rw [h] at hsame hfinal
    rw [bind_ok h, bind_ok hsame]
    exact hf a q hfinal
  | error e q =>
    rw [h] at hsame hfinal
    rw [bind_error h, bind_error hsame]
    exact ⟨rfl, hfinal⟩

theorem pure (a : α) : Embeds E (Pure.pure a) := fun _ hp => ⟨rfl, hp⟩

theorem stalled : Embeds E (throw .stalled : Parse α) := fun _ hp => ⟨rfl, hp⟩

theorem map {x : Parse α} (f : α → β) (hx : Embeds E x) : Embeds E (f <$> x) := by
  rw [map_eq_pure_bind]
  exact hx.bind fun a => .pure (f a)

theorem ite {c : Prop} [Decidable c] {x y : Parse α} (hx : Embeds E x) (hy : Embeds E y) :
    Embeds E (if c then x else y) := by
  split
  · exact hx
  · exact hy

theorem peek : Embeds E peek := by
  intro p hp
  refine ⟨?_, hp⟩
  rw [peek_apply, peek_apply, Embedding.parser_current hp]
  rfl

theorem check (k : Kind) : Embeds E (check k) := by
  intro p hp
  refine ⟨?_, hp⟩
  rw [check_apply, check_apply, Embedding.parser_current hp]
  rfl

theorem atEnd : Embeds E Parse.atEnd := by
  intro p hp
  refine ⟨?_, hp⟩
  rw [atEnd_apply, atEnd_apply, Embedding.parser_current hp]
  rfl

theorem report (error : SyntaxError) (t : Token) : Embeds E (report error t) :=
  fun _ hp => ⟨rfl, hp⟩

theorem fail (error : SyntaxError) (t : Token) : Embeds E (fail error t : Parse α) :=
  fun _ hp => ⟨rfl, hp⟩

theorem tally (error : SyntaxError) (count : Nat) : Embeds E (tally error count) := by
  intro p hp
  unfold Parse.tally
  rw [Embedding.parser_current hp]
  split
  · exact ⟨rfl, hp⟩
  · exact ⟨rfl, hp⟩

theorem demand {holds : Parser → Bool} (h : ∀ p, holds (E.parser p) = holds p)
    (error : SyntaxError) (t : Token) : Embeds E (demand holds error t) := by
  intro p hp
  unfold Parse.demand
  rw [h]
  split
  · exact ⟨rfl, hp⟩
  · exact ⟨rfl, hp⟩

/-- A token is passed unless it is a semicolon before tokens that must not come into reach. -/
theorem accept {w : Kind → Bool} (hend : w .endOfInput = false)
    (hw : w .semicolon = false ∨ E.behind = []) : Embeds E (accept w) := by
  intro p hp
  have hcurrent := Embedding.parser_current hp
  cases hk : w p.current.kind with
  | false =>
    rw [accept_none hk, accept_none (by rw [hcurrent]; exact hk)]
    exact ⟨rfl, hp⟩
  | true =>
    have hne : p.current.kind ≠ .endOfInput := fun he => by rw [he, hend] at hk; cases hk
    have hsemicolon : p.current.kind ≠ .semicolon ∨ E.behind = [] :=
      hw.imp_left fun hw he => by rw [he, hw] at hk; cases hk
    rw [accept_some hend hk, accept_some hend (by rw [hcurrent]; exact hk), hcurrent,
      Embedding.parser_pass hne]
    exact ⟨rfl, hp.pass hne hsemicolon⟩

theorem expect {k : Kind} (what : String) (hend : k ≠ .endOfInput)
    (hk : k ≠ .semicolon ∨ E.behind = []) : Embeds E (expect k what) := by
  intro p hp
  have hcurrent := Embedding.parser_current hp
  by_cases h : p.current.kind = k
  · rw [expect_ok hend h, expect_ok hend (by rw [hcurrent]; exact h), hcurrent,
      Embedding.parser_pass (h ▸ hend)]
    exact ⟨rfl, hp.pass (h ▸ hend) (h ▸ hk)⟩
  · rw [Parse.expect, Parse.expect, hcurrent, if_neg h, if_neg h]
    exact fail _ _ p hp

theorem deepen : Embeds E deepen := by
  intro p hp
  unfold Parse.deepen
  rw [Embedding.parser_current hp]
  have hdepth : (E.parser p).depth = p.depth := rfl
  rw [hdepth]
  split
  · exact ⟨rfl, hp⟩
  · exact fail _ _ p hp

theorem bracket {enter : Parser → Parser} {leave : Parser → Parser → Parser} {x : Parse α}
    (henter : ∀ p, enter (E.parser p) = E.parser (enter p))
    (hleave : ∀ p q, leave (E.parser p) (E.parser q) = E.parser (leave p q))
    (henters : ∀ p, (enter p).rest = p.rest) (hleaves : ∀ p q, (leave p q).rest = q.rest)
    (hx : Embeds E x) : Embeds E (bracket enter leave x) := by
  intro p hp
  obtain ⟨hsame, hfinal⟩ := hx (enter p) (Embedding.sealed_of_rest hp (henters p))
  rw [bracket_apply, bracket_apply, henter, hsame]
  cases h : x (enter p) with
  | ok a q =>
    rw [h] at hfinal
    exact ⟨congrArg (EStateM.Result.ok a) (hleave p q),
      Embedding.sealed_of_rest hfinal (hleaves p q)⟩
  | error e q =>
    rw [h] at hfinal
    exact ⟨congrArg (EStateM.Result.error e) (hleave p q),
      Embedding.sealed_of_rest hfinal (hleaves p q)⟩

theorem restoringDepth {x : Parse α} (hx : Embeds E x) : Embeds E (restoringDepth x) :=
  bracket (fun _ => rfl) (fun _ _ => rfl) (fun _ => rfl) (fun _ _ => rfl) hx

theorem nested {x : Parse α} (hx : Embeds E x) : Embeds E (nested x) :=
  restoringDepth (deepen.bind fun _ => hx)

theorem inLoop {x : Parse α} (hx : Embeds E x) : Embeds E (inLoop x) :=
  bracket (fun _ => rfl) (fun _ _ => rfl) (fun _ => rfl) (fun _ _ => rfl) hx

theorem inFunction {x : Parse α} (hx : Embeds E x) : Embeds E (inFunction x) :=
  bracket (fun _ => rfl) (fun _ _ => rfl) (fun _ => rfl) (fun _ _ => rfl) hx

theorem inBlock {x : Parse α} (hx : Embeds E x) : Embeds E (inBlock x) :=
  bracket (fun _ => rfl) (fun _ _ => rfl) (fun _ => rfl) (fun _ _ => rfl) hx

end Embeds

theorem Tracks.nested {x : Parse α} {p : Parser} (hp : E.Sealed p)
    (hx : Tracks E x (p.atDepth (p.depth + 1))) : Tracks E (nested x) p := by
  refine .restoringDepth ((Embeds.deepen.tracks hp).bind fun _ q hq => ?_)
  obtain ⟨-, rfl⟩ := deepen_eq_ok hq
  exact hx

/-! Expressions. They hold no semicolon. -/

/-- The parsers of expressions do the same in a longer text. -/
structure ExpressionEmbeds (E : Embedding) (n : Nat) : Prop where
  expression : Embeds E (expression n)
  chain : ∀ l, Embeds E (chain n l)
  operand : ∀ l, Embeds E (operand n l)
  links : ∀ l e, Embeds E (links n l e)
  assignment : Embeds E (assignment n)
  conditional : Embeds E (conditional n)
  unary : Embeds E (unary n)
  suffixed : Embeds E (suffixed n)
  call : Embeds E (call n)
  calls : ∀ e, Embeds E (calls n e)
  arguments : Embeds E (arguments n)
  argumentList : ∀ c es, Embeds E (argumentList n c es)
  primary : Embeds E (primary n)

theorem ExpressionEmbeds.zero : ExpressionEmbeds E 0 := by
  constructor <;> intros <;> exact .stalled

namespace ExpressionEmbeds
variable {n : Nat}

private theorem operand_succ (ih : ExpressionEmbeds E n) (l : Level) :
    Embeds E (Parse.operand (n + 1) l) := by
  cases l with
  | comma => exact ih.assignment
  | or => exact ih.chain .and
  | and => exact ih.chain .equality
  | equality => exact ih.chain .comparison
  | comparison => exact ih.chain .term
  | term => exact ih.chain .factor
  | factor => exact ih.unary

private theorem links_succ (ih : ExpressionEmbeds E n) (l : Level) (e : Expr) :
    Embeds E (Parse.links (n + 1) l e) := by
  have hsemicolon : l.joins .semicolon = false := by cases l <;> rfl
  refine (Embeds.accept (joins_endOfInput l) (.inl hsemicolon)).bind fun o => ?_
  cases o with
  | none => exact .pure e
  | some op => exact Embeds.deepen.bind fun _ => (ih.operand l).bind fun _ => ih.links l _

private theorem assignment_succ (ih : ExpressionEmbeds E n) :
    Embeds E (Parse.assignment (n + 1)) := by
  refine ih.conditional.bind fun target => (Embeds.accept rfl (.inl rfl)).bind fun o => ?_
  cases o with
  | none => exact .pure target
  | some equals =>
    refine (ih.assignment.bind fun value => ?_).nested
    split
    · exact .pure _
    · exact (Embeds.report _ _).bind fun _ => .pure _

private theorem conditional_succ (ih : ExpressionEmbeds E n) :
    Embeds E (Parse.conditional (n + 1)) := by
  refine (ih.chain .or).bind fun condition => (Embeds.accept rfl (.inl rfl)).bind fun o => ?_
  cases o with
  | none => exact .pure condition
  | some question =>
    exact (ih.assignment.bind fun _ => (Embeds.expect _ (by decide) (.inl (by decide))).bind
      fun _ => ih.conditional.bind fun _ => .pure _).nested

private theorem unary_succ (ih : ExpressionEmbeds E n) : Embeds E (Parse.unary (n + 1)) := by
  refine (Embeds.accept rfl (.inl rfl)).bind fun o => ?_
  cases o with
  | some op => exact (ih.unary.bind fun _ => .pure _).nested
  | none =>
    refine (Embeds.accept rfl (.inl rfl)).bind fun o => ?_
    cases o with
    | some op => exact (ih.unary.bind fun _ => .pure _).nested
    | none => exact ih.suffixed

private theorem suffixed_succ (ih : ExpressionEmbeds E n) :
    Embeds E (Parse.suffixed (n + 1)) := by
  refine ih.call.bind fun target => (Embeds.accept rfl (.inl rfl)).bind fun o => ?_
  cases o <;> exact .pure _

private theorem calls_succ (ih : ExpressionEmbeds E n) (e : Expr) :
    Embeds E (Parse.calls (n + 1) e) := by
  refine (Embeds.accept rfl (.inl rfl)).bind fun o => ?_
  cases o with
  | none => exact .pure e
  | some _ =>
    exact Embeds.deepen.bind fun _ => ih.arguments.bind fun _ =>
      (Embeds.expect _ (by decide) (.inl (by decide))).bind fun _ => ih.calls _

private theorem argumentList_succ (ih : ExpressionEmbeds E n) (c : Nat) (es : List Expr) :
    Embeds E (Parse.argumentList (n + 1) c es) := by
  rw [Parse.argumentList_succ]
  refine (Embeds.tally _ c).bind fun _ => ih.assignment.bind fun arg =>
    (Embeds.accept rfl (.inl rfl)).bind fun o => ?_
  cases o with
  | none => exact .pure _
  | some _ => exact ih.argumentList _ _

private theorem primary_succ (ih : ExpressionEmbeds E n) : Embeds E (Parse.primary (n + 1)) := by
  intro p hp
  have hcurrent := Embedding.parser_current hp
  have passes (hk : p.current.kind.inExpression = true) :
      (E.parser p).pass [p.current] = E.parser (p.pass [p.current]) ∧
        E.Sealed (p.pass [p.current]) := by
    have hend : p.current.kind ≠ .endOfInput := fun he => by rw [he] at hk; cases hk
    have hsemicolon : p.current.kind ≠ .semicolon := fun he => by rw [he] at hk; cases hk
    exact ⟨Embedding.parser_pass hend, hp.pass hend (.inl hsemicolon)⟩
  cases ha : p.current.atom? with
  | some e =>
    obtain ⟨hpass, hsealed⟩ := passes (inExpression_of_atom ha)
    rw [primary_atom ha, primary_atom (by rw [hcurrent]; exact ha), hcurrent, hpass]
    exact ⟨rfl, hsealed⟩
  | none =>
    by_cases hk : p.current.kind = .leftParen
    · obtain ⟨hpass, hsealed⟩ := passes (hk ▸ rfl)
      rw [primary_grouping hk, primary_grouping (by rw [hcurrent]; exact hk), hcurrent, hpass]
      exact (ih.expression.bind fun _ => (Embeds.expect _ (by decide) (.inl (by decide))).bind
        fun _ => .pure _) _ hsealed
    · rw [primary_error ha hk, primary_error (by rw [hcurrent]; exact ha) (by rw [hcurrent]; exact hk),
        hcurrent]
      exact ⟨rfl, hp⟩

theorem succ (ih : ExpressionEmbeds E n) : ExpressionEmbeds E (n + 1) where
  expression := (ih.chain .comma).nested
  chain l := .restoringDepth ((ih.operand l).bind fun first => ih.links l first)
  operand := operand_succ ih
  links := links_succ ih
  assignment := assignment_succ ih
  conditional := conditional_succ ih
  unary := unary_succ ih
  suffixed := suffixed_succ ih
  call := .restoringDepth (ih.primary.bind fun callee => ih.calls callee)
  calls := calls_succ ih
  arguments := (Embeds.check _).bind fun _ => .ite (.pure []) (ih.argumentList 0 [])
  argumentList := argumentList_succ ih
  primary := primary_succ ih

end ExpressionEmbeds

theorem expressionEmbeds (E : Embedding) (n : Nat) : ExpressionEmbeds E n := by
  induction n with
  | zero => exact .zero
  | succ n ih => exact ih.succ

theorem embeds_optionalExpression (stop : Kind) (n : Nat) :
    Embeds E (optionalExpression stop n) :=
  (Embeds.check stop).bind fun _ => .ite (.pure none) ((expressionEmbeds E n).expression.map some)

end Parse
end Lox
