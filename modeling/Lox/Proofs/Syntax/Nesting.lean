import Lox.Proofs.Invariant
import Lox.Proofs.Syntax.Every
import Lox.Proofs.Syntax.StatementCourse

/-! What a parse can build with the nesting that is left to it. Whether or not there are faults, a
step never has more nesting left than at its start, and each level that it enters takes one off. -/
namespace Lox

/-- Other statements stand within the statement, or may do so. -/
def Stmt.encloses : Stmt → Bool
  | .block _ | .branch _ _ _ | .loop _ _ _ | .function _ _ _ => true
  | .empty | .expression _ | .print _ _ | .declare _ _ | .breakLoop _ | .continueLoop _
  | .returnValue _ _ => false

theorem Stmt.parts_eq_nil {s : Stmt} (h : s.encloses = false) : s.parts = [] := by
  cases s <;> first | rfl | cases h

/-- A statement that encloses no other and whose expressions have the property `P`. -/
def Stmt.Simple (P : Expr → Prop) (s : Stmt) : Prop :=
  s.encloses = false ∧ ∀ e ∈ s.expressions, P e

theorem Stmt.Simple.forall_parts {P : Expr → Prop} {s : Stmt} (h : s.Simple P) (Q : Stmt → Prop) :
    ∀ t ∈ s.parts, Q t := by
  rw [parts_eq_nil h.1]
  exact List.forall_mem_nil _

namespace Parse
variable {α β : Type} {A : α → Prop} {r : Nat} {allowed : Kind → Bool}

/-- With at most `r` levels of nesting left, the step gives values in `A` only. -/
abbrev Within (r : Nat) (A : α → Prop) (step : Parse α) : Prop :=
  Upholds (fun p : Parser => maxNesting ≤ p.depth + r) (fun _ => True) A step

theorem Keeps.within_of {step : Parse α} (h : Keeps allowed step)
    (hA : ∀ p a q, step p = .ok a q → A a) : Within r A step := by
  intro p hp
  have hdepth := h.depth p
  cases hs : step p with
  | ok a q =>
    rw [hs] at hdepth
    exact .ok (hA p a q hs) (Nat.le_trans hp (Nat.le_of_eq (congrArg (· + r) hdepth.symm)))
  | error e q =>
    rw [hs] at hdepth
    exact .error trivial (Nat.le_trans hp (Nat.le_of_eq (congrArg (· + r) hdepth.symm)))

theorem Keeps.within {step : Parse α} (h : Keeps allowed step) : Within r (fun _ => True) step :=
  h.within_of fun _ _ _ _ => trivial

theorem within_check (k : Kind) : Within r (fun _ => True) (check k) := fun _ h => .ok trivial h

theorem within_atEnd : Within r (fun _ => True) Parse.atEnd := fun _ h => .ok trivial h

theorem within_demand (holds : Parser → Bool) (error : SyntaxError) (t : Token) :
    Within r (fun _ => True) (demand holds error t) := by
  intro p h
  refine .ok trivial ?_
  split
  · exact h
  · exact h

theorem within_tally (error : SyntaxError) (count : Nat) :
    Within r (fun _ => True) (tally error count) := by
  intro p h
  refine .ok trivial ?_
  split
  · exact h
  · exact h

theorem within_report (error : SyntaxError) (t : Token) :
    Within r (fun _ => True) (report error t) := fun _ h => .ok trivial h

theorem within_accept (w : Kind → Bool) : Within r (fun _ => True) (accept w) := by
  intro p hp
  have hadvance : p.advance.depth = p.depth := by
    unfold Parser.advance
    split
    · rfl
    · split <;> rfl
  unfold accept
  split
  · exact .ok trivial (hadvance ▸ hp)
  · exact .ok trivial hp

theorem within_expect {k : Kind} (hk : k.passable = true) (what : String) :
    Within r (fun _ => True) (expect k what) := (keeps_expect what hk rfl).within

/-- One level less is left to what follows, so at least one must be left. -/
theorem within_deepen {step : Parse α} (h : ∀ k, r = k + 1 → Within k A step) :
    Within r A (deepen >>= fun _ => step) := by
  intro p hp
  by_cases hd : p.depth < maxNesting
  · obtain ⟨k, rfl⟩ : ∃ k, r = k + 1 := Nat.exists_eq_add_one_of_ne_zero (by omega)
    have hdeeper : maxNesting ≤ (p.atDepth (p.depth + 1)).depth + k := by
      rw [Parser.atDepth_depth]
      omega
    rw [bind_ok (deepen_ok hd)]
    have hresult := h k rfl hdeeper
    generalize step _ = result at hresult ⊢
    cases hresult with
    | ok ha hq => exact .ok ha (by omega)
    | error _ hq => exact .error trivial (by omega)
  · rw [bind_error (deepen_error (Nat.le_of_not_lt hd))]
    exact .error trivial hp

theorem within_bracket {enter : Parser → Parser} {leave : Parser → Parser → Parser}
    {step : Parse α} (henter : ∀ p, (enter p).depth = p.depth)
    (hleave : ∀ p q, (leave p q).depth = p.depth ∨ (leave p q).depth = q.depth)
    (h : Within r A step) : Within r A (bracket enter leave step) := by
  intro p hp
  have hleft {q : Parser} (hq : maxNesting ≤ q.depth + r) : maxNesting ≤ (leave p q).depth + r := by
    obtain hdepth | hdepth := hleave p q
    · rwa [hdepth]
    · rwa [hdepth]
  have hentered : maxNesting ≤ (enter p).depth + r := by rwa [henter]
  have hresult := h hentered
  unfold bracket
  generalize step (enter p) = result at hresult ⊢
  cases hresult with
  | ok ha hq => exact .ok ha (hleft hq)
  | error _ hq => exact .error trivial (hleft hq)

theorem within_restoringDepth {step : Parse α} (h : Within r A step) :
    Within r A (restoringDepth step) :=
  within_bracket (fun _ => rfl) (fun _ _ => .inl rfl) h

theorem within_nested {step : Parse α} (h : ∀ k, r = k + 1 → Within k A step) :
    Within r A (nested step) := within_restoringDepth (within_deepen h)

theorem within_inLoop {step : Parse α} (h : Within r A step) : Within r A (inLoop step) :=
  within_bracket (fun _ => rfl) (fun _ _ => .inr rfl) h

theorem within_inFunction {step : Parse α} (h : Within r A step) : Within r A (inFunction step) :=
  within_bracket (fun _ => rfl) (fun _ _ => .inr rfl) h

theorem within_inBlock {step : Parse α} (h : Within r A step) : Within r A (inBlock step) :=
  within_bracket (fun _ => rfl) (fun _ _ => .inr rfl) h

theorem within_recovering {step : Parse α} (h : Within r A step) :
    Within r (fun o => ∀ a ∈ o, A a) (recovering step) := by
  intro p hp
  have hresult := h (s := p.startingHere) hp
  rw [recovering_apply]
  generalize step p.startingHere = result at hresult ⊢
  cases hresult with
  | ok ha hq =>
    refine .ok (fun a h => ?_) hq
    cases h
    exact ha
  | @error e q _ hq =>
    cases e with
    | bail => exact .ok (fun a h => by cases h) hq
    | stalled => exact .error trivial hq

/-! Statements. -/

theorem within_breakStatement {P : Expr → Prop} (keyword : Token) :
    Within r (Stmt.Simple P) (breakStatement keyword) := by
  rw [breakStatement_eq]
  refine (within_demand _ _ _).bind fun _ _ => (within_expect rfl _).bind fun _ _ => ?_
  exact .pure ⟨rfl, List.forall_mem_nil _⟩

theorem within_continueStatement {P : Expr → Prop} (keyword : Token) :
    Within r (Stmt.Simple P) (continueStatement keyword) := by
  rw [continueStatement_eq]
  refine (within_demand _ _ _).bind fun _ _ => (within_expect rfl _).bind fun _ _ => ?_
  exact .pure ⟨rfl, List.forall_mem_nil _⟩

/-- Properties of expressions, and of statements for each nesting that is left, of which a parse
does not lead out. A statement with parts leaves one level less to them, but for a function, which
leaves all. A loop with a clause before it stands in a block, and both take but one level. -/
structure Nest (P : Expr → Prop) (S : Nat → Stmt → Prop) : Prop where
  expression : ∀ {n : Nat} {p q : Parser} {e : Expr}, expression n p = .ok e q → P e
  always : P (.literal (.bool true))
  simple : ∀ {r : Nat} {s : Stmt}, s.Simple P → S r s
  compound : ∀ {r : Nat} {s : Stmt}, (∀ e ∈ s.expressions, P e) → (∀ t ∈ s.parts, S r t) →
    S (r + 1) s
  enclosed : ∀ {r : Nat} {init s : Stmt}, init.Simple P → (∀ e ∈ s.expressions, P e) →
    (∀ t ∈ s.parts, S r t) → S (r + 1) (.block [init, s])
  function : ∀ {r : Nat} {name : Token} {params : List Token} {body : List Stmt},
    (∀ t ∈ body, S r t) → S r (.function name params body)

section
variable {P : Expr → Prop} {S : Nat → Stmt → Prop} (N : Nest P S)
include N

theorem Nest.within_expression (n : Nat) : Within r P (Parse.expression n) :=
  (expressionCourse n).expression.within_of fun _ _ _ h => N.expression h

theorem Nest.within_varDeclaration (n : Nat) : Within r (Stmt.Simple P) (varDeclaration n) := by
  refine (within_expect rfl _).bind fun name _ => (within_accept _).bind fun o _ => ?_
  cases o with
  | none => exact (within_expect rfl _).bind fun _ _ => .pure ⟨rfl, List.forall_mem_nil _⟩
  | some _ =>
    refine (N.within_expression n).bind fun init hinit => (within_expect rfl _).bind fun _ _ => ?_
    exact .pure ⟨rfl, List.forall_mem_singleton.2 hinit⟩

theorem Nest.within_expressionStatement (n : Nat) :
    Within r (Stmt.Simple P) (expressionStatement n) := by
  refine (N.within_expression n).bind fun e he => (within_expect rfl _).bind fun _ _ => ?_
  exact .pure ⟨rfl, List.forall_mem_singleton.2 he⟩

theorem Nest.within_printStatement (n : Nat) (keyword : Token) :
    Within r (Stmt.Simple P) (printStatement n keyword) := by
  refine (N.within_expression n).bind fun e he => (within_expect rfl _).bind fun _ _ => ?_
  exact .pure ⟨rfl, List.forall_mem_singleton.2 he⟩

theorem Nest.within_optionalExpression (stop : Kind) (n : Nat) :
    Within r (fun o => ∀ e ∈ o.toList, P e) (optionalExpression stop n) := by
  refine (within_check stop).bind fun b _ => ?_
  split
  · exact .pure (List.forall_mem_nil _)
  · exact (N.within_expression n).map fun _ he => List.forall_mem_singleton.2 he

theorem Nest.within_returnStatement (n : Nat) (keyword : Token) :
    Within r (Stmt.Simple P) (returnStatement n keyword) := by
  rw [returnStatement_eq]
  refine (within_demand _ _ _).bind fun _ _ => ?_
  refine (N.within_optionalExpression _ n).bind fun value hvalue => ?_
  exact (within_expect rfl _).bind fun _ _ => .pure ⟨rfl, hvalue⟩

theorem Nest.within_forInitializer (n : Nat) :
    Within r (fun o => ∀ s ∈ o, s.Simple P) (forInitializer n) := by
  have hsome (s : Stmt) (hs : s.Simple P) : ∀ t ∈ some s, t.Simple P := by
    intro t ht
    cases ht
    exact hs
  refine (within_accept _).bind fun o _ => ?_
  cases o with
  | some _ => exact .pure fun s hs => by cases hs
  | none =>
    refine (within_accept _).bind fun o _ => ?_
    cases o with
    | some _ => exact (N.within_varDeclaration n).map hsome
    | none => exact (N.within_expressionStatement n).map hsome

theorem Nest.forLoop {init : Option Stmt} {condition increment : Option Expr} {body : Stmt}
    (hinit : ∀ s ∈ init, s.Simple P) (hc : ∀ e ∈ condition.toList, P e)
    (hi : ∀ e ∈ increment.toList, P e) (hbody : S r body) :
    S (r + 1) (Parse.forLoop init condition increment body) := by
  have hcondition : P (condition.getD (.literal (.bool true))) := by
    cases condition with
    | none => exact N.always
    | some e => exact hc e List.mem_cons_self
  have hexpressions := List.forall_mem_cons.2 ⟨hcondition, hi⟩
  have hparts := List.forall_mem_singleton.2 hbody
  cases init with
  | none => exact N.compound hexpressions hparts
  | some s => exact N.enclosed (hinit s rfl) hexpressions hparts

end

/-- The parsers of statements give what can be built with the nesting that is left, with `n` steps
allotted. -/
structure StatementNesting (S : Nat → Stmt → Prop) (n : Nat) : Prop where
  declaration : ∀ r, Within r (fun o => ∀ s ∈ o, S r s) (declaration n)
  functionDeclaration : ∀ r, Within r (S r) (functionDeclaration n)
  statement : ∀ r, Within r (S r) (statement n)
  block : ∀ r, Within r (fun ss => ∀ s ∈ ss, S r s) (block n)
  blockBody : ∀ r {ss : List Stmt}, (∀ s ∈ ss, S r s) →
    Within r (fun ss => ∀ s ∈ ss, S r s) (blockBody n ss)
  ifStatement : ∀ r, Within r (S (r + 1)) (ifStatement n)
  whileStatement : ∀ r, Within r (S (r + 1)) (whileStatement n)
  forStatement : ∀ r, Within r (S (r + 1)) (forStatement n)

section
variable {P : Expr → Prop} {S : Nat → Stmt → Prop} {n : Nat} (ih : StatementNesting S n)
include ih

/-- A declaration, if there is one, joins those before it. -/
theorem within_next {loop : List Stmt → Parse (List Stmt)} {ss : List Stmt}
    (hloop : ∀ {ss : List Stmt}, (∀ s ∈ ss, S r s) →
      Within r (fun ss => ∀ s ∈ ss, S r s) (loop ss))
    (h : ∀ s ∈ ss, S r s) :
    Within r (fun ss => ∀ s ∈ ss, S r s)
      (declaration n >>= fun o => match o with
        | none => loop ss
        | some s => loop (s :: ss)) := by
  refine (ih.declaration r).bind fun o ho => ?_
  cases o with
  | none => exact hloop h
  | some s => exact hloop (List.forall_mem_cons.2 ⟨ho s rfl, h⟩)

theorem within_blockBody {ss : List Stmt} (h : ∀ s ∈ ss, S r s) :
    Within r (fun ss => ∀ s ∈ ss, S r s) (blockBody (n + 1) ss) := by
  have hreverse : ∀ s ∈ ss.reverse, S r s := fun s hs => h s (List.mem_reverse.1 hs)
  refine (within_check _).bind fun b _ => ?_
  split
  · exact .pure hreverse
  · refine within_atEnd.bind fun b _ => ?_
    split
    · exact .pure hreverse
    · exact within_next ih (ih.blockBody r) h

variable (N : Nest P S)
include N

theorem Nest.within_declaration :
    Within r (fun o => ∀ s ∈ o, S r s) (declaration (n + 1)) := by
  rw [declaration_succ]
  refine within_recovering fun p hp => ?_
  unfold declarationProper
  split
  · exact (N.within_varDeclaration n).mono (fun _ => N.simple) hp
  · exact ih.functionDeclaration r hp
  · exact .error trivial hp
  · exact ih.statement r hp

theorem Nest.within_functionDeclaration : Within r (S r) (functionDeclaration (n + 1)) := by
  refine (within_expect rfl _).bind fun name _ => ?_
  refine (keeps_parameters n).within.bind fun params _ => (within_expect rfl _).bind fun _ _ => ?_
  exact (within_inFunction (ih.block r)).bind fun body hbody => .pure (N.function hbody)

theorem Nest.within_statement : Within r (S r) (statement (n + 1)) := by
  have hsimple {k : Nat} {step : Parse Stmt} (h : Within k (Stmt.Simple P) step) :
      Within k (S (k + 1)) step := h.mono fun _ => N.simple
  rw [statement_succ]
  refine within_nested ?_
  rintro k rfl p hp
  unfold statementProper
  split
  · exact hsimple (N.within_printStatement n _) hp
  · have hblock : Within k (S (k + 1)) (block n >>= fun body => pure (.block body)) :=
      (ih.block k).bind fun body hbody => .pure (N.compound (List.forall_mem_nil _) hbody)
    exact hblock hp
  · exact ih.ifStatement k hp
  · exact ih.whileStatement k hp
  · exact ih.forStatement k hp
  · exact hsimple (within_breakStatement _) hp
  · exact hsimple (within_continueStatement _) hp
  · exact hsimple (N.within_returnStatement n _) hp
  · exact .ok (N.simple ⟨rfl, List.forall_mem_nil _⟩) hp
  · exact hsimple (N.within_expressionStatement n) hp

theorem Nest.within_ifStatement : Within r (S (r + 1)) (ifStatement (n + 1)) := by
  refine (within_expect rfl _).bind fun _ _ => (N.within_expression n).bind fun c hc => ?_
  refine (within_expect rfl _).bind fun _ _ => (ih.statement r).bind fun yes hyes => ?_
  have hcondition := List.forall_mem_singleton.2 hc
  refine (within_accept _).bind fun o _ => ?_
  cases o with
  | none => exact .pure (N.compound hcondition (List.forall_mem_singleton.2 hyes))
  | some _ =>
    refine (ih.statement r).bind fun no hno => .pure (N.compound hcondition ?_)
    exact List.forall_mem_cons.2 ⟨hyes, List.forall_mem_singleton.2 hno⟩

theorem Nest.within_whileStatement : Within r (S (r + 1)) (whileStatement (n + 1)) := by
  refine (within_expect rfl _).bind fun _ _ => (N.within_expression n).bind fun c hc => ?_
  refine (within_expect rfl _).bind fun _ _ => ?_
  refine (within_inLoop (ih.statement r)).bind fun body hbody => .pure ?_
  exact N.compound (List.forall_mem_singleton.2 hc) (List.forall_mem_singleton.2 hbody)

theorem Nest.within_forStatement : Within r (S (r + 1)) (forStatement (n + 1)) := by
  rw [forStatement_succ]
  refine (within_expect rfl _).bind fun _ _ => (N.within_forInitializer n).bind fun init hinit => ?_
  refine (N.within_optionalExpression _ n).bind fun c hc => (within_expect rfl _).bind fun _ _ => ?_
  refine (N.within_optionalExpression _ n).bind fun i hi => (within_expect rfl _).bind fun _ _ => ?_
  refine (within_inLoop (ih.statement r)).bind fun body hbody => .pure ?_
  exact N.forLoop hinit hc hi hbody

end

theorem Nest.statementNesting {P : Expr → Prop} {S : Nat → Stmt → Prop} (N : Nest P S) (n : Nat) :
    StatementNesting S n := by
  induction n with
  | zero => constructor <;> intros <;> exact .throw trivial
  | succ n ih =>
    exact {
      declaration := fun _ => N.within_declaration ih
      functionDeclaration := fun _ => N.within_functionDeclaration ih
      statement := fun _ => N.within_statement ih
      block := fun r => within_inBlock ((ih.blockBody r (List.forall_mem_nil _)).bind fun _ h =>
        (within_expect rfl _).bind fun _ _ => .pure h)
      blockBody := fun _ _ => within_blockBody ih
      ifStatement := fun _ => N.within_ifStatement ih
      whileStatement := fun _ => N.within_whileStatement ih
      forStatement := fun _ => N.within_forStatement ih }

theorem Nest.within_program {P : Expr → Prop} {S : Nat → Stmt → Prop} (N : Nest P S) (n : Nat)
    {ss : List Stmt} (h : ∀ s ∈ ss, S r s) :
    Within r (fun ss => ∀ s ∈ ss, S r s) (program n ss) := by
  induction n generalizing ss with
  | zero => exact .throw trivial
  | succ n ih =>
    refine within_atEnd.bind fun b _ => ?_
    split
    · exact .pure fun s hs => h s (List.mem_reverse.1 hs)
    · exact within_next (N.statementNesting n) ih h

end Parse

/-- All statements of a program can be built with the nesting that there is at its start. -/
theorem Program.nested_of_parse? {P : Expr → Prop} {S : Nat → Stmt → Prop} (N : Parse.Nest P S)
    {tokens : List Token} {p : Program} (h : parse? tokens = some p) :
    ∀ s ∈ p.statements, S maxNesting s := by
  unfold parse? at h
  split at h
  next ss q hparse =>
    cases h
    exact ((N.within_program _ (List.forall_mem_nil _)).of_ok (Nat.le_add_left _ _) hparse).1
  next => cases h

end Lox
