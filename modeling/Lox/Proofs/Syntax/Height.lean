import Lox.Proofs.Syntax.LoneExpression
import Lox.Proofs.Syntax.Nesting

/-! The height of expressions. A chain grows by one node with each of its links, and parts nest, but
each takes a level of the nesting that is left; so the height of what is parsed has a bound. -/
namespace Lox

mutual

/-- The number of nodes on the longest way down through an expression. -/
def Expr.height : Expr → Nat
  | .literal _ | .variable _ => 1
  | .grouping e | .unary _ e | .crement _ e | .assign _ e => e.height + 1
  | .binary _ a b | .logicalAnd _ a b | .logicalOr _ a b | .comma a b => max a.height b.height + 1
  | .conditional _ c a b => max c.height (max a.height b.height) + 1
  | .call callee _ args => max callee.height (Expr.greatestHeight args) + 1

def Expr.greatestHeight : List Expr → Nat
  | [] => 0
  | e :: es => max e.height (Expr.greatestHeight es)

end

namespace Expr
variable {h : Nat} {e : Expr}

/-- The expression is no higher than that. -/
abbrev Low (h : Nat) (e : Expr) : Prop := e.height ≤ h

theorem greatestHeight_le_iff {es : List Expr} : greatestHeight es ≤ h ↔ ∀ e ∈ es, e.Low h := by
  induction es with
  | nil => simp [greatestHeight]
  | cons e es ih => rw [greatestHeight, Nat.max_le, ih, List.forall_mem_cons]

theorem low_succ_iff : e.Low (h + 1) ↔ ∀ a ∈ e.parts, a.Low h := by
  cases e <;>
    simp only [Low, height, parts, greatestHeight_le_iff, Nat.max_le, Nat.add_le_add_iff_right,
      Nat.le_add_left, List.forall_mem_cons, List.not_mem_nil, false_imp_iff, implies_true, and_true]

theorem height_pos (e : Expr) : 0 < e.height := by
  cases e <;> simp [height]

theorem Low.every {k : Nat} (he : e.Low k) (hk : k ≤ h) : e.Every (Low h) := by
  induction k generalizing e with
  | zero => exact absurd he (Nat.not_le_of_lt e.height_pos)
  | succ k ih =>
    exact .node (Nat.le_trans he hk) fun a ha => ih (low_succ_iff.1 he a ha) (Nat.le_of_succ_le hk)

end Expr

/-! Parsing. -/

theorem Level.parts_node (l : Level) (op : Token) (a b : Expr) :
    (l.node op a b).parts = [a, b] := by
  cases l <;> rfl

theorem Token.low_atom {t : Token} {e : Expr} (h : t.atom? = some e) : e.Low 1 := by
  unfold Token.atom? at h
  split at h <;> cases h <;> exact Nat.le_refl 1

/-- What the height of an expression stays below where `r` levels of nesting are left. -/
def Parse.roof : Nat → Nat
  | 0 => 1
  | r + 1 => roof r + 8 * r + 3

/-- What the height of an operand of a chain does not exceed where `r` levels are left. -/
def Level.ceiling (l : Level) (r : Nat) : Nat :=
  match l with
  | .factor => Parse.roof r + r + 1
  | .term => Parse.roof r + 2 * r + 1
  | .comparison => Parse.roof r + 3 * r + 1
  | .equality => Parse.roof r + 4 * r + 1
  | .and => Parse.roof r + 5 * r + 1
  | .or => Parse.roof r + 6 * r + 1
  | .comma => Parse.roof r + 7 * r + 2

namespace Parse
variable {r n : Nat}

theorem one_le_roof (r : Nat) : 1 ≤ roof r := by
  cases r with
  | zero => exact Nat.le_refl 1
  | succ r =>
    rw [roof]
    omega

theorem roof_succ (r : Nat) : roof (r + 1) = Level.comma.ceiling r + r + 1 := by
  rw [roof, Level.ceiling]
  omega

theorem ceiling_lt_succ (l : Level) (r : Nat) : l.ceiling r < l.ceiling (r + 1) := by
  cases l <;> simp only [Level.ceiling, roof] <;> omega

/-- The parsers of expressions keep to the height that the nesting left allows, with `n` steps
allotted. A chain is higher than its operands by as many links as there are levels left. -/
structure ExpressionHeight (n : Nat) : Prop where
  expression : ∀ r, Within r (fun e => e.height < roof r) (expression n)
  chain : ∀ r l, Within r (Expr.Low (l.ceiling r + r)) (chain n l)
  operand : ∀ r l, Within r (Expr.Low (l.ceiling r)) (operand n l)
  links : ∀ r l {h : Nat} {left : Expr}, l.ceiling r ≤ h → left.Low h →
    Within r (Expr.Low (h + r)) (links n l left)
  assignment : ∀ r, Within r (Expr.Low (Level.comma.ceiling r)) (assignment n)
  conditional : ∀ r, Within r (Expr.Low (Level.comma.ceiling r)) (conditional n)
  unary : ∀ r, Within r (Expr.Low (Level.factor.ceiling r)) (unary n)
  suffixed : ∀ r, Within r (Expr.Low (Level.factor.ceiling r)) (suffixed n)
  call : ∀ r, Within r (Expr.Low (roof r + r)) (call n)
  calls : ∀ r {h : Nat} {callee : Expr}, roof r ≤ h → callee.Low h →
    Within r (Expr.Low (h + r)) (calls n callee)
  arguments : ∀ r, Within r (fun es => ∀ e ∈ es, e.Low (Level.comma.ceiling r)) (arguments n)
  argumentList : ∀ r count {es : List Expr}, (∀ e ∈ es, e.Low (Level.comma.ceiling r)) →
    Within r (fun es => ∀ e ∈ es, e.Low (Level.comma.ceiling r)) (argumentList n count es)
  primary : ∀ r, Within r (Expr.Low (roof r)) (primary n)

section
variable (ih : ExpressionHeight n)
include ih

theorem low_operand (l : Level) : Within r (Expr.Low (l.ceiling r)) (operand (n + 1) l) := by
  have hchain {a : Level} (ha : a.ceiling r + r = l.ceiling r) :
      Within r (Expr.Low (l.ceiling r)) (chain n a) := ha ▸ ih.chain r a
  cases l with
  | comma => exact ih.assignment r
  | factor => exact ih.unary r
  | or => exact hchain (a := .and) (by simp only [Level.ceiling]; omega)
  | and => exact hchain (a := .equality) (by simp only [Level.ceiling]; omega)
  | equality => exact hchain (a := .comparison) (by simp only [Level.ceiling]; omega)
  | comparison => exact hchain (a := .term) (by simp only [Level.ceiling]; omega)
  | term => exact hchain (a := .factor) (by simp only [Level.ceiling]; omega)

theorem low_links (l : Level) {h : Nat} {left : Expr} (hl : l.ceiling r ≤ h) (hleft : left.Low h) :
    Within r (Expr.Low (h + r)) (links (n + 1) l left) := by
  refine (within_accept _).bind fun o _ => ?_
  cases o with
  | none => exact .pure (Nat.le_trans hleft (Nat.le_add_right h r))
  | some op =>
    refine within_deepen ?_
    rintro k rfl
    have hk := ceiling_lt_succ l k
    refine (ih.operand k l).bind fun right hright => ?_
    have hnode : (l.node op left right).Low (h + 1) := by
      rw [Expr.low_succ_iff, l.parts_node]
      exact List.forall_mem_cons.2 ⟨hleft, List.forall_mem_singleton.2 (by omega)⟩
    rw [Nat.add_comm k 1, ← Nat.add_assoc]
    exact ih.links k l (by omega) hnode

theorem low_assignment : Within r (Expr.Low (Level.comma.ceiling r)) (assignment (n + 1)) := by
  refine (ih.conditional r).bind fun target htarget => (within_accept _).bind fun o _ => ?_
  cases o with
  | none => exact .pure htarget
  | some equals =>
    refine within_nested ?_
    rintro k rfl
    refine (ih.assignment k).bind fun value hvalue => ?_
    split
    · exact .pure (Nat.le_trans (Nat.succ_le_succ hvalue) (ceiling_lt_succ _ k))
    · exact (within_report _ _).bind fun _ _ => .pure htarget

theorem low_conditional : Within r (Expr.Low (Level.comma.ceiling r)) (conditional (n + 1)) := by
  have hor : Level.comma.ceiling r = Level.or.ceiling r + r + 1 := by
    simp only [Level.ceiling]
    omega
  refine (ih.chain r .or).bind fun c hc => (within_accept _).bind fun o _ => ?_
  cases o with
  | none => exact .pure (by omega)
  | some question =>
    refine within_nested ?_
    rintro k rfl
    have hroof := roof_succ k
    have hceiling : roof (k + 1) ≤ Level.or.ceiling (k + 1) := by
      simp only [Level.ceiling]
      omega
    refine (ih.assignment k).bind fun yes hyes => (within_expect rfl _).bind fun _ _ => ?_
    refine (ih.conditional k).bind fun no hno => .pure ?_
    rw [hor, Expr.low_succ_iff]
    refine List.forall_mem_cons.2 ⟨hc, List.forall_mem_cons.2 ⟨by omega, ?_⟩⟩
    exact List.forall_mem_singleton.2 (by omega)

theorem low_unary : Within r (Expr.Low (Level.factor.ceiling r)) (unary (n + 1)) := by
  have hoperator (node : Expr → Expr) (hnode : ∀ e, (node e).height = e.height + 1) :
      Within r (Expr.Low (Level.factor.ceiling r)) (nested do
        let operand ← unary n
        pure (node operand)) := by
    refine within_nested ?_
    rintro k rfl
    refine (ih.unary k).bind fun e he => .pure ?_
    rw [Expr.Low, hnode]
    exact Nat.le_trans (Nat.succ_le_succ he) (ceiling_lt_succ _ k)
  refine (within_accept _).bind fun o _ => ?_
  cases o with
  | some op => exact hoperator (.unary op) fun _ => rfl
  | none =>
    refine (within_accept _).bind fun o _ => ?_
    cases o with
    | some op => exact hoperator (.crement op) fun _ => rfl
    | none => exact ih.suffixed r

theorem low_suffixed : Within r (Expr.Low (Level.factor.ceiling r)) (suffixed (n + 1)) := by
  refine (ih.call r).bind fun target htarget => (within_accept _).bind fun o _ => ?_
  cases o with
  | none => exact .pure (Nat.le_succ_of_le htarget)
  | some op => exact .pure (Nat.succ_le_succ htarget)

theorem low_calls {h : Nat} {callee : Expr} (hr : roof r ≤ h) (hcallee : callee.Low h) :
    Within r (Expr.Low (h + r)) (calls (n + 1) callee) := by
  refine (within_accept _).bind fun o _ => ?_
  cases o with
  | none => exact .pure (Nat.le_trans hcallee (Nat.le_add_right h r))
  | some _ =>
    refine within_deepen ?_
    rintro k rfl
    have hroof := roof_succ k
    have hceiling : roof k ≤ Level.comma.ceiling k := by
      simp only [Level.ceiling]
      omega
    refine (ih.arguments k).bind fun args hargs => (within_expect rfl _).bind fun paren _ => ?_
    have hcall : (Expr.call callee paren args).Low (h + 1) := by
      refine Expr.low_succ_iff.2 (List.forall_mem_cons.2 ⟨hcallee, fun e he => ?_⟩)
      have := hargs e he
      omega
    rw [Nat.add_comm k 1, ← Nat.add_assoc]
    exact ih.calls k (by omega) hcall

theorem low_arguments :
    Within r (fun es => ∀ e ∈ es, e.Low (Level.comma.ceiling r)) (arguments (n + 1)) := by
  refine (within_check _).bind fun b _ => ?_
  cases b with
  | true => exact .pure (List.forall_mem_nil _)
  | false => exact ih.argumentList r 0 (List.forall_mem_nil _)

theorem low_argumentList (count : Nat) {es : List Expr}
    (hes : ∀ e ∈ es, e.Low (Level.comma.ceiling r)) :
    Within r (fun es => ∀ e ∈ es, e.Low (Level.comma.ceiling r))
      (argumentList (n + 1) count es) := by
  rw [argumentList_succ]
  refine (within_tally _ _).bind fun _ _ => (ih.assignment r).bind fun arg harg => ?_
  have hall := List.forall_mem_cons.2 ⟨harg, hes⟩
  refine (within_accept _).bind fun o _ => ?_
  cases o with
  | none => exact .pure fun e he => hall e (List.mem_reverse.1 he)
  | some _ => exact ih.argumentList r (count + 1) hall

theorem low_primary : Within r (Expr.Low (roof r)) (primary (n + 1)) := by
  intro p hp
  cases hatom : p.current.atom? with
  | some e =>
    rw [primary_atom hatom]
    exact .ok (Nat.le_trans (Token.low_atom hatom) (one_le_roof r)) hp
  | none =>
    by_cases hk : p.current.kind = .leftParen
    · rw [primary_grouping hk]
      have hgrouping : Within r (Expr.Low (roof r)) (do
          let inner ← expression n
          let _ ← expect .rightParen "')' after expression"
          pure (.grouping inner)) :=
        (ih.expression r).bind fun _ he => (within_expect rfl _).bind fun _ _ => .pure he
      exact hgrouping hp
    · rw [primary_error hatom hk]
      exact .error trivial hp

theorem low_expression : Within r (fun e => e.height < roof r) (expression (n + 1)) := by
  refine within_nested ?_
  rintro k rfl
  rw [roof_succ]
  exact (ih.chain k .comma).mono fun _ => Nat.lt_succ_of_le

end

theorem expressionHeight (n : Nat) : ExpressionHeight n := by
  induction n with
  | zero => constructor <;> intros <;> exact .throw trivial
  | succ n ih =>
    exact {
      expression := fun _ => low_expression ih
      chain := fun r l => within_restoringDepth ((ih.operand r l).bind fun _ h =>
        ih.links r l (Nat.le_refl _) h)
      operand := fun _ => low_operand ih
      links := fun _ l _ _ => low_links ih l
      assignment := fun _ => low_assignment ih
      conditional := fun _ => low_conditional ih
      unary := fun _ => low_unary ih
      suffixed := fun _ => low_suffixed ih
      call := fun r => within_restoringDepth ((ih.primary r).bind fun _ h =>
        ih.calls r (Nat.le_refl _) h)
      calls := fun _ _ _ => low_calls ih
      arguments := fun _ => low_arguments ih
      argumentList := fun _ count _ => low_argumentList ih count
      primary := fun _ => low_primary ih }

end Parse

/-- The greatest height of an expression that is parsed. -/
def Expr.maxHeight : Nat := 261888

theorem Parse.roof_maxNesting : roof maxNesting = Expr.maxHeight + 1 := by decide +kernel

namespace Parse

theorem low_of_expression {n : Nat} {p q : Parser} {e : Expr} (h : expression n p = .ok e q) :
    e.Low Expr.maxHeight := by
  have hlow := (((expressionHeight n).expression maxNesting).of_ok (Nat.le_add_left _ _) h).1
  rw [roof_maxNesting] at hlow
  exact Nat.le_of_lt_succ hlow

/-- The expressions of statements are no higher than others. -/
theorem nest_low : Nest (Expr.Every (Expr.Low Expr.maxHeight))
    fun _ => Stmt.Every (Expr.Low Expr.maxHeight) fun _ => True where
  expression h := (low_of_expression h).every (Nat.le_refl _)
  always := .leaf (by decide) rfl
  simple h := .node trivial h.2 (h.forall_parts _)
  compound hexpressions hparts := .node trivial hexpressions hparts
  enclosed hinit hexpressions hparts := by
    refine .node trivial (List.forall_mem_nil _) ?_
    refine List.forall_mem_cons.2 ⟨.node trivial hinit.2 (hinit.forall_parts _), ?_⟩
    exact List.forall_mem_singleton.2 (.node trivial hexpressions hparts)
  function hbody := .node trivial (List.forall_mem_nil _) hbody

end Parse

theorem Program.low_of_parse? {tokens : List Token} {p : Program} (h : parse? tokens = some p) :
    ∀ s ∈ p.statements, s.Every (Expr.Low Expr.maxHeight) fun _ => True :=
  nested_of_parse? Parse.nest_low h

theorem LoneExpression.low_of_parse {tokens : List Token} {e : Expr}
    (h : (parse tokens).expression = some e) : e.Low Expr.maxHeight := by
  unfold parse at h
  split at h
  next he =>
    cases h
    exact Parse.low_of_expression (Parse.loneExpression_eq_ok he).1
  next => cases h

end Lox
