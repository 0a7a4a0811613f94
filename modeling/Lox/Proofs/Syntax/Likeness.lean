import Lox.Proofs.Relation
import Lox.Syntax.Statement

/-! Parsers in like states: their tokens are of the same kinds one by one. Each elementary step of
a parse keeps the states alike. -/
namespace Lox

/-- A relation between tokens of one kind. -/
structure Likeness where
  like : Token → Token → Prop
  kind : ∀ {t u : Token}, like t u → t.kind = u.kind

variable (R : Likeness)

/-- Literals that are the same word, or that like tokens stand for. -/
inductive Literal.Like : Literal → Literal → Prop where
  | nil : Literal.Like .nil .nil
  | bool (b : Bool) : Literal.Like (.bool b) (.bool b)
  | token {t u : Token} (hk : t.kind = .number ∨ t.kind = .string) (h : R.like t u) :
      Literal.Like t.literal u.literal

/-- Trees of one shape with like tokens at their nodes. -/
inductive Expr.Like : Expr → Expr → Prop where
  | literal {v w : Literal} (h : v.Like R w) : Expr.Like (.literal v) (.literal w)
  | grouping {a b : Expr} (h : a.Like b) : Expr.Like (.grouping a) (.grouping b)
  | unary {t u : Token} {a b : Expr} (ht : R.like t u) (h : a.Like b) :
      Expr.Like (.unary t a) (.unary u b)
  | binary {t u : Token} {a b c d : Expr} (ht : R.like t u) (hl : a.Like b) (hr : c.Like d) :
      Expr.Like (.binary t a c) (.binary u b d)
  | logicalAnd {t u : Token} {a b c d : Expr} (ht : R.like t u) (hl : a.Like b) (hr : c.Like d) :
      Expr.Like (.logicalAnd t a c) (.logicalAnd u b d)
  | logicalOr {t u : Token} {a b c d : Expr} (ht : R.like t u) (hl : a.Like b) (hr : c.Like d) :
      Expr.Like (.logicalOr t a c) (.logicalOr u b d)
  | conditional {t u : Token} {a b c d e f : Expr} (ht : R.like t u) (hc : a.Like b)
      (hy : c.Like d) (hn : e.Like f) : Expr.Like (.conditional t a c e) (.conditional u b d f)
  | comma {a b c d : Expr} (hl : a.Like b) (hr : c.Like d) : Expr.Like (.comma a c) (.comma b d)
  | crement {t u : Token} {a b : Expr} (ht : R.like t u) (h : a.Like b) :
      Expr.Like (.crement t a) (.crement u b)
  | name {t u : Token} (ht : R.like t u) : Expr.Like (.variable t) (.variable u)
  | assign {t u : Token} {a b : Expr} (ht : R.like t u) (h : a.Like b) :
      Expr.Like (.assign t a) (.assign u b)
  | call {t u : Token} {a b : Expr} {as bs : List Expr} (h : a.Like b) (ht : R.like t u)
      (hs : List.Forall₂ Expr.Like as bs) : Expr.Like (.call a t as) (.call b u bs)

inductive Stmt.Like : Stmt → Stmt → Prop where
  | empty : Stmt.Like .empty .empty
  | expression {a b : Expr} (h : a.Like R b) : Stmt.Like (.expression a) (.expression b)
  | print {t u : Token} {a b : Expr} (ht : R.like t u) (h : a.Like R b) :
      Stmt.Like (.print t a) (.print u b)
  | declare {t u : Token} {a b : Option Expr} (ht : R.like t u) (h : Option.Rel (Expr.Like R) a b) :
      Stmt.Like (.declare t a) (.declare u b)
  | block {as bs : List Stmt} (h : List.Forall₂ Stmt.Like as bs) : Stmt.Like (.block as) (.block bs)
  | branch {a b : Expr} {s t : Stmt} {x y : Option Stmt} (hc : a.Like R b) (hy : s.Like t)
      (hn : Option.Rel Stmt.Like x y) : Stmt.Like (.branch a s x) (.branch b t y)
  | loop {a b : Expr} {s t : Stmt} {x y : Option Expr} (hc : a.Like R b) (hb : s.Like t)
      (hi : Option.Rel (Expr.Like R) x y) : Stmt.Like (.loop a s x) (.loop b t y)
  | breakLoop {t u : Token} (ht : R.like t u) : Stmt.Like (.breakLoop t) (.breakLoop u)
  | continueLoop {t u : Token} (ht : R.like t u) : Stmt.Like (.continueLoop t) (.continueLoop u)
  | function {t u : Token} {ts us : List Token} {as bs : List Stmt} (ht : R.like t u)
      (hts : List.Forall₂ R.like ts us) (h : List.Forall₂ Stmt.Like as bs) :
      Stmt.Like (.function t ts as) (.function u us bs)
  | returnValue {t u : Token} {a b : Option Expr} (ht : R.like t u)
      (h : Option.Rel (Expr.Like R) a b) : Stmt.Like (.returnValue t a) (.returnValue u b)

structure SyntaxFault.Like (f g : SyntaxFault) : Prop where
  error : f.error = g.error
  token : R.like f.token g.token

/-- Parses that have come equally far in like tokens, of which one is an end of the input. -/
structure Parser.Like (p q : Parser) : Prop where
  rest : List.Forall₂ R.like p.rest q.rest
  ended : ∃ t ∈ p.rest, t.kind = .endOfInput
  faults : List.Forall₂ (SyntaxFault.Like R) p.faults q.faults
  consumed : p.consumed = q.consumed
  depth : p.depth = q.depth
  loops : p.loops = q.loops
  functions : p.functions = q.functions
  blocks : p.blocks = q.blocks
  start : p.start = q.start

variable {R}

theorem exists_end_tail {t : Token} {ts : List Token} (h : ∃ e ∈ t :: ts, e.kind = .endOfInput)
    (hk : t.kind ≠ .endOfInput) : ∃ e ∈ ts, e.kind = .endOfInput := by
  obtain ⟨e, he, hend⟩ := h
  refine ⟨e, (List.mem_cons.1 he).resolve_left ?_, hend⟩
  rintro rfl
  exact hk hend

namespace Parser.Like
variable {p q : Parser}

theorem heads (h : p.Like R q) : ∃ t ts u us, p.rest = t :: ts ∧ q.rest = u :: us ∧ R.like t u ∧
    List.Forall₂ R.like ts us ∧ (t.kind ≠ .endOfInput → ∃ e ∈ ts, e.kind = .endOfInput) := by
  have hrest := h.rest
  have hended := h.ended
  cases hp : p.rest with
  | nil =>
    obtain ⟨e, he, -⟩ := hended
    rw [hp] at he
    cases he
  | cons t ts =>
    rw [hp] at hended hrest
    obtain ⟨u, us, ht, hts, hq⟩ := List.forall₂_cons_left_iff.1 hrest
    exact ⟨t, ts, u, us, rfl, hq, ht, hts, exists_end_tail hended⟩

theorem current (h : p.Like R q) : R.like p.current q.current := by
  obtain ⟨t, ts, u, us, hp, hq, ht, -⟩ := h.heads
  unfold Parser.current
  rw [hp, hq]
  exact ht

theorem kind (h : p.Like R q) : p.current.kind = q.current.kind := R.kind h.current

theorem advance (h : p.Like R q) : p.advance.Like R q.advance := by
  obtain ⟨t, ts, u, us, hp, hq, ht, hts, hlater⟩ := h.heads
  unfold Parser.advance
  rw [hp, hq]
  dsimp only
  rw [← R.kind ht]
  split
  · exact h
  · next hk => exact { h with rest := hts, ended := hlater hk, consumed := by rw [h.consumed] }

theorem report (h : p.Like R q) (error : SyntaxError) {t u : Token} (ht : R.like t u) :
    (p.report error t).Like R (q.report error u) :=
  { h with faults := .cons ⟨rfl, ht⟩ h.faults }

/-- Recovery stops at the same token. -/
theorem skipFrom (start : Nat) (inBlock : Bool) (consumed : Nat) {ts us : List Token}
    (h : List.Forall₂ R.like ts us) (hend : ∃ t ∈ ts, t.kind = .endOfInput) :
    (Parser.skipFrom start inBlock consumed ts).1 = (Parser.skipFrom start inBlock consumed us).1 ∧
      List.Forall₂ R.like (Parser.skipFrom start inBlock consumed ts).2
        (Parser.skipFrom start inBlock consumed us).2 ∧
      ∃ t ∈ (Parser.skipFrom start inBlock consumed ts).2, t.kind = .endOfInput := by
  induction h generalizing consumed with
  | nil =>
    obtain ⟨t, ht, -⟩ := hend
    cases ht
  | @cons t u ts us ht hts ih =>
    unfold Parser.skipFrom
    rw [← R.kind ht]
    split
    · exact ⟨rfl, .cons ht hts, hend⟩
    · next hk =>
      split
      · exact ⟨rfl, hts, exists_end_tail hend hk⟩
      · split
        · exact ⟨rfl, .cons ht hts, hend⟩
        · exact ih (consumed + 1) (exists_end_tail hend hk)

theorem synchronize (h : p.Like R q) : p.synchronize.Like R q.synchronize := by
  obtain ⟨hcount, hrest, hend⟩ := skipFrom p.start (0 < p.blocks) p.consumed h.rest h.ended
  have hq : q.synchronize = { q with
      consumed := (Parser.skipFrom p.start (0 < p.blocks) p.consumed q.rest).1
      rest := (Parser.skipFrom p.start (0 < p.blocks) p.consumed q.rest).2 } := by
    rw [h.start, h.blocks, h.consumed]
    rfl
  rw [hq]
  exact { h with rest := hrest, ended := hend, consumed := hcount }

end Parser.Like

namespace Parse
variable {α β : Type} {A : α → β → Prop}

/-- From like states both steps end alike. -/
abbrev Agree (R : Likeness) (A : α → β → Prop) (x : Parse α) (y : Parse β) : Prop :=
  Related Eq (Parser.Like R) A x y

theorem agree_peek : Agree R R.like peek peek := fun _ _ h => .ok h.current h

theorem agree_check (k : Kind) : Agree R Eq (check k) (check k) := by
  intro p q h
  unfold check
  rw [h.kind]
  exact .ok rfl h

theorem agree_atEnd : Agree R Eq atEnd atEnd := by
  intro p q h
  unfold atEnd Parser.atEnd
  rw [h.kind]
  exact .ok rfl h

theorem agree_advance : Agree R R.like advance advance := fun _ _ h => .ok h.current h.advance

theorem agree_accept (wanted : Kind → Bool) :
    Agree R (Option.Rel R.like) (accept wanted) (accept wanted) := by
  intro p q h
  unfold accept
  rw [← h.kind]
  split
  · exact .ok (.some h.current) h.advance
  · exact .ok .none h

theorem agree_report (error : SyntaxError) {t u : Token} (ht : R.like t u) :
    Agree R Eq (report error t) (report error u) := fun _ _ h => .ok rfl (h.report error ht)

theorem agree_fail (error : SyntaxError) {t u : Token} (ht : R.like t u) :
    Agree R A (fail error t) (fail error u) := fun _ _ h => .error rfl (h.report error ht)

theorem agree_expect (k : Kind) (what : String) :
    Agree R R.like (expect k what) (expect k what) := by
  intro p q h
  unfold expect
  rw [← h.kind]
  split
  · exact .ok h.current h.advance
  · exact agree_fail _ h.current h

theorem agree_deepen : Agree R Eq deepen deepen := by
  intro p q h
  unfold deepen
  rw [← h.depth]
  split
  · exact .ok rfl { h with depth := by rw [h.depth] }
  · exact agree_fail _ h.current h

theorem agree_bracket {enter : Parser → Parser} {leave : Parser → Parser → Parser} {x : Parse α}
    {y : Parse β} (henter : ∀ p q, p.Like R q → (enter p).Like R (enter q))
    (hleave : ∀ p q p' q', p.Like R q → p'.Like R q' → (leave p p').Like R (leave q q'))
    (h : Agree R A x y) : Agree R A (bracket enter leave x) (bracket enter leave y) := by
  intro p q hpq
  have hresult := h (henter p q hpq)
  unfold bracket
  generalize x (enter p) = r, y (enter q) = r' at hresult ⊢
  cases hresult with
  | ok ha hs => exact .ok ha (hleave _ _ _ _ hpq hs)
  | error he hs => exact .error he (hleave _ _ _ _ hpq hs)

theorem agree_restoringDepth {x : Parse α} {y : Parse β} (h : Agree R A x y) :
    Agree R A (restoringDepth x) (restoringDepth y) :=
  agree_bracket (fun _ _ h => h) (fun _ _ _ _ h h' => { h' with depth := h.depth }) h

theorem agree_nested {x : Parse α} {y : Parse β} (h : Agree R A x y) :
    Agree R A (nested x) (nested y) :=
  agree_restoringDepth (agree_deepen.bind fun _ _ _ => h)

theorem agree_inLoop {x : Parse α} {y : Parse β} (h : Agree R A x y) :
    Agree R A (inLoop x) (inLoop y) :=
  agree_bracket (fun _ _ h => { h with loops := by rw [h.loops] })
    (fun _ _ _ _ h h' => { h' with loops := h.loops }) h

theorem agree_inFunction {x : Parse α} {y : Parse β} (h : Agree R A x y) :
    Agree R A (inFunction x) (inFunction y) :=
  agree_bracket (fun _ _ h => { h with loops := rfl, functions := by rw [h.functions] })
    (fun _ _ _ _ h h' => { h' with loops := h.loops, functions := h.functions }) h

theorem agree_inBlock {x : Parse α} {y : Parse β} (h : Agree R A x y) :
    Agree R A (inBlock x) (inBlock y) :=
  agree_bracket (fun _ _ h => { h with blocks := by rw [h.blocks] })
    (fun _ _ _ _ h h' => { h' with blocks := h.blocks }) h

theorem agree_recovering {x : Parse α} {y : Parse β} (h : Agree R A x y) :
    Agree R (Option.Rel A) (recovering x) (recovering y) := by
  intro p q hpq
  have hentered : Parser.Like R { p with start := p.consumed } { q with start := q.consumed } :=
    { hpq with start := hpq.consumed }
  have hresult := h hentered
  unfold recovering
  generalize x { p with start := p.consumed } = r, y { q with start := q.consumed } = r'
    at hresult ⊢
  cases hresult with
  | ok ha hs => exact .ok (.some ha) { hs with start := hpq.start }
  | @error e _ _ _ he hs =>
    subst he
    cases e with
    | bail => exact .ok .none (Parser.Like.synchronize { hs with start := hpq.start })
    | stalled => exact .error rfl { hs with start := hpq.start }

end Parse
end Lox
