import Lox.Proofs.Syntax.Agreement
import Lox.Proofs.Syntax.Every
import Lox.Syntax.Outline

/-! Other tokens of the same kinds. What a parse does depends on the kinds of the tokens only; so
where other tokens of the same kinds stand in their places, they come to stand in the same places of
the tree and of the faults, and the values of the literals are theirs. -/
namespace Lox

/-- A literal that is not read yet: a word, or the token that has the value. -/
inductive Literal.Draft where
  | nil
  | bool (b : Bool)
  | token (t : Token)

def Literal.Draft.fill (f : Token → Token) : Literal.Draft → Literal
  | nil => .nil
  | bool b => .bool b
  | token t => (f t).literal

/-- An expression whose literals are not read yet. -/
inductive Expr.Draft where
  | literal (value : Literal.Draft)
  | grouping (inner : Expr.Draft)
  | unary (op : Token) (operand : Expr.Draft)
  | binary (op : Token) (left right : Expr.Draft)
  | logicalAnd (op : Token) (left right : Expr.Draft)
  | logicalOr (op : Token) (left right : Expr.Draft)
  | conditional (question : Token) (condition yes no : Expr.Draft)
  | comma (left right : Expr.Draft)
  | crement (op : Token) (target : Expr.Draft)
  | variable (name : Token)
  | assign (name : Token) (value : Expr.Draft)
  | call (callee : Expr.Draft) (paren : Token) (args : List Expr.Draft)

/-- A statement whose literals are not read yet. -/
inductive Stmt.Draft where
  | empty
  | expression (e : Expr.Draft)
  | print (keyword : Token) (e : Expr.Draft)
  | declare (name : Token) (init : Option Expr.Draft)
  | block (body : List Stmt.Draft)
  | branch (condition : Expr.Draft) (yes : Stmt.Draft) (no : Option Stmt.Draft)
  | loop (condition : Expr.Draft) (body : Stmt.Draft) (increment : Option Expr.Draft)
  | breakLoop (keyword : Token)
  | continueLoop (keyword : Token)
  | function (name : Token) (params : List Token) (body : List Stmt.Draft)
  | returnValue (keyword : Token) (value : Option Expr.Draft)

mutual

/-- The expression with `f t` in place of each token `t`, and the literals read from there. -/
def Expr.Draft.fill (f : Token → Token) : Expr.Draft → Expr
  | .literal v => .literal (v.fill f)
  | .grouping e => .grouping (e.fill f)
  | .unary op e => .unary (f op) (e.fill f)
  | .binary op a b => .binary (f op) (a.fill f) (b.fill f)
  | .logicalAnd op a b => .logicalAnd (f op) (a.fill f) (b.fill f)
  | .logicalOr op a b => .logicalOr (f op) (a.fill f) (b.fill f)
  | .conditional question c a b => .conditional (f question) (c.fill f) (a.fill f) (b.fill f)
  | .comma a b => .comma (a.fill f) (b.fill f)
  | .crement op e => .crement (f op) (e.fill f)
  | .variable name => .variable (f name)
  | .assign name e => .assign (f name) (e.fill f)
  | .call callee paren args => .call (callee.fill f) (f paren) (Expr.Draft.fillAll f args)

def Expr.Draft.fillAll (f : Token → Token) : List Expr.Draft → List Expr
  | [] => []
  | e :: es => e.fill f :: Expr.Draft.fillAll f es

end

mutual

/-- The statement with `f t` in place of each token `t`, and the literals read from there. -/
def Stmt.Draft.fill (f : Token → Token) : Stmt.Draft → Stmt
  | .empty => .empty
  | .expression e => .expression (e.fill f)
  | .print keyword e => .print (f keyword) (e.fill f)
  | .declare name init => .declare (f name) (init.map (·.fill f))
  | .block body => .block (Stmt.Draft.fillAll f body)
  | .branch c yes no => .branch (c.fill f) (yes.fill f) (Stmt.Draft.fillOption f no)
  | .loop c body increment => .loop (c.fill f) (body.fill f) (increment.map (·.fill f))
  | .breakLoop keyword => .breakLoop (f keyword)
  | .continueLoop keyword => .continueLoop (f keyword)
  | .function name params body => .function (f name) (params.map f) (Stmt.Draft.fillAll f body)
  | .returnValue keyword value => .returnValue (f keyword) (value.map (·.fill f))

def Stmt.Draft.fillAll (f : Token → Token) : List Stmt.Draft → List Stmt
  | [] => []
  | s :: ss => s.fill f :: Stmt.Draft.fillAll f ss

def Stmt.Draft.fillOption (f : Token → Token) : Option Stmt.Draft → Option Stmt
  | none => none
  | some s => some (s.fill f)

end

theorem Expr.Draft.fillAll_eq_map (f : Token → Token) (ds : List Expr.Draft) :
    fillAll f ds = ds.map (fill f) := by
  induction ds with
  | nil => rfl
  | cons d ds ih => rw [fillAll, ih, List.map_cons]

theorem Stmt.Draft.fillAll_eq_map (f : Token → Token) (ds : List Stmt.Draft) :
    fillAll f ds = ds.map (fill f) := by
  induction ds with
  | nil => rfl
  | cons d ds ih => rw [fillAll, ih, List.map_cons]

theorem Stmt.Draft.fillOption_eq_map (f : Token → Token) (d : Option Stmt.Draft) :
    fillOption f d = d.map (fill f) := by
  cases d <;> rfl

def SyntaxFault.fill (f : Token → Token) (fault : SyntaxFault) : SyntaxFault :=
  { fault with token := f fault.token }

structure Program.Draft where
  statements : List Stmt.Draft
  faults : List SyntaxFault

def Program.Draft.fill (f : Token → Token) (p : Program.Draft) : Program :=
  ⟨p.statements.map (·.fill f), p.faults.map (·.fill f)⟩

structure LoneExpression.Draft where
  expression : Option Expr.Draft
  faults : List SyntaxFault

def LoneExpression.Draft.fill (f : Token → Token) (e : LoneExpression.Draft) : LoneExpression :=
  ⟨e.expression.map (·.fill f), e.faults.map (·.fill f)⟩

/-! Marks. A literal in a tree does not tell which token it comes from, unless all tokens have
different literals. -/

/-- The token with a literal that tells where in the input it stands. -/
def Token.marked (i : Nat) (t : Token) : Token :=
  { t with literal := .string (List.replicate i 0) }

/-- Where a token with this literal stands. -/
def Literal.place : Literal → Nat
  | .string s => s.length
  | .nil | .bool _ | .number _ => 0

theorem Token.place_marked (i : Nat) (t : Token) : (t.marked i).literal.place = i :=
  List.length_replicate

/-- A change of tokens that keeps their kinds. -/
structure Relabelling (ts : List Token) where
  map : Token → Token
  kind : ∀ t ∈ ts, (map t).kind = t.kind

namespace Relabelling
variable {ts : List Token}

/-- A marked token is like what the token becomes that it was made from. -/
def likeness (g : Relabelling ts) : Likeness where
  like u v := ∃ i t, ts[i]? = some t ∧ u = t.marked i ∧ v = g.map t
  kind := by
    rintro _ _ ⟨i, t, ht, rfl, rfl⟩
    exact (g.kind t (List.mem_of_getElem? ht)).symm

theorem like_marked (g : Relabelling ts) :
    List.Forall₂ g.likeness.like (ts.mapIdx Token.marked) (ts.map g.map) := by
  refine List.forall₂_iff_get.2 ⟨by rw [List.length_mapIdx, List.length_map], fun i h h' => ?_⟩
  rw [List.length_map] at h'
  refine ⟨i, ts[i], List.getElem?_eq_getElem h', ?_, ?_⟩
  · simp
  · simp

end Relabelling

theorem exists_end_marked {ts : List Token} (h : ∃ t ∈ ts, t.kind = .endOfInput) :
    ∃ t ∈ ts.mapIdx Token.marked, t.kind = .endOfInput := by
  obtain ⟨t, ht, hk⟩ := h
  obtain ⟨i, hi, rfl⟩ := List.getElem_of_mem ht
  exact ⟨ts[i].marked i, List.mem_mapIdx.2 ⟨i, hi, rfl⟩, hk⟩

/-! Drafts. -/

section
variable {α δ : Type} (ts : List Token)

/-- There is a draft from which all is got, by any change of the tokens, that is like `a`. -/
def HasDraft (like : Likeness → α → α → Prop) (fill : (Token → Token) → δ → α) (a : α) : Prop :=
  ∃ d, ∀ (g : Relabelling ts) b, like g.likeness a b → b = fill g.map d

variable {ts} {like : Likeness → α → α → Prop} {fill : (Token → Token) → δ → α}

theorem HasDraft.list {as : List α} (h : ∀ a ∈ as, HasDraft ts like fill a) :
    HasDraft ts (fun R => List.Forall₂ (like R)) (fun f => List.map (fill f)) as := by
  induction as with
  | nil =>
    refine ⟨[], fun g bs hbs => ?_⟩
    cases hbs
    rfl
  | cons a as ih =>
    obtain ⟨ha, has⟩ := List.forall_mem_cons.1 h
    obtain ⟨d, hd⟩ := ha
    obtain ⟨ds, hds⟩ := ih has
    refine ⟨d :: ds, fun g bs hbs => ?_⟩
    cases hbs with
    | cons hb hbs => exact congrArg₂ List.cons (hd g _ hb) (hds g _ hbs)

theorem HasDraft.option {a : Option α} (h : ∀ x ∈ a, HasDraft ts like fill x) :
    HasDraft ts (fun R => Option.Rel (like R)) (fun f => Option.map (fill f)) a := by
  cases a with
  | none =>
    refine ⟨none, fun g b hb => ?_⟩
    cases hb
    rfl
  | some a =>
    obtain ⟨d, hd⟩ := h a rfl
    refine ⟨some d, fun g b hb => ?_⟩
    cases hb with
    | some hb => exact congrArg some (hd g _ hb)

end

section
variable (ts : List Token)

theorem Token.hasDraft (u : Token) : HasDraft ts Likeness.like (fun f t => f t) u := by
  refine ⟨ts.getD u.literal.place u, ?_⟩
  rintro g _ ⟨i, t, ht, rfl, rfl⟩
  rw [place_marked, List.getD_eq_getElem?_getD, ht, Option.getD_some]

/-- The word, or the token that is marked so. -/
def Literal.unmark : Literal → Literal.Draft
  | .nil => .nil
  | .bool b => .bool b
  | v => .token (ts.getD v.place .absent)

theorem Literal.hasDraft (v : Literal) : HasDraft ts Literal.Like Literal.Draft.fill v := by
  refine ⟨v.unmark ts, fun g w h => ?_⟩
  cases h with
  | nil => rfl
  | bool b => rfl
  | token _ h =>
    obtain ⟨i, t, ht, rfl, rfl⟩ := h
    have hunmarked : (t.marked i).literal.unmark ts =
        .token (ts.getD (t.marked i).literal.place .absent) := rfl
    rw [hunmarked, Token.place_marked, List.getD_eq_getElem?_getD, ht, Option.getD_some,
      Draft.fill]

theorem Expr.hasDraft (e : Expr) : HasDraft ts Expr.Like Expr.Draft.fill e := by
  induction e using Expr.of_parts with
  | h e ih =>
    cases e with
    | literal v =>
      obtain ⟨d, hd⟩ := v.hasDraft ts
      refine ⟨.literal d, fun g b h => ?_⟩
      cases h with
      | literal hv => rw [Draft.fill, hd g _ hv]
    | grouping a =>
      obtain ⟨d, hd⟩ := ih a List.mem_cons_self
      refine ⟨.grouping d, fun g b h => ?_⟩
      cases h with
      | grouping ha => rw [Draft.fill, hd g _ ha]
    | unary op a =>
      obtain ⟨t, ht⟩ := op.hasDraft ts
      obtain ⟨d, hd⟩ := ih a List.mem_cons_self
      refine ⟨.unary t d, fun g b h => ?_⟩
      cases h with
      | unary hop ha => rw [Draft.fill, ht g _ hop, hd g _ ha]
    | binary op a b =>
      obtain ⟨t, ht⟩ := op.hasDraft ts
      obtain ⟨d, hd⟩ := ih a List.mem_cons_self
      obtain ⟨d', hd'⟩ := ih b (List.mem_cons_of_mem _ List.mem_cons_self)
      refine ⟨.binary t d d', fun g b h => ?_⟩
      cases h with
      | binary hop ha hb => rw [Draft.fill, ht g _ hop, hd g _ ha, hd' g _ hb]
    | logicalAnd op a b =>
      obtain ⟨t, ht⟩ := op.hasDraft ts
      obtain ⟨d, hd⟩ := ih a List.mem_cons_self
      obtain ⟨d', hd'⟩ := ih b (List.mem_cons_of_mem _ List.mem_cons_self)
      refine ⟨.logicalAnd t d d', fun g b h => ?_⟩
      cases h with
      | logicalAnd hop ha hb => rw [Draft.fill, ht g _ hop, hd g _ ha, hd' g _ hb]
    | logicalOr op a b =>
      obtain ⟨t, ht⟩ := op.hasDraft ts
      obtain ⟨d, hd⟩ := ih a List.mem_cons_self
      obtain ⟨d', hd'⟩ := ih b (List.mem_cons_of_mem _ List.mem_cons_self)
      refine ⟨.logicalOr t d d', fun g b h => ?_⟩
      cases h with
      | logicalOr hop ha hb => rw [Draft.fill, ht g _ hop, hd g _ ha, hd' g _ hb]
    | conditional question c a b =>
      obtain ⟨t, ht⟩ := question.hasDraft ts
      obtain ⟨d, hd⟩ := ih c List.mem_cons_self
      obtain ⟨d', hd'⟩ := ih a (List.mem_cons_of_mem _ List.mem_cons_self)
      obtain ⟨d'', hd''⟩ :=
        ih b (List.mem_cons_of_mem _ (List.mem_cons_of_mem _ List.mem_cons_self))
      refine ⟨.conditional t d d' d'', fun g b h => ?_⟩
      cases h with
      | conditional hq hc ha hb =>
        rw [Draft.fill, ht g _ hq, hd g _ hc, hd' g _ ha, hd'' g _ hb]
    | comma a b =>
      obtain ⟨d, hd⟩ := ih a List.mem_cons_self
      obtain ⟨d', hd'⟩ := ih b (List.mem_cons_of_mem _ List.mem_cons_self)
      refine ⟨.comma d d', fun g b h => ?_⟩
      cases h with
      | comma ha hb => rw [Draft.fill, hd g _ ha, hd' g _ hb]
    | crement op a =>
      obtain ⟨t, ht⟩ := op.hasDraft ts
      obtain ⟨d, hd⟩ := ih a List.mem_cons_self
      refine ⟨.crement t d, fun g b h => ?_⟩
      cases h with
      | crement hop ha => rw [Draft.fill, ht g _ hop, hd g _ ha]
    | «variable» name =>
      obtain ⟨t, ht⟩ := name.hasDraft ts
      refine ⟨.variable t, fun g b h => ?_⟩
      cases h with
      | name hname => rw [Draft.fill, ht g _ hname]
    | assign name a =>
      obtain ⟨t, ht⟩ := name.hasDraft ts
      obtain ⟨d, hd⟩ := ih a List.mem_cons_self
      refine ⟨.assign t d, fun g b h => ?_⟩
      cases h with
      | assign hname ha => rw [Draft.fill, ht g _ hname, hd g _ ha]
    | call callee paren args =>
      obtain ⟨d, hd⟩ := ih callee List.mem_cons_self
      obtain ⟨t, ht⟩ := paren.hasDraft ts
      obtain ⟨ds, hds⟩ := HasDraft.list fun a ha => ih a (List.mem_cons_of_mem _ ha)
      refine ⟨.call d t ds, fun g b h => ?_⟩
      cases h with
      | call hcallee hparen hargs =>
        rw [Draft.fill, Draft.fillAll_eq_map, hd g _ hcallee, ht g _ hparen, hds g _ hargs]

theorem Stmt.hasDraft (s : Stmt) : HasDraft ts Stmt.Like Stmt.Draft.fill s := by
  have hexpr (e : Option Expr) := HasDraft.option fun (x : Expr) (_ : x ∈ e) => x.hasDraft ts
  induction s using Stmt.of_parts with
  | h s ih =>
    cases s with
    | empty =>
      refine ⟨.empty, fun g b h => ?_⟩
      cases h
      rfl
    | expression e =>
      obtain ⟨d, hd⟩ := e.hasDraft ts
      refine ⟨.expression d, fun g b h => ?_⟩
      cases h with
      | expression he => rw [Draft.fill, hd g _ he]
    | print keyword e =>
      obtain ⟨t, ht⟩ := keyword.hasDraft ts
      obtain ⟨d, hd⟩ := e.hasDraft ts
      refine ⟨.print t d, fun g b h => ?_⟩
      cases h with
      | print hk he => rw [Draft.fill, ht g _ hk, hd g _ he]
    | declare name init =>
      obtain ⟨t, ht⟩ := name.hasDraft ts
      obtain ⟨d, hd⟩ := hexpr init
      refine ⟨.declare t d, fun g b h => ?_⟩
      cases h with
      | declare hname hinit => rw [Draft.fill, ht g _ hname, hd g _ hinit]
    | block body =>
      obtain ⟨ds, hds⟩ := HasDraft.list ih
      refine ⟨.block ds, fun g b h => ?_⟩
      cases h with
      | block hbody => rw [Draft.fill, Draft.fillAll_eq_map, hds g _ hbody]
    | branch c yes no =>
      obtain ⟨dc, hdc⟩ := c.hasDraft ts
      obtain ⟨d, hd⟩ := ih yes List.mem_cons_self
      obtain ⟨d', hd'⟩ := HasDraft.option fun t ht =>
        ih t (List.mem_cons_of_mem _ (Option.mem_toList.2 ht))
      refine ⟨.branch dc d d', fun g b h => ?_⟩
      cases h with
      | branch hc hyes hno =>
        rw [Draft.fill, Draft.fillOption_eq_map, hdc g _ hc, hd g _ hyes, hd' g _ hno]
    | loop c body increment =>
      obtain ⟨dc, hdc⟩ := c.hasDraft ts
      obtain ⟨d, hd⟩ := ih body List.mem_cons_self
      obtain ⟨di, hdi⟩ := hexpr increment
      refine ⟨.loop dc d di, fun g b h => ?_⟩
      cases h with
      | loop hc hbody hi => rw [Draft.fill, hdc g _ hc, hd g _ hbody, hdi g _ hi]
    | breakLoop keyword =>
      obtain ⟨t, ht⟩ := keyword.hasDraft ts
      refine ⟨.breakLoop t, fun g b h => ?_⟩
      cases h with
      | breakLoop hk => rw [Draft.fill, ht g _ hk]
    | continueLoop keyword =>
      obtain ⟨t, ht⟩ := keyword.hasDraft ts
      refine ⟨.continueLoop t, fun g b h => ?_⟩
      cases h with
      | continueLoop hk => rw [Draft.fill, ht g _ hk]
    | function name params body =>
      obtain ⟨t, ht⟩ := name.hasDraft ts
      obtain ⟨us, hus⟩ := HasDraft.list fun (p : Token) (_ : p ∈ params) => p.hasDraft ts
      obtain ⟨ds, hds⟩ := HasDraft.list ih
      refine ⟨.function t us ds, fun g b h => ?_⟩
      cases h with
      | function hname hparams hbody =>
        rw [Draft.fill, Draft.fillAll_eq_map, ht g _ hname, hus g _ hparams, hds g _ hbody]
    | returnValue keyword value =>
      obtain ⟨t, ht⟩ := keyword.hasDraft ts
      obtain ⟨d, hd⟩ := hexpr value
      refine ⟨.returnValue t d, fun g b h => ?_⟩
      cases h with
      | returnValue hk hvalue => rw [Draft.fill, ht g _ hk, hd g _ hvalue]

theorem SyntaxFault.hasDraft (fault : SyntaxFault) :
    HasDraft ts SyntaxFault.Like SyntaxFault.fill fault := by
  obtain ⟨t, ht⟩ := fault.token.hasDraft ts
  refine ⟨⟨fault.error, t⟩, fun g b h => ?_⟩
  exact congrArg₂ SyntaxFault.mk h.error.symm (ht g _ h.token)

theorem SyntaxFault.hasDrafts (faults : List SyntaxFault) :
    HasDraft ts (fun R => List.Forall₂ (SyntaxFault.Like R)) (fun f => List.map (fill f)) faults :=
  .list fun fault _ => fault.hasDraft ts

end

section
variable {ts : List Token} (hend : ∃ t ∈ ts, t.kind = .endOfInput)
include hend

theorem Program.exists_draft : ∃ p : Option Program.Draft,
    ∀ g : Relabelling ts, parse? (ts.map g.map) = p.map (·.fill g.map) := by
  have hlike (g : Relabelling ts) := parse?_like g.like_marked (exists_end_marked hend)
  cases hmarked : parse? (ts.mapIdx Token.marked) with
  | none =>
    refine ⟨none, fun g => ?_⟩
    have hparsed := hlike g
    rw [hmarked] at hparsed
    generalize parse? (ts.map g.map) = q at hparsed ⊢
    cases hparsed
    rfl
  | some p =>
    obtain ⟨ds, hds⟩ := HasDraft.list fun (s : Stmt) (_ : s ∈ p.statements) => s.hasDraft ts
    obtain ⟨fs, hfs⟩ := SyntaxFault.hasDrafts ts p.faults
    refine ⟨some ⟨ds, fs⟩, fun g => ?_⟩
    have hparsed := hlike g
    rw [hmarked] at hparsed
    generalize parse? (ts.map g.map) = q at hparsed ⊢
    cases hparsed with
    | some h => exact congrArg some (congrArg₂ Program.mk (hds g _ h.1) (hfs g _ h.2))

theorem LoneExpression.exists_draft : ∃ e : LoneExpression.Draft,
    ∀ g : Relabelling ts, parse (ts.map g.map) = e.fill g.map := by
  have hlike (g : Relabelling ts) := parse_like g.like_marked (exists_end_marked hend)
  generalize parse (ts.mapIdx Token.marked) = marked at hlike
  obtain ⟨d, hd⟩ := HasDraft.option fun (e : Expr) (_ : e ∈ marked.expression) => e.hasDraft ts
  obtain ⟨fs, hfs⟩ := SyntaxFault.hasDrafts ts marked.faults
  refine ⟨⟨d, fs⟩, fun g => ?_⟩
  exact congrArg₂ LoneExpression.mk (hd g _ (hlike g).1) (hfs g _ (hlike g).2)

end

/-- The parse of a program, and that of an expression, is one draft for all tokens of the same
kinds. The draft is what the tokens themselves give, with tokens in place of literals; any change of
the tokens that keeps their kinds gives the same tree and the same faults, with each token changed
where it stands, and the literals of the changed tokens. A parse that has no end has none then
either. -/
theorem Parser.kinds_determine_parse {ts : List Token} (hend : ∃ t ∈ ts, t.kind = .endOfInput) :
    (∃ p : Option Program.Draft, Program.parse? ts = p.map (·.fill id) ∧
      ∀ f : Token → Token, (∀ t ∈ ts, (f t).kind = t.kind) →
        Program.parse? (ts.map f) = p.map (·.fill f)) ∧
    ∃ e : LoneExpression.Draft, LoneExpression.parse ts = e.fill id ∧
      ∀ f : Token → Token, (∀ t ∈ ts, (f t).kind = t.kind) →
        LoneExpression.parse (ts.map f) = e.fill f := by
  obtain ⟨p, hp⟩ := Program.exists_draft hend
  obtain ⟨e, he⟩ := LoneExpression.exists_draft hend
  have hprogram := hp ⟨id, fun _ _ => rfl⟩
  have hexpression := he ⟨id, fun _ _ => rfl⟩
  rw [List.map_id] at hprogram hexpression
  exact ⟨⟨p, hprogram, fun f hf => hp ⟨f, hf⟩⟩, e, hexpression, fun f hf => he ⟨f, hf⟩⟩

/-- Two strings that are equal become different ones, and each stays in its place; a fault goes
with its token. -/
theorem Parser.kinds_determine_parse_equal_strings :
    let token (kind : Kind) (place : Nat) : Token := ⟨kind, [], .string [97], ⟨place, 1, place + 1⟩⟩
    let ts := [token .kwPrint 0, token .string 1, token .plus 2, token .string 3,
      token .semicolon 4, token .rightParen 5, token .endOfInput 6]
    let f (t : Token) : Token :=
      { t with literal := .string (List.replicate t.position.offset 98), position := .start }
    (∃ t ∈ ts, t.kind = .endOfInput) ∧ (∀ t ∈ ts, (f t).kind = t.kind) ∧
      (∃ p : Program.Draft, Program.parse? ts = some (p.fill id) ∧
        Program.parse? (ts.map f) = some (p.fill f) ∧
        (p.fill f).statements.flatMap (Stmt.outline 0) = [Outline.plain 0 "Print",
          Outline.labelled 1 "Binary" [], Outline.labelled 2 "Literal" (utf8 "\"b\""),
          Outline.labelled 2 "Literal" (utf8 "\"bbb\"")] ∧
        (p.fill f).faults = [⟨.expectedExpression, f (token .rightParen 5)⟩]) ∧
      ∃ e : LoneExpression.Draft, LoneExpression.parse ts = e.fill id ∧
        LoneExpression.parse (ts.map f) = e.fill f ∧
        (e.fill f).faults = [⟨.expectedExpression, f (token .kwPrint 0)⟩] := by
  intro token ts f
  have hend : ∃ t ∈ ts, t.kind = .endOfInput := by decide
  have hkind : ∀ t ∈ ts, (f t).kind = t.kind := fun _ _ => rfl
  obtain ⟨⟨p, hself, hp⟩, e, heself, he⟩ := kinds_determine_parse hend
  have hprogram : (Program.parse? (ts.map f)).map
      (fun q => (q.statements.flatMap (Stmt.outline 0), q.faults)) = some
        ([Outline.plain 0 "Print", Outline.labelled 1 "Binary" [],
          Outline.labelled 2 "Literal" (utf8 "\"b\""),
          Outline.labelled 2 "Literal" (utf8 "\"bbb\"")],
        [⟨.expectedExpression, f (token .rightParen 5)⟩]) := by decide +kernel
  have hexpression : (LoneExpression.parse (ts.map f)).faults =
      [⟨.expectedExpression, f (token .kwPrint 0)⟩] := by decide +kernel
  rw [hp f hkind] at hprogram
  rw [he f hkind] at hexpression
  cases p with
  | none => cases hprogram
  | some p =>
    obtain ⟨houtline, hfaults⟩ := Prod.mk.inj (Option.some.inj hprogram)
    exact ⟨hend, hkind, ⟨p, hself, hp f hkind, houtline, hfaults⟩, e, heself, he f hkind,
      hexpression⟩

end Lox
