import Lox.Proofs.Syntax.Formation
import Lox.Proofs.Token.Rescanning

/-! Trees of which a part of the tokens is forgotten. What is shown of a tree does not tell its
tokens apart in every respect; a mask leaves of a tree what can be told from what is shown. -/
namespace Lox

/-- What is left of a literal, of an operator or a name, and of the keyword of a jump. Of other
tokens nothing is left. -/
structure Mask where
  literal : Literal → Literal
  shown : Token → Token
  jump : Token → Token

mutual

def Expr.masked (m : Mask) : Expr → Expr
  | .literal v => .literal (m.literal v)
  | .grouping e => .grouping (e.masked m)
  | .unary op e => .unary (m.shown op) (e.masked m)
  | .binary op a b => .binary (m.shown op) (a.masked m) (b.masked m)
  | .logicalAnd _ a b => .logicalAnd .absent (a.masked m) (b.masked m)
  | .logicalOr _ a b => .logicalOr .absent (a.masked m) (b.masked m)
  | .conditional _ c a b => .conditional .absent (c.masked m) (a.masked m) (b.masked m)
  | .comma a b => .comma (a.masked m) (b.masked m)
  | .crement op e => .crement (m.shown op) (e.masked m)
  | .variable name => .variable (m.shown name)
  | .assign name e => .assign (m.shown name) (e.masked m)
  | .call callee _ args => .call (callee.masked m) .absent (maskedArgs m args)

def maskedArgs (m : Mask) : List Expr → List Expr
  | [] => []
  | e :: es => e.masked m :: maskedArgs m es

end

mutual

def Stmt.masked (m : Mask) : Stmt → Stmt
  | .empty => .empty
  | .expression e => .expression (e.masked m)
  | .print _ e => .print .absent (e.masked m)
  | .declare name init => .declare (m.shown name) (init.map (Expr.masked m))
  | .block body => .block (maskedBody m body)
  | .branch c yes no => .branch (c.masked m) (yes.masked m) (maskedElse m no)
  | .loop c body increment =>
    .loop (c.masked m) (body.masked m) (increment.map (Expr.masked m))
  | .breakLoop keyword => .breakLoop (m.jump keyword)
  | .continueLoop keyword => .continueLoop (m.jump keyword)
  | .function name params body =>
    .function (m.shown name) (params.map m.shown) (maskedBody m body)
  | .returnValue keyword value => .returnValue (m.jump keyword) (value.map (Expr.masked m))

def maskedElse (m : Mask) : Option Stmt → Option Stmt
  | none => none
  | some s => some (s.masked m)

def maskedBody (m : Mask) : List Stmt → List Stmt
  | [] => []
  | s :: ss => s.masked m :: maskedBody m ss

end

theorem maskedArgs_eq_map (m : Mask) (es : List Expr) :
    maskedArgs m es = es.map (Expr.masked m) := by
  induction es with
  | nil => rfl
  | cons e es ih => rw [maskedArgs, List.map_cons, ih]

theorem maskedElse_eq_map (m : Mask) (o : Option Stmt) :
    maskedElse m o = o.map (Stmt.masked m) := by
  cases o <;> rfl

theorem maskedBody_eq_map (m : Mask) (ss : List Stmt) :
    maskedBody m ss = ss.map (Stmt.masked m) := by
  induction ss with
  | nil => rfl
  | cons s ss ih => rw [maskedBody, List.map_cons, ih]

/-- What an outline tells: the texts of literals, operators and names. -/
def Mask.outline : Mask where
  literal v := .string v.text
  shown t := { t with position := ⟨0, 0, 0⟩ }
  jump _ := .absent

/-- What a JSON value tells: all but the offsets. -/
def Mask.json : Mask where
  literal v := v
  shown t := { t with position := { t.position with offset := 0 } }
  jump t := { t with position := { t.position with offset := 0 } }

/-- The name that a node is shown with. -/
def Expr.heading : Expr → String
  | .literal _ => "Literal"
  | .grouping _ => "Grouping"
  | .unary _ _ => "Unary"
  | .binary _ _ _ => "Binary"
  | .logicalAnd _ _ _ => "LogicalAnd"
  | .logicalOr _ _ _ => "LogicalOr"
  | .conditional _ _ _ _ => "Ternary"
  | .comma _ _ => "Comma"
  | .crement _ _ => "Crement"
  | .variable _ => "Variable"
  | .assign _ _ => "Assign"
  | .call _ _ _ => "Call"

@[inherit_doc Expr.heading]
def Stmt.heading : Stmt → String
  | .empty => "Empty"
  | .expression _ => "Expression"
  | .print _ _ => "Print"
  | .declare _ _ => "Var"
  | .block _ => "Block"
  | .branch _ _ _ => "If"
  | .loop _ _ _ => "While"
  | .breakLoop _ => "Break"
  | .continueLoop _ => "Continue"
  | .function _ _ _ => "Function"
  | .returnValue _ _ => "Return"

/-- Lists that agree in what determines `f` agree in `f`. -/
theorem map_eq_of_determines {α β γ : Type} {k : α → β} {f : α → γ} {xs ys : List α}
    (h : ∀ x ∈ xs, ∀ y ∈ ys, k x = k y → f x = f y) (hk : xs.map k = ys.map k) :
    xs.map f = ys.map f := by
  induction xs generalizing ys with
  | nil =>
    rw [List.map_nil, List.nil_eq, List.map_eq_nil_iff] at hk
    rw [hk]
  | cons x xs ih =>
    cases ys with
    | nil => cases hk
    | cons y ys =>
      obtain ⟨hx, hxs⟩ := List.cons.inj hk
      rw [List.map_cons, List.map_cons, h x List.mem_cons_self y List.mem_cons_self hx,
        ih (fun x hx y hy => h x (List.mem_cons_of_mem _ hx) y (List.mem_cons_of_mem _ hy)) hxs]

theorem option_map_eq_of_determines {α β γ : Type} {k : α → β} {f : α → γ} {o o' : Option α}
    (h : ∀ x ∈ o.toList, ∀ y ∈ o'.toList, k x = k y → f x = f y) (hk : o.map k = o'.map k) :
    o.map f = o'.map f := by
  cases o with
  | none =>
    rw [Option.map_none, eq_comm, Option.map_eq_none_iff] at hk
    rw [hk]
  | some x =>
    cases o' with
    | none => cases hk
    | some y => exact congrArg some (h x (.head _) y (.head _) (Option.some.inj hk))

/-! Tokens by their lexemes. -/

/-- The token is one of some source. -/
def Token.Scanned (t : Token) : Prop := ∃ source, t ∈ (Scan.ofSource source).tokens

/-- A token is found again where its lexeme stands alone. -/
theorem Scan.token_again {source : Bytes} {t : Token} (h : t ∈ (ofSource source).tokens)
    (hk : t.kind ≠ .endOfInput) :
    ∃ b w, t.lexeme = b :: w ∧ (Piece.head b w).content = .token t.kind t.literal := by
  have hbare := List.mem_map_of_mem (f := Token.bare) h
  rw [bare_tokens, List.mem_append, List.mem_singleton] at hbare
  obtain hbare | hend := hbare
  · obtain ⟨p, hp, htoken⟩ := List.mem_filterMap.1 hbare
    obtain ⟨b, w, htext, hhead⟩ := pieces_stand _ _ p hp (by rw [htoken]; rfl)
    have hagain := hhead [] (by simp [Piece.Spaced])
    unfold bare? at htoken
    split at htoken
    · next kind literal hcontent =>
      simp only [Token.bare, Option.some.injEq, Prod.mk.injEq] at htoken
      obtain ⟨hkind, hlexeme, hliteral⟩ := htoken
      refine ⟨b, w, hlexeme.symm.trans htext, ?_⟩
      rw [List.append_nil] at hagain
      rw [hagain, ← hkind, ← hliteral]
      exact hcontent
    · cases htoken
    · cases htoken
  · exact absurd (congrArg Prod.fst hend) hk

namespace Token.Scanned
variable {t u : Token}

theorem lexeme_of_end (h : t.Scanned) (hk : t.kind = .endOfInput) :
    t.lexeme = [] ∧ t.literal = .nil := by
  obtain ⟨source, ht⟩ := h
  rw [Scan.tokens_eq, List.mem_append, List.mem_singleton] at ht
  obtain ht | rfl := ht
  · exact absurd hk (Scan.segments_not_end source t ht)
  · exact ⟨rfl, rfl⟩

/-- The lexeme of a token tells its kind and what it stands for. -/
theorem eq_of_lexeme (ht : t.Scanned) (hu : u.Scanned) (h : t.lexeme = u.lexeme) :
    t.kind = u.kind ∧ t.literal = u.literal := by
  have hne {x : Token} (hx : x.Scanned) (hk : x.kind ≠ .endOfInput) : x.lexeme ≠ [] := by
    obtain ⟨source, hx⟩ := hx
    exact (Scan.token_lexeme hx hk).ne_nil
  by_cases hkt : t.kind = .endOfInput
  · obtain ⟨hlexeme, hliteral⟩ := ht.lexeme_of_end hkt
    have hku : u.kind = .endOfInput := Decidable.byContradiction fun hk => hne hu hk (h ▸ hlexeme)
    exact ⟨hkt.trans hku.symm, hliteral.trans (hu.lexeme_of_end hku).2.symm⟩
  · have hku : u.kind ≠ .endOfInput := fun hk =>
      hne ht hkt (h.trans (hu.lexeme_of_end hk).1)
    obtain ⟨_, ht⟩ := ht
    obtain ⟨_, hu⟩ := hu
    obtain ⟨b, w, htext, hcontent⟩ := Scan.token_again ht hkt
    obtain ⟨b', w', htext', hcontent'⟩ := Scan.token_again hu hku
    cases htext.symm.trans (h.trans htext')
    exact Piece.Content.token.inj (hcontent.symm.trans hcontent')

end Token.Scanned
end Lox
