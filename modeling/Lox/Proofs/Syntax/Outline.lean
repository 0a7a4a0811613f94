import Lox.Proofs.Syntax.OutlineLines

/-! What an outline tells of a tree. Where the outlines of two trees agree, the trees do, but for
the places of their tokens, for tokens that are not shown and for how literals are written. -/
namespace Lox

open Outline

/-! The texts of nodes. -/

namespace Token.Scanned
variable {t u : Token}

theorem word (h : t.Scanned) (hk : t.kind = .identifier) :
    t.lexeme ≠ [] ∧ ∀ c ∈ t.lexeme, Piece.isWordByte c = true := by
  obtain ⟨source, ht⟩ := h
  have hlexeme := Scan.token_lexeme ht (by rw [hk]; decide)
  refine ⟨hlexeme.ne_nil, ?_⟩
  rw [hk] at hlexeme
  generalize t.lexeme = w at hlexeme
  cases hlexeme with
  | operator h | keyword h => exact absurd h (by decide)
  | identifier h =>
    cases h with
    | mk hb hw =>
      refine List.forall_mem_cons.2 ⟨?_, hw⟩
      rw [Piece.isWordByte, hb, Bool.true_or]

theorem newline_not_mem_name (h : t.Scanned) (hk : t.kind = .identifier) : newline ∉ t.lexeme := by
  intro hmem
  exact absurd ((h.word hk).2 _ hmem) (by decide)

theorem newline_not_mem_operator (h : t.Scanned) (hk : t.kind ∈ Kind.operators) :
    newline ∉ t.lexeme := by
  have hends : Kind.endOfInput ∉ Kind.operators := by decide
  have hothers : Kind.identifier ∉ Kind.operators ∧ Kind.number ∉ Kind.operators ∧
      Kind.string ∉ Kind.operators := by decide
  have hnames : ∀ k ∈ Kind.operators ++ Kind.reserved, newline ∉ utf8 k.name := by decide
  obtain ⟨source, ht⟩ := h
  have hlexeme := Scan.token_lexeme ht fun hend => hends (hend ▸ hk)
  generalize t.lexeme = w, t.kind = k at hlexeme hk
  cases hlexeme with
  | operator h => exact hnames _ (List.mem_append_left _ h)
  | keyword h => exact hnames _ (List.mem_append_right _ h)
  | identifier => exact absurd hk hothers.1
  | number => exact absurd hk hothers.2.1
  | string => exact absurd hk hothers.2.2

theorem shown_outline (ht : t.Scanned) (hu : u.Scanned) (h : t.lexeme = u.lexeme) :
    Mask.outline.shown t = Mask.outline.shown u := by
  obtain ⟨hkind, hliteral⟩ := ht.eq_of_lexeme hu h
  obtain ⟨kind, lexeme, literal, position⟩ := t
  obtain ⟨kind', lexeme', literal', position'⟩ := u
  cases hkind
  cases hliteral
  cases h
  rfl

end Token.Scanned

theorem Kind.operators_of_isNegation {k : Kind} (h : k.isNegation = true) : k ∈ operators := by
  revert h
  cases k <;> decide

theorem Kind.operators_of_isBinary {k : Kind} (h : k.isBinary = true) : k ∈ operators := by
  revert h
  cases k <;> decide

theorem Kind.operators_of_isCrement {k : Kind} (h : k.isCrement = true) : k ∈ operators := by
  revert h
  cases k <;> decide

namespace Outline

theorem mem_intercalate {between : Bytes} {ws : List Bytes} {b : UInt8}
    (h : b ∈ between.intercalate ws) : b ∈ between ∨ ∃ w ∈ ws, b ∈ w := by
  induction ws with
  | nil => cases h
  | cons w ws ih =>
    cases ws with
    | nil => exact .inr ⟨w, List.mem_cons_self, by simpa [List.intercalate] using h⟩
    | cons v ws =>
      have hcons : between.intercalate (w :: v :: ws) =
        w ++ (between ++ between.intercalate (v :: ws)) := rfl
      rw [hcons, List.mem_append, List.mem_append] at h
      obtain h | h | h := h
      · exact .inr ⟨w, List.mem_cons_self, h⟩
      · exact .inl h
      · obtain h | ⟨u, hu, h⟩ := ih h
        · exact .inl h
        · exact .inr ⟨u, List.mem_cons_of_mem w hu, h⟩

/-- Words with commas between them can be told. -/
theorem intercalate_words_inj {ws ws' : List Bytes}
    (h : ∀ w ∈ ws, w ≠ [] ∧ ∀ c ∈ w, Piece.isWordByte c = true)
    (h' : ∀ w ∈ ws', w ≠ [] ∧ ∀ c ∈ w, Piece.isWordByte c = true)
    (heq : (utf8 ", ").intercalate ws = (utf8 ", ").intercalate ws') : ws = ws' := by
  have hcons (w v : Bytes) (ws : List Bytes) : (utf8 ", ").intercalate (w :: v :: ws) =
      w ++ (utf8 ", " ++ (utf8 ", ").intercalate (v :: ws)) := rfl
  have hlone (w : Bytes) : (utf8 ", ").intercalate [w] = w ++ [] := rfl
  have hcomma {x : Bytes} : ∀ c ∈ (utf8 ", " ++ x).head?, Piece.isWordByte c = false := by
    rintro c ⟨⟩
    decide
  have hend : ∀ c ∈ ([] : Bytes).head?, Piece.isWordByte c = false := by rintro c ⟨⟩
  have hstart (w : Bytes) (ws : List Bytes) (hw : w ≠ []) :
      (utf8 ", ").intercalate (w :: ws) ≠ [] := by
    cases ws with
    | nil => simpa [hlone] using hw
    | cons v ws => simp [hcons, hw]
  induction ws generalizing ws' with
  | nil =>
    cases ws' with
    | nil => rfl
    | cons w' ws' => exact absurd heq.symm (hstart w' ws' (h' w' List.mem_cons_self).1)
  | cons w ws ih =>
    obtain ⟨hw, hws⟩ := List.forall_mem_cons.1 h
    cases ws' with
    | nil => exact absurd heq (hstart w ws hw.1)
    | cons w' ws' =>
      obtain ⟨hw', hws'⟩ := List.forall_mem_cons.1 h'
      cases ws with
      | nil =>
        cases ws' with
        | nil =>
          rw [hlone, hlone] at heq
          rw [(append_inj_of_stop hw.2 hw'.2 hend hend heq).1]
        | cons v' ws' =>
          rw [hlone, hcons] at heq
          exact absurd (append_inj_of_stop hw.2 hw'.2 hend hcomma heq).2 (List.cons_ne_nil _ _).symm
      | cons v ws =>
        cases ws' with
        | nil =>
          rw [hlone, hcons] at heq
          exact absurd (append_inj_of_stop hw.2 hw'.2 hcomma hend heq).2 (List.cons_ne_nil _ _)
        | cons v' ws' =>
          rw [hcons, hcons] at heq
          obtain ⟨hfirst, hlater⟩ := append_inj_of_stop hw.2 hw'.2 hcomma hcomma heq
          rw [hfirst, ih hws hws' (List.append_cancel_left hlater)]

/-- The name and the parameters of a function can be told from its signature. -/
theorem signature_inj {name name' : Token} {params params' : List Token}
    (hname : name.Scanned ∧ name.kind = .identifier)
    (hname' : name'.Scanned ∧ name'.kind = .identifier)
    (hparams : ∀ p ∈ params, p.Scanned ∧ p.kind = .identifier)
    (hparams' : ∀ p ∈ params', p.Scanned ∧ p.kind = .identifier)
    (h : signature name params = signature name' params') :
    Mask.outline.shown name = Mask.outline.shown name' ∧
      params.map Mask.outline.shown = params'.map Mask.outline.shown := by
  have hwords {ts : List Token} (h : ∀ p ∈ ts, p.Scanned ∧ p.kind = .identifier) :
      ∀ w ∈ ts.map Token.lexeme, w ≠ [] ∧ ∀ c ∈ w, Piece.isWordByte c = true := by
    intro w hw
    obtain ⟨t, ht, rfl⟩ := List.mem_map.1 hw
    exact (h t ht).1.word (h t ht).2
  have hopen {x : Bytes} : ∀ c ∈ (utf8 "(" ++ x).head?, Piece.isWordByte c = false := by
    rintro c ⟨⟩
    decide
  unfold signature at h
  rw [List.append_assoc, List.append_assoc, List.append_assoc, List.append_assoc] at h
  obtain ⟨hfirst, hlater⟩ :=
    append_inj_of_stop (hname.1.word hname.2).2 (hname'.1.word hname'.2).2 hopen hopen h
  have hlexemes := intercalate_words_inj (hwords hparams) (hwords hparams')
    (List.append_cancel_right (List.append_cancel_left hlater))
  refine ⟨hname.1.shown_outline hname'.1 hfirst, map_eq_of_determines ?_ hlexemes⟩
  exact fun p hp p' hp' => (hparams p hp).1.shown_outline (hparams' p' hp').1

theorem newline_not_mem_signature {name : Token} {params : List Token}
    (hname : name.Scanned ∧ name.kind = .identifier)
    (hparams : ∀ p ∈ params, p.Scanned ∧ p.kind = .identifier) :
    newline ∉ signature name params := by
  have hlist : newline ∉ (utf8 ", ").intercalate (params.map Token.lexeme) := by
    intro h
    obtain h | ⟨w, hw, h⟩ := mem_intercalate h
    · exact absurd h (by decide)
    · obtain ⟨p, hp, rfl⟩ := List.mem_map.1 hw
      exact (hparams p hp).1.newline_not_mem_name (hparams p hp).2 h
  refine List.not_mem_append (List.not_mem_append (List.not_mem_append ?_ (by decide)) hlist)
    (by decide)
  exact hname.1.newline_not_mem_name hname.2

end Outline

/-! Expressions. -/

theorem outlineArgs_eq (d : Nat) (es : List Expr) :
    outlineArgs d es = es.flatMap (Expr.outline d) := by
  induction es with
  | nil => rfl
  | cons e es ih => rw [outlineArgs, List.flatMap_cons, ih]

theorem outlineOption_eq (d : Nat) (o : Option Expr) :
    outlineOption d o = o.toList.flatMap (Expr.outline d) := by
  cases o with
  | none => rfl
  | some e => exact (List.append_nil _).symm

/-- The first line of an outline names the node. -/
theorem Expr.outline_headed (d : Nat) (e : Expr) : Headed d e.heading (e.outline d) := by
  have hclosed : ascii ']' ∉ utf8 e.heading := by cases e <;> rw [heading] <;> decide
  cases e with
  | literal | unary | binary | crement | «variable» | assign => exact headed_labelled hclosed
  | grouping | logicalAnd | logicalOr | conditional | comma | call => exact headed_plain hclosed

/-- Every line of the outline is proper. -/
theorem Expr.outline_proper {e : Expr} (he : e.MadeOf Token.Scanned) (d : Nat) :
    ∀ l ∈ e.outline d, l.Proper := by
  induction e using Expr.of_parts generalizing d with
  | h e ih =>
    have hpart {a : Expr} (ha : a ∈ e.parts) : ∀ l ∈ a.outline (d + 1), l.Proper :=
      ih a ha (he.part ha) (d + 1)
    have hhere := he.here
    cases e with
    | literal v =>
      exact List.forall_mem_singleton.2 (proper_labelled (by decide) v.newline_not_mem_text)
    | grouping a => exact List.forall_mem_cons.2 ⟨proper_plain (by decide), hpart (.head _)⟩
    | unary op a =>
      have hop := hhere.1.newline_not_mem_operator (Kind.operators_of_isNegation hhere.2)
      exact List.forall_mem_cons.2 ⟨proper_labelled (by decide) hop, hpart (.head _)⟩
    | binary op a b =>
      have hop := hhere.1.newline_not_mem_operator (Kind.operators_of_isBinary hhere.2)
      refine List.forall_mem_cons.2 ⟨proper_labelled (by decide) hop, ?_⟩
      exact List.forall_mem_append.2 ⟨hpart (.head _), hpart (.tail _ (.head _))⟩
    | logicalAnd op a b | logicalOr op a b | comma a b =>
      refine List.forall_mem_cons.2 ⟨proper_plain (by decide), ?_⟩
      exact List.forall_mem_append.2 ⟨hpart (.head _), hpart (.tail _ (.head _))⟩
    | conditional question c a b =>
      refine List.forall_mem_cons.2 ⟨proper_plain (by decide), List.forall_mem_append.2 ⟨?_, ?_⟩⟩
      · exact List.forall_mem_append.2 ⟨hpart (.head _), hpart (.tail _ (.head _))⟩
      · exact hpart (.tail _ (.tail _ (.head _)))
    | crement op a =>
      have hop := hhere.1.newline_not_mem_operator (Kind.operators_of_isCrement hhere.2)
      exact List.forall_mem_cons.2 ⟨proper_labelled (by decide) hop, hpart (.head _)⟩
    | «variable» name =>
      have hname := hhere.1.newline_not_mem_name hhere.2
      exact List.forall_mem_singleton.2 (proper_labelled (by decide) hname)
    | assign name a =>
      have hname := hhere.1.newline_not_mem_name hhere.2
      exact List.forall_mem_cons.2 ⟨proper_labelled (by decide) hname, hpart (.head _)⟩
    | call callee paren args =>
      refine List.forall_mem_cons.2 ⟨proper_plain (by decide), ?_⟩
      refine List.forall_mem_append.2 ⟨hpart (.head _), ?_⟩
      rw [outlineArgs_eq]
      exact List.forall_mem_flatMap.2 fun a ha => hpart (.tail _ ha)

/-- The outlines of expressions tell them apart as far as their mask does. -/
theorem Expr.settles {e e' : Expr} (he : e.MadeOf Token.Scanned) (he' : e'.MadeOf Token.Scanned)
    (d : Nat) :
    Settles (d + 1) (e.outline d) (e'.outline d) (e.masked .outline = e'.masked .outline) := by
  induction e using Expr.of_parts generalizing e' d with
  | h e ih =>
    have hpart {a a' : Expr} (ha : a ∈ e.parts) (ha' : a' ∈ e'.parts) :
        Settles (d + 2) (a.outline (d + 1)) (a'.outline (d + 1))
          (a.masked .outline = a'.masked .outline) :=
      ih a ha (he.part ha) (he'.part ha') (d + 1)
    have habove (a : Expr) : Above (d + 2) (a.outline (d + 1)) := (a.outline_headed (d + 1)).above
    have hone {a a' : Expr} (ha : e.parts = [a]) (ha' : e'.parts = [a']) :
        Settles (d + 1) (a.outline (d + 1)) (a'.outline (d + 1))
          (a.masked .outline = a'.masked .outline) :=
      (hpart (by simp [ha]) (by simp [ha'])).last
    have htwo {a b a' b' : Expr} (hab : e.parts = [a, b]) (hab' : e'.parts = [a', b']) :
        Settles (d + 1) (a.outline (d + 1) ++ b.outline (d + 1))
          (a'.outline (d + 1) ++ b'.outline (d + 1))
          (a.masked .outline = a'.masked .outline ∧ b.masked .outline = b'.masked .outline) :=
      (hpart (by simp [hab]) (by simp [hab'])).pair (hpart (by simp [hab]) (by simp [hab']))
        (habove b) (habove b')
    have hhere := he.here
    have hhere' := he'.here
    refine (e.outline_headed d).settles (e'.outline_headed d) fun hname => ?_
    cases e with
    | literal v =>
      cases e' with
      | literal w =>
        refine (settles_nil.cons labelled_inj).imp ?_
        rintro ⟨htext, -⟩
        exact congrArg (fun text => Expr.literal (.string text)) htext
      | _ => simp [heading] at hname
    | grouping a =>
      cases e' with
      | grouping a' =>
        refine ((hone rfl rfl).cons fun _ => trivial).imp ?_
        rintro ⟨-, ha⟩
        rw [masked, masked, ha]
      | _ => simp [heading] at hname
    | unary op a =>
      cases e' with
      | unary op' a' =>
        refine ((hone rfl rfl).cons labelled_inj).imp ?_
        rintro ⟨hop, ha⟩
        rw [masked, masked, hhere.1.shown_outline hhere'.1 hop, ha]
      | _ => simp [heading] at hname
    | binary op a b =>
      cases e' with
      | binary op' a' b' =>
        refine ((htwo rfl rfl).cons labelled_inj).imp ?_
        rintro ⟨hop, ha, hb⟩
        rw [masked, masked, hhere.1.shown_outline hhere'.1 hop, ha, hb]
      | _ => simp [heading] at hname
    | logicalAnd op a b =>
      cases e' with
      | logicalAnd op' a' b' =>
        refine ((htwo rfl rfl).cons fun _ => trivial).imp ?_
        rintro ⟨-, ha, hb⟩
        rw [masked, masked, ha, hb]
      | _ => simp [heading] at hname
    | logicalOr op a b =>
      cases e' with
      | logicalOr op' a' b' =>
        refine ((htwo rfl rfl).cons fun _ => trivial).imp ?_
        rintro ⟨-, ha, hb⟩
        rw [masked, masked, ha, hb]
      | _ => simp [heading] at hname
    | conditional question c a b =>
      cases e' with
      | conditional question' c' a' b' =>
        rw [outline, outline, List.append_assoc, List.append_assoc]
        have hparts := (hpart (.tail _ (.head _)) (.tail _ (.head _))).pair
          (hpart (.tail _ (.tail _ (.head _))) (.tail _ (.tail _ (.head _)))) (habove b) (habove b')
        have hall := (hpart (.head _) (.head _)).append hparts ((habove a).append (habove b))
          ((habove a').append (habove b'))
        refine (hall.cons fun _ => trivial).imp ?_
        rintro ⟨-, hc, ha, hb⟩
        rw [masked, masked, hc, ha, hb]
      | _ => simp [heading] at hname
    | comma a b =>
      cases e' with
      | comma a' b' =>
        refine ((htwo rfl rfl).cons fun _ => trivial).imp ?_
        rintro ⟨-, ha, hb⟩
        rw [masked, masked, ha, hb]
      | _ => simp [heading] at hname
    | crement op a =>
      cases e' with
      | crement op' a' =>
        refine ((hone rfl rfl).cons labelled_inj).imp ?_
        rintro ⟨hop, ha⟩
        rw [masked, masked, hhere.1.shown_outline hhere'.1 hop, ha]
      | _ => simp [heading] at hname
    | «variable» name =>
      cases e' with
      | «variable» name' =>
        refine (settles_nil.cons labelled_inj).imp ?_
        rintro ⟨hlexeme, -⟩
        rw [masked, masked, hhere.1.shown_outline hhere'.1 hlexeme]
      | _ => simp [heading] at hname
    | assign name a =>
      cases e' with
      | assign name' a' =>
        refine ((hone rfl rfl).cons labelled_inj).imp ?_
        rintro ⟨hlexeme, ha⟩
        rw [masked, masked, hhere.1.shown_outline hhere'.1 hlexeme, ha]
      | _ => simp [heading] at hname
    | call callee paren args =>
      cases e' with
      | call callee' paren' args' =>
        rw [outline, outline, outlineArgs_eq, outlineArgs_eq]
        have hargs := settles_flatMap (outline_headed (d + 1)) fun a ha a' ha' =>
          hpart (List.mem_cons_of_mem callee ha) (List.mem_cons_of_mem callee' ha')
        have hbelow (es : List Expr) := above_flatMap (outline_headed (d + 1)) es
        have hparts := (hpart (.head _) (.head _)).append hargs (hbelow args) (hbelow args')
        refine (hparts.cons fun _ => trivial).imp ?_
        rintro ⟨-, hcallee, hargs⟩
        rw [masked, masked, hcallee, maskedArgs_eq_map, maskedArgs_eq_map, hargs]
      | _ => simp [heading] at hname

/-! Statements. -/

theorem outlineBody_eq (d : Nat) (ss : List Stmt) :
    outlineBody d ss = ss.flatMap (Stmt.outline d) := by
  induction ss with
  | nil => rfl
  | cons s ss ih => rw [outlineBody, List.flatMap_cons, ih]

/-- What is done otherwise, under a line of its own. -/
def Outline.alternative (d : Nat) (s : Stmt) : List OutlineLine :=
  plain d "Else" :: s.outline (d + 1)

/-- What a loop does after each round, under a line of its own. -/
def Outline.increment (d : Nat) (e : Expr) : List OutlineLine :=
  plain d "Increment" :: e.outline (d + 1)

theorem Outline.alternative_headed (d : Nat) (s : Stmt) : Headed d "Else" (alternative d s) :=
  headed_plain (by decide)

theorem Outline.increment_headed (d : Nat) (e : Expr) : Headed d "Increment" (increment d e) :=
  headed_plain (by decide)

theorem outlineElse_eq (d : Nat) (o : Option Stmt) :
    outlineElse d o = o.toList.flatMap (alternative d) := by
  cases o with
  | none => rfl
  | some s => exact (List.append_nil _).symm

theorem Stmt.outline_loop (d : Nat) (c : Expr) (body : Stmt) (o : Option Expr) :
    (Stmt.loop c body o).outline d = plain d "While" :: (c.outline (d + 1) ++
      (body.outline (d + 1) ++ o.toList.flatMap (increment (d + 1)))) := by
  cases o with
  | none => simp [outline]
  | some e => simp [outline, increment]

/-- The first line of an outline names the node. -/
theorem Stmt.outline_headed (d : Nat) (s : Stmt) : Headed d s.heading (s.outline d) := by
  have hclosed : ascii ']' ∉ utf8 s.heading := by cases s <;> rw [heading] <;> decide
  cases s with
  | declare | function => exact headed_labelled hclosed
  | empty | expression | print | block | branch | loop | breakLoop | continueLoop | returnValue =>
    exact headed_plain hclosed

/-- Every line of the outline is proper. -/
theorem Stmt.outline_proper {s : Stmt} (hs : s.MadeOf Token.Scanned) (d : Nat) :
    ∀ l ∈ s.outline d, l.Proper := by
  induction s using Stmt.of_parts generalizing d with
  | h s ih =>
    have hpart {t : Stmt} (ht : t ∈ s.parts) (d : Nat) : ∀ l ∈ t.outline d, l.Proper :=
      ih t ht (hs.part ht) d
    have hexpression {e : Expr} (he : e ∈ s.expressions) (d : Nat) : ∀ l ∈ e.outline d, l.Proper :=
      Expr.outline_proper (hs.expression he) d
    have hhere := hs.here
    cases s with
    | empty | breakLoop | continueLoop =>
      exact List.forall_mem_singleton.2 (proper_plain (by decide))
    | expression e | print keyword e =>
      exact List.forall_mem_cons.2 ⟨proper_plain (by decide), hexpression (.head _) (d + 1)⟩
    | declare name init =>
      have hname := hhere.1.newline_not_mem_name hhere.2
      refine List.forall_mem_cons.2 ⟨proper_labelled (by decide) hname, ?_⟩
      rw [outlineOption_eq]
      exact List.forall_mem_flatMap.2 fun e he => hexpression he (d + 1)
    | block body =>
      refine List.forall_mem_cons.2 ⟨proper_plain (by decide), ?_⟩
      rw [outlineBody_eq]
      exact List.forall_mem_flatMap.2 fun t ht => hpart ht (d + 1)
    | branch c yes no =>
      refine List.forall_mem_cons.2 ⟨proper_plain (by decide), List.forall_mem_append.2 ⟨?_, ?_⟩⟩
      · exact List.forall_mem_append.2 ⟨hexpression (.head _) (d + 1), hpart (.head _) (d + 1)⟩
      · rw [outlineElse_eq]
        refine List.forall_mem_flatMap.2 fun t ht => List.forall_mem_cons.2 ⟨?_, ?_⟩
        · exact proper_plain (by decide)
        · exact hpart (.tail _ ht) (d + 2)
    | loop c body increment =>
      rw [outline_loop]
      refine List.forall_mem_cons.2 ⟨proper_plain (by decide), List.forall_mem_append.2 ⟨?_, ?_⟩⟩
      · exact hexpression (.head _) (d + 1)
      · refine List.forall_mem_append.2 ⟨hpart (.head _) (d + 1), ?_⟩
        refine List.forall_mem_flatMap.2 fun e he => List.forall_mem_cons.2 ⟨?_, ?_⟩
        · exact proper_plain (by decide)
        · exact hexpression (.tail _ he) (d + 2)
    | function name params body =>
      have htext := newline_not_mem_signature hhere.1 hhere.2
      refine List.forall_mem_cons.2 ⟨proper_labelled (by decide) htext, ?_⟩
      rw [outlineBody_eq]
      exact List.forall_mem_flatMap.2 fun t ht => hpart ht (d + 1)
    | returnValue keyword value =>
      refine List.forall_mem_cons.2 ⟨proper_plain (by decide), ?_⟩
      rw [outlineOption_eq]
      exact List.forall_mem_flatMap.2 fun e he => hexpression he (d + 1)

/-- The outlines of statements tell them apart as far as their mask does. -/
theorem Stmt.settles {s s' : Stmt} (hs : s.MadeOf Token.Scanned) (hs' : s'.MadeOf Token.Scanned)
    (d : Nat) :
    Settles (d + 1) (s.outline d) (s'.outline d) (s.masked .outline = s'.masked .outline) := by
  induction s using Stmt.of_parts generalizing s' d with
  | h s ih =>
    have hpart {t t' : Stmt} (ht : t ∈ s.parts) (ht' : t' ∈ s'.parts) (d : Nat) :
        Settles (d + 1) (t.outline d) (t'.outline d) (t.masked .outline = t'.masked .outline) :=
      ih t ht (hs.part ht) (hs'.part ht') d
    have hexpression {e e' : Expr} (he : e ∈ s.expressions) (he' : e' ∈ s'.expressions) (d : Nat) :
        Settles (d + 1) (e.outline d) (e'.outline d) (e.masked .outline = e'.masked .outline) :=
      Expr.settles (hs.expression he) (hs'.expression he') d
    have hbody (ts ts' : List Stmt) (hts : s.parts = ts) (hts' : s'.parts = ts') :
        Settles (d + 1) (ts.flatMap (outline (d + 1))) (ts'.flatMap (outline (d + 1)))
          (ts.map (masked .outline) = ts'.map (masked .outline)) :=
      settles_flatMap (outline_headed (d + 1)) fun t ht t' ht' =>
        hpart (hts ▸ ht) (hts' ▸ ht') (d + 1)
    have hoption {o o' : Option Expr} (ho : s.expressions = o.toList)
        (ho' : s'.expressions = o'.toList) :
        Settles (d + 1) (o.toList.flatMap (Expr.outline (d + 1)))
          (o'.toList.flatMap (Expr.outline (d + 1)))
          (o.map (Expr.masked .outline) = o'.map (Expr.masked .outline)) :=
      settles_option (Expr.outline_headed (d + 1)) fun e he e' he' =>
        hexpression (ho ▸ he) (ho' ▸ he') (d + 1)
    have hhere := hs.here
    have hhere' := hs'.here
    refine (s.outline_headed d).settles (s'.outline_headed d) fun hname => ?_
    cases s with
    | empty =>
      cases s' with
      | empty => exact (settles_nil.cons fun _ => trivial).imp fun _ => rfl
      | _ => simp [heading] at hname
    | expression e =>
      cases s' with
      | expression e' =>
        refine ((hexpression (.head _) (.head _) (d + 1)).last.cons fun _ => trivial).imp ?_
        rintro ⟨-, he⟩
        rw [masked, masked, he]
      | _ => simp [heading] at hname
    | print keyword e =>
      cases s' with
      | print keyword' e' =>
        refine ((hexpression (.head _) (.head _) (d + 1)).last.cons fun _ => trivial).imp ?_
        rintro ⟨-, he⟩
        rw [masked, masked, he]
      | _ => simp [heading] at hname
    | declare name init =>
      cases s' with
      | declare name' init' =>
        rw [outline, outline, outlineOption_eq, outlineOption_eq]
        refine ((hoption rfl rfl).cons labelled_inj).imp ?_
        rintro ⟨hlexeme, hinit⟩
        rw [masked, masked, hhere.1.shown_outline hhere'.1 hlexeme, hinit]
      | _ => simp [heading] at hname
    | block body =>
      cases s' with
      | block body' =>
        rw [outline, outline, outlineBody_eq, outlineBody_eq]
        refine ((hbody body body' rfl rfl).cons fun _ => trivial).imp ?_
        rintro ⟨-, hbody⟩
        rw [masked, masked, maskedBody_eq_map, maskedBody_eq_map, hbody]
      | _ => simp [heading] at hname
    | branch c yes no =>
      cases s' with
      | branch c' yes' no' =>
        rw [outline, outline, outlineElse_eq, outlineElse_eq, List.append_assoc, List.append_assoc]
        have hno := settles_option (alternative_headed (d + 1)) fun t (ht : t ∈ no.toList) t'
            (ht' : t' ∈ no'.toList) =>
          ((hpart (List.mem_cons_of_mem yes ht) (List.mem_cons_of_mem yes' ht') (d + 2)).last.cons
            fun _ => trivial).imp And.right
        have hbelow (o : Option Stmt) := above_flatMap (alternative_headed (d + 1)) o.toList
        have hyes := (hpart (.head _) (.head _) (d + 1)).append hno (hbelow no) (hbelow no')
        have hall := (hexpression (.head _) (.head _) (d + 1)).append hyes
          ((yes.outline_headed (d + 1)).above.append (hbelow no))
          ((yes'.outline_headed (d + 1)).above.append (hbelow no'))
        refine (hall.cons fun _ => trivial).imp ?_
        rintro ⟨-, hc, hyes, hno⟩
        rw [masked, masked, hc, hyes, maskedElse_eq_map, maskedElse_eq_map, hno]
      | _ => simp [heading] at hname
    | loop c body increment =>
      cases s' with
      | loop c' body' increment' =>
        rw [outline_loop, outline_loop]
        have hincrement := settles_option (increment_headed (d + 1)) fun e
            (he : e ∈ increment.toList) e' (he' : e' ∈ increment'.toList) =>
          ((hexpression (List.mem_cons_of_mem c he) (List.mem_cons_of_mem c' he') (d + 2)).last.cons
            fun _ => trivial).imp And.right
        have hbelow (o : Option Expr) := above_flatMap (increment_headed (d + 1)) o.toList
        have hbody := (hpart (.head _) (.head _) (d + 1)).append hincrement (hbelow increment)
          (hbelow increment')
        have hall := (hexpression (.head _) (.head _) (d + 1)).append hbody
          ((body.outline_headed (d + 1)).above.append (hbelow increment))
          ((body'.outline_headed (d + 1)).above.append (hbelow increment'))
        refine (hall.cons fun _ => trivial).imp ?_
        rintro ⟨-, hc, hbody, hincrement⟩
        rw [masked, masked, hc, hbody, hincrement]
      | _ => simp [heading] at hname
    | breakLoop keyword =>
      cases s' with
      | breakLoop keyword' => exact (settles_nil.cons fun _ => trivial).imp fun _ => rfl
      | _ => simp [heading] at hname
    | continueLoop keyword =>
      cases s' with
      | continueLoop keyword' => exact (settles_nil.cons fun _ => trivial).imp fun _ => rfl
      | _ => simp [heading] at hname
    | function name params body =>
      cases s' with
      | function name' params' body' =>
        rw [outline, outline, outlineBody_eq, outlineBody_eq]
        refine ((hbody body body' rfl rfl).cons labelled_inj).imp ?_
        rintro ⟨htext, hbody⟩
        obtain ⟨hname, hparams⟩ := signature_inj hhere.1 hhere'.1 hhere.2 hhere'.2 htext
        rw [masked, masked, hname, hparams, maskedBody_eq_map, maskedBody_eq_map, hbody]
      | _ => simp [heading] at hname
    | returnValue keyword value =>
      cases s' with
      | returnValue keyword' value' =>
        rw [outline, outline, outlineOption_eq, outlineOption_eq]
        refine ((hoption rfl rfl).cons fun _ => trivial).imp ?_
        rintro ⟨-, hvalue⟩
        rw [masked, masked, hvalue]
        rfl
      | _ => simp [heading] at hname

namespace Outline

/-- The text of an outline tells statements apart as far as their mask does. -/
theorem text_inj {ss ts : List Stmt} (hss : ∀ s ∈ ss, s.MadeOf Token.Scanned)
    (hts : ∀ s ∈ ts, s.MadeOf Token.Scanned) (h : Outline.text ss = Outline.text ts) :
    ss.map (Stmt.masked .outline) = ts.map (Stmt.masked .outline) := by
  have hproper {ss : List Stmt} (hss : ∀ s ∈ ss, s.MadeOf Token.Scanned) :
      ∀ l ∈ ss.flatMap (Stmt.outline 0), l.Proper :=
    List.forall_mem_flatMap.2 fun s hs => Stmt.outline_proper (hss s hs) 0
  have hlines := OutlineLine.text_flatMap_inj (hproper hss) (hproper hts) h
  have hsettles : Settles 0 (ss.flatMap (Stmt.outline 0)) (ts.flatMap (Stmt.outline 0))
      (ss.map (Stmt.masked .outline) = ts.map (Stmt.masked .outline)) :=
    settles_flatMap (Stmt.outline_headed 0) fun s hs t ht => Stmt.settles (hss s hs) (hts t ht) 0
  have hnone : Above 0 [] := by rintro l ⟨⟩
  exact (hsettles [] [] hnone hnone (by rw [hlines])).1

end Outline
end Lox
