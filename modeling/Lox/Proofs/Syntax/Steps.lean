import Lox.Syntax.Statement
import Lox.Proofs.Syntax.Grammar

/-! Equations for the elementary steps of a parse. Later proofs do not open the steps themselves. -/
namespace Lox

namespace Parser

/-- The parse after the given tokens have been passed. -/
def pass (p : Parser) (ts : List Token) : Parser :=
  { p with rest := p.rest.drop ts.length, consumed := p.consumed + ts.length }

/-- The parse at another nesting. -/
def atDepth (p : Parser) (d : Nat) : Parser := { p with depth := d }

theorem pass_pass (p : Parser) (ts us : List Token) : (p.pass ts).pass us = p.pass (ts ++ us) := by
  simp only [pass, List.drop_drop, List.length_append, Nat.add_assoc]

theorem pass_rest {p : Parser} {ts us : List Token} (h : p.rest = ts ++ us) :
    (p.pass ts).rest = us := by
  simp [pass, h]

theorem pass_one {p : Parser} {t : Token} {us : List Token} (h : p.rest = t :: us) :
    (p.pass [t]).rest = us := pass_rest h

@[simp] theorem pass_depth (p : Parser) (ts : List Token) : (p.pass ts).depth = p.depth := rfl
@[simp] theorem pass_faults (p : Parser) (ts : List Token) : (p.pass ts).faults = p.faults := rfl
@[simp] theorem atDepth_rest (p : Parser) (d : Nat) : (p.atDepth d).rest = p.rest := rfl
@[simp] theorem atDepth_depth (p : Parser) (d : Nat) : (p.atDepth d).depth = d := rfl

theorem current_cons {p : Parser} {t : Token} {us : List Token} (h : p.rest = t :: us) :
    p.current = t := by
  simp [current, h]

theorem rest_of_current {p : Parser} (h : p.current.kind ≠ .endOfInput) :
    p.rest = p.current :: p.rest.tail := by
  unfold current at *
  cases hr : p.rest with
  | nil => simp [hr, Token.absent] at h
  | cons t us => rfl

theorem advance_eq {p : Parser} (h : p.current.kind ≠ .endOfInput) :
    p.advance = p.pass [p.current] := by
  obtain ⟨t, us, hr⟩ : ∃ t us, p.rest = t :: us := ⟨_, _, rest_of_current h⟩
  rw [current_cons hr] at h ⊢
  simp only [advance, hr, if_neg h, pass, List.length_cons, List.length_nil, List.drop_succ_cons,
    List.drop_zero, Nat.zero_add]

theorem rest_eq_cons {p : Parser} (h : p.current.kind ≠ .endOfInput) :
    p.rest = p.current :: (p.pass [p.current]).rest := by
  have hr := rest_of_current h
  rw [pass_one hr]
  exact hr

end Parser

/-- The kind of the first of the tokens, which at the end is that of the end. -/
def nextKind (ts : List Token) : Kind := (ts.headD .absent).kind

theorem Parser.current_kind (p : Parser) : p.current.kind = nextKind p.rest := rfl

@[simp] theorem nextKind_cons (t : Token) (ts : List Token) : nextKind (t :: ts) = t.kind := rfl

namespace Parse
variable {α β : Type}

theorem bind_apply (x : Parse α) (f : α → Parse β) (p : Parser) :
    (x >>= f) p = match x p with
      | .ok a q => f a q
      | .error e q => .error e q := by
  cases h : x p <;> simp only [bind, EStateM.bind, h]

theorem bind_ok {x : Parse α} {f : α → Parse β} {p q : Parser} {a : α} (h : x p = .ok a q) :
    (x >>= f) p = f a q := by
  rw [bind_apply, h]

theorem bind_error {x : Parse α} {f : α → Parse β} {p q : Parser} {e : Interrupt}
    (h : x p = .error e q) : (x >>= f) p = .error e q := by
  rw [bind_apply, h]

theorem bind_eq_ok {x : Parse α} {f : α → Parse β} {p r : Parser} {b : β}
    (h : (x >>= f) p = .ok b r) : ∃ a q, x p = .ok a q ∧ f a q = .ok b r := by
  rw [bind_apply] at h
  cases hx : x p with
  | ok a q => rw [hx] at h; exact ⟨a, q, rfl, h⟩
  | error e q => rw [hx] at h; cases h

theorem map_apply (f : α → β) (x : Parse α) (p : Parser) :
    (f <$> x) p = match x p with
      | .ok a q => .ok (f a) q
      | .error e q => .error e q := by
  cases h : x p <;> simp only [Functor.map, EStateM.map, h]

theorem peek_apply (p : Parser) : peek p = .ok p.current p := rfl

theorem check_apply (k : Kind) (p : Parser) : check k p = .ok (p.current.kind = k) p := rfl

theorem atEnd_apply (p : Parser) : Parse.atEnd p = .ok (p.current.kind = .endOfInput) p := rfl

theorem fail_apply (e : SyntaxError) (t : Token) (p : Parser) :
    (fail e t : Parse α) p = .error .bail (p.report e t) := rfl

theorem advance_apply {p : Parser} (h : p.current.kind ≠ .endOfInput) :
    advance p = .ok p.current (p.pass [p.current]) := by
  rw [advance, Parser.advance_eq h]

theorem accept_some {w : Kind → Bool} {p : Parser} (hend : w .endOfInput = false)
    (hw : w p.current.kind = true) : accept w p = .ok (some p.current) (p.pass [p.current]) := by
  have h : p.current.kind ≠ .endOfInput := by
    intro h
    rw [h, hend] at hw
    cases hw
  rw [accept, if_pos hw, Parser.advance_eq h]

theorem accept_none {w : Kind → Bool} {p : Parser} (hw : w p.current.kind = false) :
    accept w p = .ok none p := by
  rw [accept, if_neg (by simp [hw])]

theorem expect_ok {k : Kind} {what : String} {p : Parser} (hend : k ≠ .endOfInput)
    (hk : p.current.kind = k) : expect k what p = .ok p.current (p.pass [p.current]) := by
  rw [expect, if_pos hk, Parser.advance_eq (hk ▸ hend)]

theorem accept_next {w : Kind → Bool} {p : Parser} {t : Token} {us : List Token}
    (hp : p.rest = t :: us) (hend : w .endOfInput = false) (hw : w t.kind = true) :
    accept w p = .ok (some t) (p.pass [t]) := by
  have ht := Parser.current_cons hp
  rw [accept_some hend (by rwa [ht]), ht]

theorem expect_next {k : Kind} {what : String} {p : Parser} {t : Token} {us : List Token}
    (hp : p.rest = t :: us) (hend : k ≠ .endOfInput) (hk : t.kind = k) :
    expect k what p = .ok t (p.pass [t]) := by
  have ht := Parser.current_cons hp
  rw [expect_ok hend (by rwa [ht]), ht]

theorem deepen_ok {p : Parser} (h : p.depth < maxNesting) :
    deepen p = .ok () (p.atDepth (p.depth + 1)) := by
  rw [deepen, if_pos h]
  rfl

theorem deepen_error {p : Parser} (h : maxNesting ≤ p.depth) :
    deepen p = .error .bail (p.report .tooDeep p.current) := by
  rw [deepen, if_neg (by omega), fail_apply]

theorem restoringDepth_apply (step : Parse α) (p : Parser) :
    restoringDepth step p = match step p with
      | .ok a q => .ok a (q.atDepth p.depth)
      | .error e q => .error e (q.atDepth p.depth) := rfl

theorem nested_ok {step : Parse α} {p : Parser} (h : p.depth < maxNesting) :
    nested step p = match step (p.atDepth (p.depth + 1)) with
      | .ok a q => .ok a (q.atDepth p.depth)
      | .error e q => .error e (q.atDepth p.depth) := by
  rw [nested, restoringDepth_apply, bind_ok (deepen_ok h)]

theorem nested_error {step : Parse α} {p : Parser} (h : maxNesting ≤ p.depth) :
    nested step p = .error .bail (p.report .tooDeep p.current) := by
  rw [nested, restoringDepth_apply, bind_error (deepen_error h)]
  rfl

/-- Reports a fault at the next token where there are as many items as there may be. -/
def tally (error : SyntaxError) (count : Nat) : Parse Unit := fun p =>
  .ok () (if count = maxArguments then p.report error p.current else p)

theorem tally_within (error : SyntaxError) {count : Nat} (h : count < maxArguments) :
    tally error count = pure () := by
  funext p
  rw [tally, if_neg (Nat.ne_of_lt h)]
  rfl

theorem argumentList_succ (n count : Nat) (before : List Expr) :
    argumentList (n + 1) count before = (do
      tally .tooManyArguments count
      let arg ← assignment n
      match ← accept (· = .comma) with
      | none => pure (arg :: before).reverse
      | some _ => argumentList n (count + 1) (arg :: before)) := by
  funext p
  rw [argumentList, bind_ok (rfl : tally .tooManyArguments count p = .ok () _)]
  dsimp only
  split
  · rfl
  · rfl

theorem parameterList_succ (n count : Nat) (before : List Token) :
    parameterList (n + 1) count before = (do
      tally .tooManyParameters count
      let name ← expect .identifier "parameter name"
      match ← accept (· = .comma) with
      | none => pure (name :: before).reverse
      | some _ => parameterList n (count + 1) (name :: before)) := by
  funext p
  rw [parameterList, bind_ok (rfl : tally .tooManyParameters count p = .ok () _)]
  dsimp only
  split
  · rfl
  · rfl

theorem primary_atom {n : Nat} {p : Parser} {e : Expr} (h : p.current.atom? = some e) :
    primary (n + 1) p = .ok e (p.pass [p.current]) := by
  unfold Token.atom? at h
  unfold primary
  rw [bind_ok (peek_apply p)]
  split at h <;> cases h <;> simp only [*] <;> rw [bind_ok (advance_apply (by simp [*]))] <;> rfl

theorem primary_grouping {n : Nat} {p : Parser} (h : p.current.kind = .leftParen) :
    primary (n + 1) p = (do
      let inner ← expression n
      let _ ← expect .rightParen "')' after expression"
      pure (Expr.grouping inner)) (p.pass [p.current]) := by
  unfold primary
  rw [bind_ok (peek_apply p)]
  simp only [h]
  rw [bind_ok (advance_apply (by simp [h]))]

theorem primary_error {n : Nat} {p : Parser} (h : p.current.atom? = none)
    (h' : p.current.kind ≠ .leftParen) :
    primary (n + 1) p = .error .bail (p.report .expectedExpression p.current) := by
  unfold Token.atom? at h
  unfold primary
  rw [bind_ok (peek_apply p)]
  cases hk : p.current.kind <;> simp only [hk] at h h' ⊢ <;> first | rfl | contradiction

/-! Inversion of steps that end normally. -/

theorem accept_eq_ok {w : Kind → Bool} {p q : Parser} {o : Option Token}
    (hend : w .endOfInput = false) (h : accept w p = .ok o q) :
    (o = none ∧ q = p ∧ w p.current.kind = false) ∨
      (o = some p.current ∧ q = p.pass [p.current] ∧ w p.current.kind = true ∧
        p.rest = p.current :: q.rest) := by
  cases hw : w p.current.kind with
  | false =>
    rw [accept_none hw] at h
    cases h
    exact .inl ⟨rfl, rfl, rfl⟩
  | true =>
    have hne : p.current.kind ≠ .endOfInput := by
      intro hk
      rw [hk, hend] at hw
      cases hw
    rw [accept_some hend hw] at h
    cases h
    exact .inr ⟨rfl, rfl, rfl, Parser.rest_eq_cons hne⟩

theorem expect_eq_ok {k : Kind} {what : String} {p q : Parser} {t : Token}
    (hend : k ≠ .endOfInput) (h : expect k what p = .ok t q) :
    t.kind = k ∧ p.rest = t :: q.rest ∧ q = p.pass [t] := by
  by_cases hk : p.current.kind = k
  · rw [expect_ok hend hk] at h
    cases h
    exact ⟨hk, Parser.rest_eq_cons (hk ▸ hend), rfl⟩
  · rw [expect, if_neg hk, fail_apply] at h
    cases h

theorem map_eq_ok {f : α → β} {x : Parse α} {p q : Parser} {b : β} (h : (f <$> x) p = .ok b q) :
    ∃ a, x p = .ok a q ∧ b = f a := by
  rw [map_apply] at h
  cases hx : x p with
  | ok a r => rw [hx] at h; cases h; exact ⟨a, rfl, rfl⟩
  | error e r => rw [hx] at h; cases h

theorem tally_eq_ok {e : SyntaxError} {count : Nat} {p q : Parser} (h : tally e count p = .ok () q) :
    (count = maxArguments ∧ q.faults.length = p.faults.length + 1) ∨
      (count ≠ maxArguments ∧ q = p) := by
  unfold tally at h
  split at h
  · cases h
    exact .inl ⟨‹_›, rfl⟩
  · cases h
    exact .inr ⟨‹_›, rfl⟩

theorem restoringDepth_eq_ok {step : Parse α} {p r : Parser} {a : α}
    (h : restoringDepth step p = .ok a r) :
    ∃ q, step p = .ok a q ∧ r = q.atDepth p.depth := by
  rw [restoringDepth_apply] at h
  cases hs : step p with
  | ok b q => rw [hs] at h; cases h; exact ⟨q, rfl, rfl⟩
  | error e q => rw [hs] at h; cases h

theorem nested_eq_ok {step : Parse α} {p r : Parser} {a : α} (h : nested step p = .ok a r) :
    p.depth < maxNesting ∧
      ∃ q, step (p.atDepth (p.depth + 1)) = .ok a q ∧ r = q.atDepth p.depth := by
  by_cases hd : p.depth < maxNesting
  · refine ⟨hd, ?_⟩
    rw [nested_ok hd] at h
    cases hs : step (p.atDepth (p.depth + 1)) with
    | ok b q => rw [hs] at h; cases h; exact ⟨q, rfl, rfl⟩
    | error e q => rw [hs] at h; cases h
  · rw [nested_error (by omega)] at h
    cases h

theorem deepen_eq_ok {p q : Parser} (h : deepen p = .ok () q) :
    p.depth < maxNesting ∧ q = p.atDepth (p.depth + 1) := by
  by_cases hd : p.depth < maxNesting
  · rw [deepen_ok hd] at h
    cases h
    exact ⟨hd, rfl⟩
  · rw [deepen_error (by omega)] at h
    cases h

end Parse
end Lox
