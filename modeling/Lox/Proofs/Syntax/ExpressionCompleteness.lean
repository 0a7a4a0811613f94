import Lox.Proofs.Syntax.ExpressionSoundness

/-! Every expression of the grammar is parsed, with its tree, wherever its nesting has room. How
much room it needs depends on its tokens only. -/
namespace Lox

/-- The rank of the category in which a token of this kind goes on after a complete phrase; beyond
all ranks if there is none. -/
def Kind.rank : Kind → Nat
  | leftParen => 1
  | plusPlus | minusMinus => 2
  | slash | star => 4
  | minus | plus => 5
  | greater | greaterEqual | less | lessEqual => 6
  | bangEqual | equalEqual => 7
  | kwAnd => 8
  | kwOr => 9
  | question => 10
  | equal => 11
  | comma => 12
  | _ => 13

theorem Level.rank_of_joins {l : Level} {k : Kind} (h : l.joins k = true) :
    k.rank = (Category.chain l).rank := by
  cases k <;> cases l <;> first | rfl | cases h

theorem Level.joins_eq_false {l : Level} {k : Kind} (h : (Category.chain l).rank < k.rank) :
    l.joins k = false := by
  cases hk : l.joins k with
  | false => rfl
  | true => rw [Level.rank_of_joins hk] at h; omega

theorem Kind.rank_of_isCrement {k : Kind} (h : k.isCrement = true) : k.rank = 2 := by
  simp only [Kind.isCrement, Bool.or_eq_true, decide_eq_true_eq] at h
  rcases h with rfl | rfl <;> rfl

namespace Parse
variable {α β : Type}

/-- The parser of a category. -/
def ofCategory : Category → Nat → Parse Expr
  | .chain l, n => chain n l
  | .assignment, n => assignment n
  | .conditional, n => conditional n
  | .unary, n => unary n
  | .suffixed, n => suffixed n
  | .call, n => call n
  | .primary, n => primary n

theorem operand_eq (n : Nat) (l : Level) : operand (n + 1) l = ofCategory l.operands n := by
  cases l <;> rfl

/-- The parse was given up because of too much nesting, before any of the tokens `us`. -/
def GivesUp (p : Parser) (us : List Token) (r : EStateM.Result Interrupt Parser α) : Prop :=
  ∃ t q, r = .error .bail q ∧ q.faults = ⟨.tooDeep, t⟩ :: p.faults ∧ us <:+ q.rest

/-- The step takes exactly the tokens `ts`, with the result `a`, from every state with `room` more
levels of nesting, and gives up from all others. The tokens after `ts` must not belong to the
phrase, and the steps allotted must suffice. -/
def Takes (step : Nat → Parse α) (rank cost room : Nat) (ts : List Token) (a : α) : Prop :=
  ∀ ⦃n : Nat⦄ ⦃p : Parser⦄ ⦃us : List Token⦄, p.rest = ts ++ us → rank < (nextKind us).rank →
    32 * p.rest.length + cost ≤ n → p.depth ≤ maxNesting →
    (p.depth + room ≤ maxNesting → step n p = .ok a (p.pass ts)) ∧
      (maxNesting < p.depth + room → GivesUp p us (step n p))

/-- The step takes exactly the tokens wherever there is room, and needs hardly more levels of
nesting than there are tokens. -/
def Fits (step : Nat → Parse α) (rank cost slack : Nat) (ts : List Token) (a : α) : Prop :=
  ∃ room, room ≤ ts.length + slack ∧ Takes step rank cost room ts a

/-- The parser of the category takes the tokens as a phrase. -/
abbrev Reads (c : Category) (ts : List Token) (e : Expr) : Prop :=
  Fits (ofCategory c) c.rank (2 * c.rank + 1) 0 ts e

theorem GivesUp.bind {p q : Parser} {us : List Token} {x : Parse α} {f : α → Parse β}
    (h : GivesUp p us (x q)) : GivesUp p us ((x >>= f) q) := by
  obtain ⟨t, r, hr, hf, hs⟩ := h
  exact ⟨t, r, bind_error hr, hf, hs⟩

theorem GivesUp.weaken {p : Parser} {us ws : List Token} {r : EStateM.Result Interrupt Parser α}
    (h : GivesUp p ws r) (hs : us <:+ ws) : GivesUp p us r := by
  obtain ⟨t, q, hr, hf, hq⟩ := h
  exact ⟨t, q, hr, hf, hs.trans hq⟩

theorem GivesUp.restoringDepth {p : Parser} {us : List Token} {step : Parse α}
    (h : GivesUp p us (step p)) : GivesUp p us (restoringDepth step p) := by
  obtain ⟨t, q, hr, hf, hs⟩ := h
  exact ⟨t, q.atDepth p.depth, by rw [restoringDepth_apply, hr], hf, hs⟩

theorem GivesUp.nested {p : Parser} {us : List Token} {step : Parse α} (hd : p.depth < maxNesting)
    (h : GivesUp p us (step (p.atDepth (p.depth + 1)))) : GivesUp p us (nested step p) := by
  obtain ⟨t, q, hr, hf, hs⟩ := h
  exact ⟨t, q.atDepth p.depth, by rw [nested_ok hd, hr], hf, hs⟩

theorem givesUp_nested {p : Parser} {us : List Token} {step : Parse α} (hd : maxNesting ≤ p.depth)
    (hs : us <:+ p.rest) : GivesUp p us (nested step p) :=
  ⟨p.current, p.report .tooDeep p.current, nested_error hd, rfl, hs⟩

theorem givesUp_deepen {p : Parser} {us : List Token} (hd : maxNesting ≤ p.depth)
    (hs : us <:+ p.rest) : GivesUp p us (deepen p) :=
  ⟨p.current, p.report .tooDeep p.current, deepen_error hd, rfl, hs⟩

theorem accept_after {w : Kind → Bool} {rank : Nat} (hw : ∀ k, w k = true → k.rank ≤ rank)
    {p : Parser} {ts us : List Token} (hp : p.rest = ts ++ us) (hk : rank < (nextKind us).rank) :
    accept w (p.pass ts) = .ok none (p.pass ts) := by
  apply accept_none
  rw [Parser.current_kind, Parser.pass_rest hp]
  cases h : w (nextKind us) with
  | false => rfl
  | true => have := hw _ h; omega

theorem rank_le_of_eq {k : Kind} {rank : Nat} (h : k.rank ≤ rank) (j : Kind)
    (hj : decide (j = k) = true) : j.rank ≤ rank := by
  rw [of_decide_eq_true hj]
  exact h

/-! Steps in sequence. -/

private theorem Fits.seq {x : Nat → Parse α} {f : Nat → α → Parse β} {r₁ r₂ c₁ c₂ s₁ s₂ : Nat}
    {ts us : List Token} {a : α} {b : β} (hx : Fits x r₁ c₁ s₁ ts a)
    (hf : Fits (fun n => f n a) r₂ c₂ s₂ us b) (cost slack : Nat)
    (hr : ∀ vs, r₂ < (nextKind vs).rank → r₁ < (nextKind (us ++ vs)).rank)
    (hc₁ : c₁ ≤ cost) (hc₂ : c₂ ≤ cost + 32 * ts.length) (hs₁ : s₁ ≤ us.length + slack)
    (hs₂ : s₂ ≤ ts.length + slack) :
    Fits (fun n => x n >>= f n) r₂ cost slack (ts ++ us) b := by
  obtain ⟨m₁, hm₁, hx⟩ := hx
  obtain ⟨m₂, hm₂, hf⟩ := hf
  refine ⟨max m₁ m₂, by rw [List.length_append]; omega, fun n p vs hp hk hn hd => ?_⟩
  have hts : p.rest = ts ++ (us ++ vs) := by rw [hp, List.append_assoc]
  have hus : (p.pass ts).rest = us ++ vs := Parser.pass_rest hts
  have hlen : p.rest.length = ts.length + (p.pass ts).rest.length := by
    rw [hus, hts, List.length_append]
  obtain ⟨hok₁, hup₁⟩ := @hx n p _ hts (hr vs hk) (by omega) hd
  obtain ⟨hok₂, hup₂⟩ := @hf n (p.pass ts) vs hus hk (by omega) hd
  dsimp only [Parser.pass_depth] at hok₂ hup₂ ⊢
  by_cases hm : p.depth + m₁ ≤ maxNesting
  · rw [bind_ok (hok₁ hm)]
    refine ⟨fun h => ?_, fun h => hup₂ (by omega)⟩
    rw [hok₂ (by omega), Parser.pass_pass]
  · exact ⟨fun h => absurd h (by omega), fun _ => ((hup₁ (by omega)).weaken (List.suffix_append us vs)).bind⟩

theorem Fits.nested {step : Nat → Parse α} {rank cost slack : Nat} {ts : List Token} {a : α}
    (h : Fits step rank cost slack ts a) :
    Fits (fun n => nested (step n)) rank cost (slack + 1) ts a := by
  obtain ⟨room, hroom, h⟩ := h
  refine ⟨room + 1, by omega, fun n p us hp hk hn hd => ?_⟩
  dsimp only
  by_cases hlt : p.depth < maxNesting
  · obtain ⟨hok, hup⟩ := @h n (p.atDepth (p.depth + 1)) us hp hk hn (by simp; omega)
    simp only [Parser.atDepth_depth] at hok hup
    refine ⟨fun hr => ?_, fun hr => .nested hlt (hup (by omega))⟩
    rw [nested_ok hlt, hok (by omega)]
    rfl
  · refine ⟨fun hr => absurd hr (by omega), fun _ => givesUp_nested (by omega) ?_⟩
    exact hp ▸ List.suffix_append ts us

theorem Fits.succ {step next : Nat → Parse α} {rank cost slack : Nat} {ts : List Token} {a : α}
    (hs : ∀ n, step (n + 1) = next n) (h : Fits next rank cost slack ts a) :
    Fits step rank (cost + 1) slack ts a := by
  obtain ⟨room, hroom, h⟩ := h
  refine ⟨room, hroom, fun n p us hp hk hn hd => ?_⟩
  obtain ⟨n, rfl⟩ : ∃ m, n = m + 1 := ⟨n - 1, by omega⟩
  rw [hs]
  exact h hp hk (by omega) hd

theorem Fits.mono {step : Nat → Parse α} {r r' c c' s s' : Nat} {ts : List Token} {a : α}
    (h : Fits step r c s ts a) (hr : r ≤ r') (hc : c ≤ c') (hs : s ≤ s') :
    Fits step r' c' s' ts a := by
  obtain ⟨room, hroom, h⟩ := h
  exact ⟨room, by omega, fun _ _ _ hp hk hn hd => h hp (by omega) (by omega) hd⟩

/-- A step that takes its tokens at any nesting. -/
theorem Fits.of_ok {step : Nat → Parse α} {rank cost : Nat} {ts : List Token} {a : α}
    (h : ∀ ⦃n : Nat⦄ ⦃p : Parser⦄ ⦃us : List Token⦄, p.rest = ts ++ us → rank < (nextKind us).rank →
      32 * p.rest.length + cost ≤ n → step n p = .ok a (p.pass ts)) :
    Fits step rank cost 0 ts a :=
  ⟨0, Nat.zero_le _, fun _ _ _ hp hk hn hd => ⟨fun _ => h hp hk hn, fun hr => absurd hd (by omega)⟩⟩

theorem fits_pure (a : α) (rank : Nat) : Fits (fun _ => pure a) rank 0 0 [] a :=
  .of_ok fun _ _ _ _ _ _ => rfl

theorem fits_accept {w : Kind → Bool} {t : Token} (hend : w .endOfInput = false)
    (hw : w t.kind = true) : Fits (fun _ => accept w) 0 0 0 [t] (some t) :=
  .of_ok fun _ _ _ hp _ _ => accept_next hp hend hw

theorem fits_expect {k : Kind} {t : Token} (what : String) (hend : k ≠ .endOfInput)
    (hk : t.kind = k) : Fits (fun _ => expect k what) 0 0 0 [t] t :=
  .of_ok fun _ _ _ hp _ _ => expect_next hp hend hk

theorem fits_accept_none {w : Kind → Bool} {rank : Nat} (hw : ∀ k, w k = true → k.rank ≤ rank) :
    Fits (fun _ => accept w) rank 0 0 [] none :=
  .of_ok fun _ _ _ hp hk _ => @accept_after _ _ hw _ [] _ hp hk

theorem Kind.rank_pos (k : Kind) : 0 < k.rank := by
  cases k <;> decide

/-- A step followed by one that takes nothing. -/
theorem Fits.finish {x : Nat → Parse α} {f : Nat → α → Parse β} {r₁ r₂ c₁ c₂ slack : Nat}
    {ts : List Token} {a : α} {b : β} (hx : Fits x r₁ c₁ slack ts a)
    (hf : Fits (fun n => f n a) r₂ c₂ 0 [] b) (hr : r₁ ≤ r₂) (hc : c₂ ≤ c₁) :
    Fits (fun n => x n >>= f n) r₂ c₁ slack ts b := by
  have := hx.seq hf c₁ slack (fun _ hk => Nat.lt_of_le_of_lt hr hk) (Nat.le_refl _) (by omega)
    (Nat.le_add_left _ _) (Nat.zero_le _)
  rwa [List.append_nil] at this

theorem Fits.map {x : Nat → Parse α} {rank cost slack : Nat} {ts : List Token} {a : α} (f : α → β)
    (h : Fits x rank cost slack ts a) :
    Fits (fun n => x n >>= fun y => pure (f y)) rank cost slack ts (f a) :=
  h.finish (fits_pure (f a) rank) (Nat.le_refl _) (Nat.zero_le _)

/-- A step that takes one token, and what follows it. -/
theorem Fits.token {x : Nat → Parse α} {f : Nat → α → Parse β} {rank cost slack : Nat}
    {t : Token} {us : List Token} {a : α} {b : β} (hx : Fits x 0 0 0 [t] a)
    (hf : Fits (fun n => f n a) rank cost slack us b) (hc : cost ≤ 32) (hs : slack ≤ 1) :
    Fits (fun n => x n >>= f n) rank 0 0 (t :: us) b :=
  hx.seq hf 0 0 (fun _ _ => Kind.rank_pos _) (Nat.le_refl 0) (by simpa using hc) (Nat.zero_le _)
    (by simpa using hs)

/-- A step, and what follows it from a token on that does not belong to the step. -/
theorem Fits.before {x : Nat → Parse α} {f : Nat → α → Parse β} {r₁ r₂ cost slack : Nat}
    {ts us : List Token} {t : Token} {a : α} {b : β} (hx : Fits x r₁ cost slack ts a)
    (hf : Fits (fun n => f n a) r₂ 0 0 (t :: us) b) (hr : r₁ < t.kind.rank) (hs : slack ≤ 1) :
    Fits (fun n => x n >>= f n) r₂ cost 0 (ts ++ t :: us) b :=
  hx.seq hf cost 0 (fun _ _ => hr) (Nat.le_refl _) (Nat.zero_le _) (by simp; omega) (Nat.zero_le _)

/-- A step that looks for a token other than the first one. -/
theorem Fits.skip {w : Kind → Bool} {f : Nat → Option Token → Parse β} {rank cost slack : Nat}
    {t : Token} {us : List Token} {b : β} (hw : w t.kind = false)
    (h : Fits (fun n => f n none) rank cost slack (t :: us) b) :
    Fits (fun n => accept w >>= f n) rank cost slack (t :: us) b := by
  obtain ⟨room, hroom, h⟩ := h
  refine ⟨room, hroom, fun n p vs hp hk hn hd => ?_⟩
  have hc : accept w p = .ok none p := accept_none (by rwa [Parser.current_cons hp])
  dsimp only
  rw [bind_ok hc]
  exact h hp hk hn hd

/-- A step that takes the first token and goes on as another step. -/
theorem Fits.of_first {step next : Nat → Parse β} {rank cost slack : Nat} {t : Token}
    {us : List Token} {b : β}
    (hs : ∀ n (p : Parser) ws, p.rest = t :: ws → step (n + 1) p = next n (p.pass [t]))
    (h : Fits next rank cost slack us b) (hc : cost ≤ 32) (hsl : slack ≤ 1) :
    Fits step rank 1 0 (t :: us) b := by
  obtain ⟨room, hroom, h⟩ := h
  refine ⟨room, by simp; omega, fun n p vs hp hk hn hd => ?_⟩
  obtain ⟨n, rfl⟩ : ∃ m, n = m + 1 := ⟨n - 1, by omega⟩
  have hrest : (p.pass [t]).rest = us ++ vs := Parser.pass_one hp
  have hlen : p.rest.length = (p.pass [t]).rest.length + 1 := by rw [hrest, hp]; simp
  rw [hs n p _ hp]
  obtain ⟨hok, hup⟩ := @h n (p.pass [t]) vs hrest hk (by omega) hd
  refine ⟨fun hr => ?_, hup⟩
  rw [hok hr, Parser.pass_pass]
  rfl

/-! Phrases. -/

/-- A phrase of a tighter category, where the parser looks for one more token and finds none. -/
theorem Reads.of_tighter {c d : Category} {w : Kind → Bool} {others : Nat → Expr → Token → Parse Expr}
    (hd : ∀ n, ofCategory d (n + 1) = (do
      let e ← ofCategory c n
      match ← accept w with
      | none => pure e
      | some t => others n e t))
    (hrank : c.rank < d.rank) (hw : ∀ k, w k = true → k.rank ≤ d.rank) {ts : List Token} {e : Expr}
    (h : Reads c ts e) : Reads d ts e := by
  have last := (fits_accept_none hw).finish (f := fun n o => match o with
    | none => pure e
    | some t => others n e t) (fits_pure e d.rank) (Nat.le_refl _) (Nat.le_refl _)
  exact (Fits.succ hd (h.finish last (Nat.le_of_lt hrank) (Nat.zero_le _))).mono (Nat.le_refl _)
    (by omega) (Nat.le_refl _)

theorem Reads.conditional {ts : List Token} {e : Expr} (h : Reads .conditional ts e) :
    Reads .assignment ts e :=
  h.of_tighter (fun _ => rfl) (by decide) (rank_le_of_eq (by decide))

theorem Reads.disjunction {ts : List Token} {e : Expr} (h : Reads (.chain .or) ts e) :
    Reads .conditional ts e :=
  h.of_tighter (fun _ => rfl) (by decide) (rank_le_of_eq (by decide))

theorem Reads.call {ts : List Token} {e : Expr} (h : Reads .call ts e) : Reads .suffixed ts e :=
  h.of_tighter (fun _ => rfl) (by decide) (fun _ hk => Nat.le_of_eq (Kind.rank_of_isCrement hk))

theorem Reads.choice {ts us vs : List Token} {question colon : Token} {c a b : Expr}
    (condition : Reads (.chain .or) ts c) (hq : question.kind = .question)
    (yes : Reads .assignment us a) (hc : colon.kind = .colon) (no : Reads .conditional vs b) :
    Reads .conditional (ts ++ question :: (us ++ colon :: vs)) (.conditional question c a b) := by
  refine Fits.mono (.succ conditional.eq_2 (condition.before (.token (fits_accept rfl (by simp [hq]))
    (.nested (yes.before (.token (fits_expect _ (by decide) hc) (no.map _) ?_ ?_) ?_ ?_)) ?_ ?_)
    ?_ ?_)) ?_ ?_ ?_
  case refine_3 => rw [hc]; decide
  case refine_7 => rw [hq]; decide
  all_goals decide

theorem Reads.negation {op : Token} {ts : List Token} {e : Expr} (hop : op.kind.isNegation = true)
    (h : Reads .unary ts e) : Reads .unary (op :: ts) (.unary op e) := by
  refine Fits.mono (.succ unary.eq_2 (.token (fits_accept rfl hop) (.nested (h.map _)) ?_ ?_)) ?_ ?_ ?_
  all_goals decide

theorem Kind.isNegation_of_isCrement {k : Kind} (h : k.isCrement = true) : k.isNegation = false := by
  simp only [Kind.isCrement, Bool.or_eq_true, decide_eq_true_eq] at h
  rcases h with rfl | rfl <;> rfl

theorem Reads.precrement {op : Token} {ts : List Token} {e : Expr} (hop : op.kind.isCrement = true)
    (h : Reads .unary ts e) : Reads .unary (op :: ts) (.crement op e) := by
  refine Fits.mono (.succ unary.eq_2 (.skip (Kind.isNegation_of_isCrement hop)
    (.token (fits_accept rfl hop) (.nested (h.map _)) ?_ ?_))) ?_ ?_ ?_
  all_goals decide

/-- A phrase that starts with no prefix operator. -/
theorem Reads.suffixed {t : Token} {ts : List Token} {e : Expr} (ht : t.kind.opens = true)
    (h : Reads .suffixed (t :: ts) e) : Reads .unary (t :: ts) e := by
  have hn : t.kind.isNegation = false := by
    generalize t.kind = k at ht
    cases k <;> first | rfl | cases ht
  have hc : t.kind.isCrement = false := by
    generalize t.kind = k at ht
    cases k <;> first | rfl | cases ht
  refine Fits.mono (.succ unary.eq_2 (.skip hn (.skip hc h))) ?_ ?_ ?_
  all_goals decide

theorem Reads.postcrement {op : Token} {ts : List Token} {e : Expr} (h : Reads .call ts e)
    (hop : op.kind.isCrement = true) : Reads .suffixed (ts ++ [op]) (.crement op e) := by
  refine Fits.mono (.succ suffixed.eq_2 (h.before (.token (fits_accept rfl hop)
    (fits_pure _ 2) ?_ ?_) ?_ ?_)) ?_ ?_ ?_
  case refine_3 => rw [Kind.rank_of_isCrement hop]; decide
  all_goals decide

theorem Reads.atom {t : Token} {e : Expr} (h : t.atom? = some e) : Reads .primary [t] e := by
  refine Fits.of_ok fun n p us hp _ hn => ?_
  obtain ⟨n, rfl⟩ : ∃ m, n = m + 1 := ⟨n - 1, by omega⟩
  have ht := Parser.current_cons hp
  simp only [ofCategory]
  rw [primary_atom (by rwa [ht]), ht]

theorem fits_expression {ts : List Token} {e : Expr} (h : Reads .expression ts e) :
    Fits expression 12 26 1 ts e :=
  .succ expression.eq_2 (.nested h)

theorem Reads.grouping {ts : List Token} {left right : Token} {e : Expr}
    (hl : left.kind = .leftParen) (inner : Reads .expression ts e)
    (hr : right.kind = .rightParen) : Reads .primary (left :: (ts ++ [right])) (.grouping e) := by
  have inside : Fits (fun n => do
      let inner ← expression n
      let _ ← expect .rightParen "')' after expression"
      pure (Expr.grouping inner)) 0 26 0 (ts ++ [right]) (.grouping e) := by
    refine (fits_expression inner).before
      (.token (fits_expect _ (by decide) hr) (fits_pure (Expr.grouping e) 0) ?_ ?_) ?_ ?_
    case refine_3 => rw [hr]; decide
    all_goals decide
  refine Fits.of_first (fun n p ws hp => ?_) inside (by decide) (by decide)
  have ht := Parser.current_cons hp
  have := primary_grouping (n := n) (p := p) (by rw [ht, hl])
  rwa [ht] at this

theorem Reads.assign {name equals : Token} {ts : List Token} {e : Expr}
    (hname : Reads .conditional [name] (.variable name)) (he : equals.kind = .equal)
    (value : Reads .assignment ts e) :
    Reads .assignment (name :: equals :: ts) (.assign name e) := by
  refine Fits.mono (.succ assignment.eq_2 (hname.before (.token (fits_accept rfl (by simp [he]))
    (.nested (value.map (Expr.assign name))) ?_ ?_) ?_ ?_)) ?_ ?_ ?_
  case refine_3 => rw [he]; decide
  all_goals decide

/-! Phrases that grow to the right. -/

/-- The seed and its continuations come to stand before the rest of the loop, with the phrase `e`
that the tokens make up and `count` more levels of nesting. -/
def Gathers (seed : Nat → Parse Expr) (loop : Nat → Expr → Parse Expr) (rank cost : Nat)
    (ts : List Token) (e : Expr) : Prop :=
  ∃ room count, count ≤ room ∧ room ≤ ts.length ∧
    ∀ ⦃n : Nat⦄ ⦃p : Parser⦄ ⦃us : List Token⦄, p.rest = ts ++ us → rank < (nextKind us).rank →
      32 * p.rest.length + cost ≤ n → p.depth ≤ maxNesting →
      (p.depth + room ≤ maxNesting → ∃ m, 32 * us.length + 1 ≤ m ∧
        (seed n >>= loop n) p = loop m e ((p.pass ts).atDepth (p.depth + count))) ∧
      (maxNesting < p.depth + room → GivesUp p us ((seed n >>= loop n) p))

theorem gathers_seed {seed : Nat → Parse Expr} {loop : Nat → Expr → Parse Expr} {rank cost : Nat}
    {ts : List Token} {e : Expr} (h : Fits seed rank cost 0 ts e) (hc : 1 ≤ cost) :
    Gathers seed loop rank cost ts e := by
  obtain ⟨room, hroom, h⟩ := h
  refine ⟨room, 0, Nat.zero_le _, hroom, fun n p us hp hk hn hd => ?_⟩
  obtain ⟨hok, hup⟩ := @h n p us hp hk hn hd
  refine ⟨fun hr => ⟨n, ?_, bind_ok (hok hr)⟩, fun hr => (hup hr).bind⟩
  rw [hp, List.length_append] at hn
  omega

/-- One more round of the loop: a token, then a step. -/
theorem Gathers.step {seed : Nat → Parse Expr} {loop : Nat → Expr → Parse Expr}
    {x : Nat → Parse α} {g : α → Expr} {rank cost c : Nat} {ts us : List Token} {t : Token}
    {a : Expr} {y : α} (h : Gathers seed loop rank cost ts a) (ht : rank < t.kind.rank)
    (hloop : ∀ m (q : Parser) ws, q.rest = t :: ws → loop (m + 1) a q =
      (deepen >>= fun _ => x m >>= fun y => loop m (g y)) (q.pass [t]))
    (hx : Fits x rank c 0 us y) (hc : c ≤ 32) :
    Gathers seed loop rank cost (ts ++ t :: us) (g y) := by
  obtain ⟨room, count, hcount, hroom, h⟩ := h
  obtain ⟨room', hroom', hx⟩ := hx
  refine ⟨max room (count + 1 + room'), count + 1, by omega, by simp; omega,
    fun n p vs hp hk hn hd => ?_⟩
  have hts : p.rest = ts ++ t :: (us ++ vs) := by simp [hp]
  obtain ⟨hok, hup⟩ := @h n p _ hts ht hn hd
  by_cases hr : p.depth + room ≤ maxNesting
  · obtain ⟨m, hm, heq⟩ := hok hr
    obtain ⟨m, rfl⟩ : ∃ k, m = k + 1 := ⟨m - 1, by omega⟩
    have hq : (p.pass ts).rest = t :: (us ++ vs) := Parser.pass_rest hts
    have hq' : ((p.pass ts).pass [t]).rest = us ++ vs := Parser.pass_one hq
    rw [heq, hloop m ((p.pass ts).atDepth (p.depth + count)) _ hq]
    by_cases hlt : p.depth + count < maxNesting
    · let q := (((p.pass ts).atDepth (p.depth + count)).pass [t]).atDepth (p.depth + count + 1)
      have hdeep : deepen (((p.pass ts).atDepth (p.depth + count)).pass [t]) = .ok () q :=
        deepen_ok hlt
      have hlen : q.rest.length = us.length + vs.length := by
        rw [show q.rest = us ++ vs from hq', List.length_append]
      rw [List.length_cons, List.length_append] at hm
      obtain ⟨hok', hup'⟩ := @hx m q vs hq' hk (by omega) hlt
      rw [bind_ok hdeep]
      by_cases hr' : p.depth + (count + 1 + room') ≤ maxNesting
      · refine ⟨fun _ => ⟨m, by omega, ?_⟩, fun h => absurd h (by omega)⟩
        have hy : x m q = .ok y (q.pass us) := hok' (by change p.depth + count + 1 + _ ≤ _; omega)
        rw [bind_ok hy]
        have hpass : ((p.pass ts).pass [t]).pass us = p.pass (ts ++ t :: us) := by
          rw [Parser.pass_pass, Parser.pass_pass]
          rfl
        rw [← hpass]
        rfl
      · refine ⟨fun h => absurd h (by omega), fun _ => (hup' ?_).bind⟩
        change _ < p.depth + count + 1 + room'
        omega
    · refine ⟨fun h => absurd h (by omega), fun _ => (givesUp_deepen (by simp; omega) ?_).bind⟩
      exact hq' ▸ List.suffix_append us vs
  · exact ⟨fun h => absurd h (by omega),
      fun _ => (hup (by omega)).weaken (List.suffix_append (t :: us) vs)⟩

/-- The loop ends at a token that does not go on with the phrase. -/
theorem Gathers.finish {seed : Nat → Parse Expr} {loop : Nat → Expr → Parse Expr}
    {rank stop cost : Nat} {ts : List Token} {e : Expr} (h : Gathers seed loop rank cost ts e)
    (hr : rank ≤ stop)
    (hstop : ∀ m (q : Parser), stop < q.current.kind.rank → loop (m + 1) e q = .ok e q) :
    Fits (fun n => restoringDepth (seed n >>= loop n)) stop cost 0 ts e := by
  obtain ⟨room, count, hcount, hroom, h⟩ := h
  refine ⟨room, hroom, fun n p us hp hk hn hd => ?_⟩
  obtain ⟨hok, hup⟩ := @h n p us hp (by omega) hn hd
  refine ⟨fun hr => ?_, fun hr => (hup hr).restoringDepth⟩
  obtain ⟨m, hm, heq⟩ := hok hr
  obtain ⟨m, rfl⟩ : ∃ k, m = k + 1 := ⟨m - 1, by omega⟩
  dsimp only
  rw [restoringDepth_apply, heq, hstop m _ ?_]
  · rfl
  · rw [Parser.current_kind, Parser.atDepth_rest, Parser.pass_rest hp]
    exact hk

/-- The tokens make up a chain, as far as it goes. -/
abbrev Chains (l : Level) (ts : List Token) (e : Expr) : Prop :=
  Gathers (fun n => operand n l) (fun n => links n l) l.operands.rank (2 * l.operands.rank + 2) ts e

/-- The tokens make up a callee with its argument lists, as far as they go. -/
abbrev Applies (ts : List Token) (e : Expr) : Prop := Gathers primary calls 0 1 ts e

theorem fits_operand {l : Level} {ts : List Token} {e : Expr} (h : Reads l.operands ts e) :
    Fits (fun n => operand n l) l.operands.rank (2 * l.operands.rank + 2) 0 ts e :=
  .succ (fun n => operand_eq n l) h

theorem chains_operand {l : Level} {ts : List Token} {e : Expr} (h : Reads l.operands ts e) :
    Chains l ts e :=
  gathers_seed (fits_operand h) (by omega)

theorem Chains.link {l : Level} {ts us : List Token} {op : Token} {a b : Expr} (h : Chains l ts a)
    (hop : l.joins op.kind = true) (hb : Reads l.operands us b) :
    Chains l (ts ++ op :: us) (l.node op a b) := by
  refine h.step (g := l.node op a) ?_ (fun m q ws hq => ?_) (fits_operand hb) ?_
  · rw [Level.rank_of_joins hop]
    exact l.operands_rank
  · exact bind_ok (accept_next hq (joins_endOfInput l) hop)
  · have := l.operands_rank
    have := (Category.chain l).rank_le
    omega

theorem Chains.reads {l : Level} {ts : List Token} {e : Expr} (h : Chains l ts e) :
    Reads (.chain l) ts e := by
  have hrank := l.operands_rank
  refine Fits.mono (.succ (fun n => rfl) (h.finish (Nat.le_of_lt hrank) fun m q hq => ?_))
    (Nat.le_refl _) (by omega) (Nat.le_refl _)
  exact bind_ok (accept_none (Level.joins_eq_false hq))

theorem Applies.reads {ts : List Token} {e : Expr} (h : Applies ts e) : Reads .call ts e := by
  refine Fits.mono (.succ (fun n => rfl) (h.finish (Nat.zero_le _) fun m q hq => ?_))
    (Nat.le_refl _) (by decide) (Nat.le_refl _)
  have hk : q.current.kind ≠ .leftParen := by
    intro hk
    rw [hk] at hq
    exact absurd hq (by decide)
  exact bind_ok (accept_none (by simp [hk]))

theorem reads_name {name : Token} (h : name.kind = .identifier) :
    Reads .conditional [name] (.variable name) := by
  have hcall : Reads .call [name] (.variable name) :=
    Applies.reads (gathers_seed (Reads.atom (by simp [Token.atom?, h])) (by decide))
  have hunary : Reads .unary [name] (.variable name) := .suffixed (by rw [h]; rfl) hcall.call
  have up {l : Level} (h : Reads l.operands [name] (.variable name)) :
      Reads (.chain l) [name] (.variable name) := (chains_operand h).reads
  have hterm : Reads (.chain .term) [name] (.variable name) := up (up hunary)
  have hequality : Reads (.chain .equality) [name] (.variable name) := up (up hterm)
  exact .disjunction (up (up hequality))

theorem argumentList_within (n : Nat) {count : Nat} (h : count < maxArguments)
    (before : List Expr) :
    argumentList (n + 1) count before = (do
      let arg ← assignment n
      match ← accept (· = .comma) with
      | none => pure (arg :: before).reverse
      | some _ => argumentList n (count + 1) (arg :: before)) := by
  rw [argumentList_succ, tally_within _ h]
  rfl

/-- The arguments are added to those before them. -/
def ListsArguments (es : List Expr) (ts : List Token) : Prop :=
  ∀ count before, count + es.length ≤ maxArguments →
    Fits (fun n => argumentList n count before) 12 24 0 ts (before.reverse ++ es)

theorem Reads.oneArgument {ts : List Token} {e : Expr} (h : Reads .assignment ts e) :
    ListsArguments [e] ts := by
  intro count before hn
  have last : Fits (fun n => accept (· = .comma) >>= fun
      | none => pure (e :: before).reverse
      | some _ => argumentList n (count + 1) (e :: before)) 12 0 0 [] (e :: before).reverse :=
    (fits_accept_none (rank_le_of_eq (by decide))).finish (fits_pure _ _) (Nat.le_refl _)
      (Nat.le_refl _)
  rw [← List.reverse_cons]
  exact .succ (fun n => argumentList_within n hn before) (h.finish last (by decide) (Nat.zero_le _))

theorem Reads.moreArguments {ts us : List Token} {comma : Token} {e f : Expr} {es : List Expr}
    (first : Reads .assignment ts e) (hc : comma.kind = .comma)
    (others : ListsArguments (f :: es) us) : ListsArguments (e :: f :: es) (ts ++ comma :: us) := by
  intro count before hn
  have more := others (count + 1) (e :: before) (by simp at hn ⊢; omega)
  rw [List.reverse_cons, List.append_assoc, List.singleton_append] at more
  refine .succ (fun n => argumentList_within n (by simp at hn; omega) before)
    (first.before (.token (fits_accept rfl (by simp [hc])) more ?_ ?_) ?_ ?_)
  case refine_3 => rw [hc]; decide
  all_goals decide

/-- A step that looks whether a token is next which is not. -/
theorem Fits.check_false {k : Kind} {f : Nat → Bool → Parse β} {rank cost slack : Nat} {t : Token}
    {us : List Token} {b : β} (hk : t.kind ≠ k)
    (h : Fits (fun n => f n false) rank cost slack (t :: us) b) :
    Fits (fun n => check k >>= f n) rank cost slack (t :: us) b := by
  obtain ⟨room, hroom, h⟩ := h
  refine ⟨room, hroom, fun n p vs hp hr hn hd => ?_⟩
  have hc : check k p = .ok false p := by
    rw [check_apply, Parser.current_cons hp, decide_eq_false hk]
  dsimp only
  rw [bind_ok hc]
  exact h hp hr hn hd

/-- A step that looks whether a token is next which is. -/
theorem Fits.check_true {k : Kind} {f : Nat → Bool → Parse β} {rank cost slack : Nat} {t : Token}
    {us : List Token} {b : β} (hk : t.kind = k)
    (h : Fits (fun n => f n true) rank cost slack (t :: us) b) :
    Fits (fun n => check k >>= f n) rank cost slack (t :: us) b := by
  obtain ⟨room, hroom, h⟩ := h
  refine ⟨room, hroom, fun n p vs hp hr hn hd => ?_⟩
  have hc : check k p = .ok true p := by
    rw [check_apply, Parser.current_cons hp, decide_eq_true hk]
  dsimp only
  rw [bind_ok hc]
  exact h hp hr hn hd

/-- The arguments of a call with the parenthesis that closes them. -/
def argumentsThenParen (n : Nat) : Parse (List Expr × Token) := do
  let args ← arguments n
  let paren ← expect .rightParen "')' after arguments"
  pure (args, paren)

theorem Applies.apply {ts us : List Token} {left right : Token} {f : Expr} {args : List Expr}
    (callee : Applies ts f) (hl : left.kind = .leftParen)
    (hargs : Fits argumentsThenParen 0 26 0 (us ++ [right]) (args, right)) :
    Applies (ts ++ left :: (us ++ [right])) (.call f right args) := by
  refine callee.step (g := fun y => .call f y.2 y.1) (Kind.rank_pos _) (fun m q ws hq => ?_) hargs
    (by decide)
  refine (bind_ok (accept_next hq rfl (by simp [hl]))).trans ?_
  simp only [argumentsThenParen, bind_assoc, pure_bind]

theorem argumentsThenParen_succ (n : Nat) : argumentsThenParen (n + 1) =
    check .rightParen >>= fun b => (if b then pure [] else argumentList n 0 []) >>= fun args =>
      expect .rightParen "')' after arguments" >>= fun paren => pure (args, paren) := by
  rw [argumentsThenParen, arguments, bind_assoc]

theorem fits_noArgument {right : Token} (hr : right.kind = .rightParen) :
    Fits argumentsThenParen 0 26 0 [right] ([], right) :=
  Fits.mono (.succ argumentsThenParen_succ (.check_true hr
    ((fits_expect _ (by decide) hr).map (fun paren => (([] : List Expr), paren)))))
    (Nat.le_refl _) (by decide) (Nat.le_refl _)

theorem fits_arguments {t right : Token} {us : List Token} {args : List Expr}
    (h : ListsArguments args (t :: us)) (hn : args.length ≤ maxArguments)
    (ht : t.kind ≠ .rightParen) (hr : right.kind = .rightParen) :
    Fits argumentsThenParen 0 26 0 (t :: us ++ [right]) (args, right) := by
  have list : Fits arguments 12 25 0 (t :: us) args :=
    .succ arguments.eq_2 (.check_false ht (h 0 [] (by omega)))
  refine (list.before (.token (fits_expect _ (by decide) hr) (fits_pure (args, right) 0) ?_ ?_) ?_
    ?_).mono ?_ ?_ ?_
  case refine_3 => rw [hr]; decide
  all_goals decide

theorem fits_derived_arguments {us : List Token} {right : Token} {args : List Expr}
    (d : Derives (.arguments args) us) (h : args ≠ [] → ListsArguments args us)
    (hn : args.length ≤ maxArguments) (hr : right.kind = .rightParen) :
    Fits argumentsThenParen 0 26 0 (us ++ [right]) (args, right) := by
  cases args with
  | nil => cases d; exact fits_noArgument hr
  | cons e es =>
    obtain ⟨t, us, rfl, ht⟩ := d.starts nofun
    refine fits_arguments (h nofun) hn ?_ hr
    intro hk
    rw [hk] at ht
    cases ht

/-- What the grammar derives is read by the parser of its category. -/
def Parsed : Form → List Token → Prop
  | .phrase (.chain l) e, ts => Chains l ts e
  | .phrase .call e, ts => Applies ts e
  | .phrase c e, ts => Reads c ts e
  | .arguments es, ts => es ≠ [] → ListsArguments es ts

theorem Parsed.reads {c : Category} {e : Expr} {ts : List Token} (h : Parsed (.phrase c e) ts) :
    Reads c ts e := by
  cases c with
  | chain l => exact Chains.reads h
  | call => exact Applies.reads h
  | _ => exact h

theorem parsed_of_derives {f : Form} {ts : List Token} (h : Derives f ts) : Parsed f ts := by
  induction h with
  | operand _ ih => exact chains_operand ih.reads
  | link _ hop _ ihl ihr =>
    obtain ⟨hjoins, rfl⟩ := joined_iff.1 hop
    exact Chains.link ihl hjoins ihr.reads
  | assign hn he _ ih => exact Reads.assign (reads_name hn) he ih
  | conditional _ ih => exact Reads.conditional ih
  | choice _ hq _ hc _ ihc ihy ihn => exact Reads.choice ihc.reads hq ihy hc ihn
  | disjunction _ ih => exact ih.reads.disjunction
  | negation hop _ ih => exact Reads.negation (Kind.isNegation_iff.2 hop) ih
  | precrement hop _ ih => exact Reads.precrement (Kind.isCrement_iff.2 hop) ih
  | suffixed d ih =>
    obtain ⟨t, us, rfl, ht⟩ := d.phrase_starts
    exact Reads.suffixed (by simpa [Kind.starts, Form.rank, Category.rank] using ht) ih
  | postcrement _ hop ih => exact ih.reads.postcrement (Kind.isCrement_iff.2 hop)
  | call _ ih => exact ih.reads.call
  | apply _ hl d hn hr ihc iha => exact Applies.apply ihc hl (fits_derived_arguments d iha hn hr)
  | primary _ ih => exact gathers_seed ih (by decide)
  | atom h => exact Reads.atom h
  | grouping hl _ hr ih => exact Reads.grouping hl ih.reads hr
  | noArgument => exact fun h => absurd rfl h
  | oneArgument _ ih => exact fun _ => Reads.oneArgument ih
  | moreArguments _ hc _ ihf iho => exact fun _ => Reads.moreArguments ihf hc (iho (List.cons_ne_nil _ _))

end Parse
end Lox
