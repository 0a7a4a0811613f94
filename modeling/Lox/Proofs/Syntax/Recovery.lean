import Lox.Proofs.Syntax.Landing

/-! Recovery comes to an end in the tokens of a program: each declaration parsed after a fault
passes at least one token, so that the steps allotted suffice. -/
namespace Lox

/-- Recovery does not pass a token of this kind. -/
def Kind.stops (inBlock : Bool) (k : Kind) : Bool :=
  k.resumes || (k = .rightBrace && inBlock)

/-- Recovery from `p` comes to an end at the tokens `us` at the latest. -/
def Parser.BoundedBy (p : Parser) (us : List Token) : Prop :=
  nextKind us = .endOfInput ∨ nextKind us = .rightBrace ∧ 0 < p.blocks ∧ p.start < p.consumed

theorem Parser.BoundedBy.plain {p : Parser} {us : List Token} (h : p.BoundedBy us) :
    (nextKind us).plain = false := by
  obtain h | ⟨h, -⟩ := h <;> rw [h] <;> rfl

theorem Parser.BoundedBy.not_else {p : Parser} {us : List Token} (h : p.BoundedBy us) :
    nextKind us ≠ .kwElse := by
  obtain h | ⟨h, -⟩ := h <;> rw [h] <;> nofun

/-- Recovery stays within the tokens, stops where the parse can go on, and passes the first token
unless it stops there. -/
theorem Parser.skipFrom_lands {k start : Nat} {edge inBlock : Bool} {us : List Token}
    (ts : List Token) : ∀ consumed : Nat, (nextKind us = .endOfInput ∨
      nextKind us = .rightBrace ∧ inBlock = true ∧ start < consumed) → Resumable k edge ts →
    ∃ vs, vs <:+ ts ∧ (skipFrom start inBlock consumed (ts ++ us)).2 = vs ++ us ∧
      Fresh k edge vs ∧ (ts ≠ [] → (nextKind ts).stops inBlock = false → vs.length < ts.length) := by
  induction ts with
  | nil =>
    intro consumed hu _
    refine ⟨[], List.nil_suffix, ?_, fresh_nil k edge, fun h => absurd rfl h⟩
    cases us with
    | nil => rfl
    | cons u us =>
      obtain h | ⟨h, hb, hlt⟩ := hu
      · simp only [List.nil_append, skipFrom, show u.kind = .endOfInput from h, if_true]
      · simp [skipFrom, show u.kind = .rightBrace from h, hb, hlt]
  | cons t ts ih =>
    intro consumed hu hr
    have hend : t.kind ≠ .endOfInput := fun h => by
      have := hr.1
      rwa [Sited, h] at this
    rw [List.cons_append, skipFrom, if_neg hend]
    split
    next hs =>
      refine ⟨ts, List.suffix_cons t ts, rfl, ?_, fun _ _ => Nat.lt_succ_self _⟩
      have := hr.1
      rwa [Sited, hs] at this
    · split
      next hstop =>
        simp only [Bool.and_eq_true] at hstop
        refine ⟨t :: ts, List.suffix_rfl, rfl, fresh_cons rfl ?_, fun _ h => ?_⟩
        · intro h
          rw [h] at hstop
          cases hstop.2
        · rw [nextKind_cons, Kind.stops, hstop.2] at h
          cases h
      · obtain ⟨vs, hvs, hskip, hf, -⟩ := ih (consumed + 1)
          (hu.imp_right fun h => ⟨h.1, h.2.1, Nat.lt_succ_of_lt h.2.2⟩) hr.2
        exact ⟨vs, hvs.trans (List.suffix_cons t ts), hskip, hf,
          fun _ _ => Nat.lt_succ_of_le hvs.length_le⟩

theorem Parser.synchronize_lands {k : Nat} {edge : Bool} {p : Parser} {ts us : List Token}
    (hr : Resumable k edge ts) (hp : p.rest = ts ++ us) (hu : p.BoundedBy us) :
    ∃ vs, vs <:+ ts ∧ p.synchronize.rest = vs ++ us ∧ Fresh k edge vs ∧
      (ts ≠ [] → (nextKind ts).stops (0 < p.blocks) = false → vs.length < ts.length) := by
  have hbound : nextKind us = .endOfInput ∨
      nextKind us = .rightBrace ∧ decide (0 < p.blocks) = true ∧ p.start < p.consumed :=
    hu.imp_right fun ⟨h, hb, hlt⟩ => ⟨h, decide_eq_true hb, hlt⟩
  change ∃ vs, vs <:+ ts ∧ (skipFrom p.start (0 < p.blocks) p.consumed p.rest).2 = vs ++ us ∧ _
  rw [hp]
  exact skipFrom_lands ts p.consumed hbound hr

/-- What a parse can be bounded by, it is bounded by later on. -/
theorem Parser.BoundedBy.of_follows {allowed : Kind → Bool} {p q : Parser} {us : List Token}
    (h : p.BoundedBy us) (hq : p.startingHere.Follows allowed q) :
    (q.startingAt p.start).BoundedBy us := by
  obtain ⟨xs, -, hc, -⟩ := hq.passed
  have hb : q.blocks = p.blocks := hq.blocks
  refine h.imp_right fun ⟨hk, hblocks, hlt⟩ => ⟨hk, hb ▸ hblocks, ?_⟩
  change p.start < q.consumed
  rw [hc]
  exact Nat.lt_of_lt_of_le hlt (Nat.le_add_right _ _)

/-- A statement is one level of nesting. -/
theorem Composes.pos {w : Surroundings} {k : Nat} {closed : Bool} {s : Stmt} {ts : List Token}
    (h : Composes w k (.statement closed s) ts) : 1 ≤ k := by
  cases h <;> exact Nat.succ_pos _

namespace Parse
variable {α : Type}

/-- The step ends normally before the tokens `us`, in a place where the parse can go on, and has
passed a token. -/
def Advances (k : Nat) (ts us : List Token) (r : EStateM.Result Interrupt Parser α) : Prop :=
  ∃ a q vs, r = .ok a q ∧ vs <:+ ts ∧ vs.length < ts.length ∧ q.rest = vs ++ us ∧ Fresh k true vs

/-- The parse can go on behind a token that ends a statement. -/
theorem EndsAt.fresh {k : Nat} {edge : Bool} {p q : Parser} {ts us vs : List Token}
    (h : EndsAt p q) (hr : Resumable k edge ts) (hp : p.rest = ts ++ us) (hq : q.rest = vs ++ us) :
    vs.length < ts.length ∧ Fresh k edge vs := by
  obtain ⟨xs, t, hxs, ht⟩ := h
  have hts : ts = xs ++ t :: vs := by
    rw [hp, hq, ← List.cons_append, ← List.append_assoc] at hxs
    exact List.append_cancel_right hxs
  have hafter : Resumable k edge (t :: vs) := hr.suffix (hts ▸ List.suffix_append xs (t :: vs))
  have hsited := hafter.1
  refine ⟨by rw [hts, List.length_append, List.length_cons]; omega, ?_⟩
  rcases ht with ht | ht <;> rwa [Sited, ht] at hsited

theorem recovering_advances {step : Parse α} {p : Parser} {k : Nat} {ts us : List Token}
    (hs : Steady Kind.passable step) (he : Ends step) (hr : Resumable k true ts)
    (hp : p.rest = ts ++ us) (hu : p.BoundedBy us)
    (hl : Lands ts us (step p.startingHere))
    (hpass : (final (step p.startingHere)).rest.length < p.rest.length ∨
      ts ≠ [] ∧ (nextKind ts).stops (0 < p.blocks) = false) :
    Advances k ts us (recovering step p) := by
  obtain ⟨vs, hvs, hrest⟩ := hl.within
  rw [recovering_apply]
  cases hstep : step p.startingHere with
  | ok a q =>
    rw [hstep] at hrest
    obtain ⟨hlt, hf⟩ := (he hstep).fresh hr hp hrest
    exact ⟨some a, q.startingAt p.start, vs, rfl, hvs, hlt, hrest, hf⟩
  | error e q =>
    rw [hstep] at hrest hpass
    cases e with
    | stalled => exact absurd hstep (hl.halts q)
    | bail =>
      have hfollows := hs.of_error hstep
      have hq : (q.startingAt p.start).rest = vs ++ us := hrest
      obtain ⟨ws, hws, hsync, hf, hlt⟩ :=
        Parser.synchronize_lands (hr.suffix hvs) hq (hu.of_follows hfollows)
      refine ⟨none, (q.startingAt p.start).synchronize, ws, rfl, hws.trans hvs, ?_, hsync, hf⟩
      by_cases hlen : vs.length < ts.length
      · exact Nat.lt_of_le_of_lt hws.length_le hlen
      · -- The step has not passed anything, so recovery passes the first token.
        have heq : vs = ts := hvs.eq_of_length_le (by omega)
        subst heq
        rcases hpass with h | ⟨hne, hstop⟩
        · change q.rest.length < p.rest.length at h
          rw [show q.rest = vs ++ us from hq, hp] at h
          exact absurd h (Nat.lt_irrefl _)
        · have hb : (q.startingAt p.start).blocks = p.blocks := hfollows.blocks
          exact hlt hne (by rw [hb]; exact hstop)

/-- What the parsers of statements and declarations do in the tokens of a program, even if a fault
has led them to a place where the grammar would not have it. -/
structure Recovers (n : Nat) : Prop where
  statement : ∀ {w : Surroundings} {k : Nat} {closed : Bool} {s : Stmt} {ts us : List Token}
    {p : Parser}, Stands k 27 n p (ts ++ us) → Composes w k (.statement closed s) ts →
    MayFollow closed (nextKind us) → Lands ts us (statement n p)
  blockBody : ∀ {k : Nat} {ts us : List Token} {p : Parser} (before : List Stmt),
    Stands k 29 n p (ts ++ us) → Resumable k true ts → Fresh k true ts →
    nextKind us = .rightBrace → 0 < p.blocks → p.start < p.consumed →
    ∃ ss q vs, blockBody n before p = .ok ss q ∧ vs <:+ ts ∧ q.rest = vs ++ us ∧
      nextKind q.rest = .rightBrace
  declaration : ∀ {k : Nat} {t : Token} {ts us : List Token} {p : Parser},
    Stands k 28 n p (t :: ts ++ us) → Resumable k true (t :: ts) → Fresh k true (t :: ts) →
    p.BoundedBy us → (t.kind = .rightBrace → p.blocks = 0) →
    Advances k (t :: ts) us (declaration n p)

namespace Recovers
variable {n k : Nat} {p : Parser} {ts us : List Token}

theorem block (ih : Recovers n) {right : Token} (h : Stands k 30 (n + 1) p (ts ++ right :: us))
    (hr : Resumable k true ts) (hf : Fresh k true ts) (hright : right.kind = .rightBrace)
    (hlt : p.start < p.consumed) : Lands (ts ++ [right]) us (block (n + 1) p) := by
  rw [Parse.block, inBlock]
  refine Lands.bracket ?_ fun q => rfl
  have hnext : nextKind (right :: us) = .rightBrace := hright
  have hstands : Stands k 29 n { p with blocks := p.blocks + 1 } (ts ++ right :: us) :=
    ⟨h.rest, h.room, h.start, by have := h.steps; omega⟩
  obtain ⟨ss, q, vs, hbody, ⟨xs, hxs⟩, hq, hk⟩ :=
    ih.blockBody [] hstands hr hf hnext (Nat.succ_pos _) hlt
  rw [bind_ok hbody]
  cases vs with
  | nil =>
    rw [bind_ok (expect_next hq (by decide) hright)]
    exact lands_ok List.nil_suffix (Parser.pass_one hq)
  | cons v vs =>
    -- A brace within the body has ended it.
    rw [hq] at hk
    rw [bind_ok (expect_next hq (by decide) hk)]
    have hsuffix : vs ++ [right] <:+ ts ++ [right] := ⟨xs ++ [v], by rw [← hxs]; simp⟩
    refine lands_ok hsuffix ?_
    rw [List.append_assoc]
    exact Parser.pass_one hq

theorem functionDeclaration (ih : Recovers n) {name leftParen rightParen left right : Token}
    {names ps : List Token} (h : Stands k 1 (n + 2) p
      (name :: (leftParen :: (ps ++ [rightParen]) ++ left :: (ts ++ [right])) ++ us))
    (hn : name.kind = .identifier) (hlp : leftParen.kind = .leftParen)
    (hp : Parameters names ps) (hmax : names.length ≤ maxArguments)
    (hrp : rightParen.kind = .rightParen) (hl : left.kind = .leftBrace)
    (hr : Resumable k true ts) (hf : Fresh k true ts) (hright : right.kind = .rightBrace) :
    Lands (name :: (leftParen :: (ps ++ [rightParen]) ++ left :: (ts ++ [right]))) us
      (functionDeclaration (n + 2) p) := by
  rw [Parse.functionDeclaration]
  have hlater : Stands k 0 (n + 1) p _ := h.mono (Nat.le_refl k) (by omega)
  refine hlater.expect (by decide) hn fun h => ?_
  refine h.after_fits (fits_parameters hlp hp hmax hrp) (keeps_parameters (n + 1)).toSteady
    (Kind.rank_pos _) (Nat.zero_le _) fun h => ?_
  refine h.expect (by decide) hl fun h₁ => Lands.map _ (Lands.bracket ?_ fun q => rfl)
  rw [List.append_assoc, List.singleton_append] at h₁
  refine ih.block ?_ hr hf hright (Nat.lt_succ_of_le h.start)
  exact ⟨h₁.rest, h₁.room, h₁.start, by have := h₁.steps; omega⟩

/-! Statements with parts. -/

/-- A condition in parentheses after the keyword of a statement. -/
theorem condition {f : Expr → Parse Stmt} {left right : Token} {cs : List Token} {e : Expr}
    {what what' : String} (hl : left.kind = .leftParen) (d : Derives (.phrase .expression e) cs)
    (hr : right.kind = .rightParen) (h : Stands k 0 n p (left :: (cs ++ right :: ts) ++ us))
    (hf : ∀ q : Parser, Stands k 64 n q (ts ++ us) → Lands ts us (f e q)) :
    Lands (left :: (cs ++ right :: ts)) us ((expect .leftParen what >>= fun _ =>
      expression n >>= fun e => expect .rightParen what' >>= fun _ => f e) p) := by
  refine h.expect (by decide) hl fun h => ?_
  refine h.after_fits (fits_expression (parsed_of_derives d).reads) (keeps_expression n).toSteady
    (by rw [List.cons_append, nextKind_cons, hr]; decide) (by decide) fun h => ?_
  refine h.expect (by decide) hr fun h => hf _ (h.mono (Nat.le_refl k) (by omega))

/-- An `else` after the first branch of an `if`, be it its own or one that stands where a fault has
led. -/
theorem elseBranch (ih : Recovers n) {edge : Bool} {e : Expr} {yes : Stmt}
    (h : Stands k 27 n p (ts ++ us)) (hr : Resumable k edge ts)
    (hfollow : ts = [] ∨ edge = true → nextKind us ≠ .kwElse) :
    Lands ts us (elseBranch n e yes p) := by
  by_cases hk : p.current.kind = .kwElse
  · cases ts with
    | nil =>
      rw [Parser.current_kind, h.rest] at hk
      exact absurd hk (hfollow (.inl rfl))
    | cons t ts =>
      have ht : t.kind = .kwElse := by
        rw [Parser.current_cons h.rest] at hk
        exact hk
      have hsited := hr.1
      rw [Sited, ht] at hsited
      obtain ⟨w, closed, s, a, b, rfl, d, hb⟩ := hsited
      have hnext : MayFollow closed (nextKind (b ++ us)) := fun hc => by
        cases b with
        | nil => exact hfollow (.inr ((hb hc).2 rfl))
        | cons u b => exact (hb hc).1
      have hno : Stands k 27 n (p.pass [t]) (a ++ (b ++ us)) := by
        rw [← List.append_assoc]
        exact h.token.mono (Nat.le_refl k) (by omega)
      refine Lands.mono ?_ (List.suffix_cons t (a ++ b))
      rw [Parse.elseBranch, bind_ok (accept_next h.rest rfl (by simp [ht]))]
      exact (ih.statement hno d hnext).append.map _
  · rw [Parse.elseBranch, bind_ok (accept_none (decide_eq_false hk))]
    exact lands_ok List.suffix_rfl h.rest

theorem branch (ih : Recovers n) {w : Surroundings} {closed : Bool} {left right : Token}
    {cs : List Token} {e : Expr} {s : Stmt}
    (h : Stands k 1 (n + 1) p (left :: (cs ++ right :: ts) ++ us)) (hl : left.kind = .leftParen)
    (d : Derives (.phrase .expression e) cs) (hr : right.kind = .rightParen)
    (yes : Composes w k (.statement closed s) ts) (hnext : nextKind us ≠ .kwElse) :
    Lands (left :: (cs ++ right :: ts)) us (ifStatement (n + 1) p) := by
  refine condition hl d hr (h.mono (Nat.le_refl k) (by omega)) fun q hq => ?_
  have hyes := ih.statement (hq.mono (Nat.le_refl k) (by omega)) yes fun _ => hnext
  refine hyes.bind fun s q' hs => ?_
  rw [hs] at hyes
  obtain ⟨vs, hvs, hrest⟩ := hyes.within_ok
  have hq' := hq.after (statementCourse n).statement hs hvs hrest
  exact (ih.elseBranch (hq'.mono (Nat.le_refl k) (by omega)) (yes.resumable.suffix hvs)
    fun _ => hnext).mono hvs

theorem branches (ih : Recovers n) {w : Surroundings} {closed : Bool} {left right other : Token}
    {cs os : List Token} {e : Expr} {s s' : Stmt}
    (h : Stands k 1 (n + 1) p (left :: (cs ++ right :: (ts ++ other :: os)) ++ us))
    (hl : left.kind = .leftParen) (d : Derives (.phrase .expression e) cs)
    (hr : right.kind = .rightParen) (yes : Composes w k (.statement true s) ts)
    (ho : other.kind = .kwElse) (no : Composes w k (.statement closed s') os)
    (hnext : MayFollow closed (nextKind us)) :
    Lands (left :: (cs ++ right :: (ts ++ other :: os))) us (ifStatement (n + 1) p) := by
  refine condition hl d hr (h.mono (Nat.le_refl k) (by omega)) fun q hq => ?_
  rw [List.append_assoc] at hq
  have hyes := ih.statement (hq.mono (Nat.le_refl k) (by omega)) yes nofun
  refine hyes.append.bind fun s q' hs => ?_
  rw [hs] at hyes
  obtain ⟨vs, hvs, hrest⟩ := hyes.within_ok
  have hq' := hq.after (statementCourse n).statement hs hvs hrest
  cases vs with
  | nil =>
    rw [List.nil_append, List.cons_append] at hq'
    have hno : Stands k 27 n (q'.pass [other]) (os ++ us) :=
      hq'.token.mono (Nat.le_refl k) (by omega)
    have hsuffix : os <:+ ts ++ other :: os := (List.suffix_cons other os).trans (List.suffix_append _ _)
    refine Lands.mono ?_ hsuffix
    change Lands os us (Parse.elseBranch n e s q')
    rw [Parse.elseBranch, bind_ok (accept_next hq'.rest rfl (by simp [ho]))]
    exact (ih.statement hno no hnext).map _
  | cons v vs =>
    have hedge : v :: vs = [] ∨ (false = true) → nextKind (other :: os ++ us) ≠ .kwElse := by simp
    exact ((ih.elseBranch (hq'.mono (Nat.le_refl k) (by omega)) (yes.resumable.suffix hvs)
      hedge).mono hvs).append

private theorem loopBody (ih : Recovers n) {w : Surroundings} {closed : Bool} {s : Stmt}
    (g : Stmt → Stmt) (h : Stands k 27 n p (ts ++ us)) (d : Composes w k (.statement closed s) ts)
    (hnext : MayFollow closed (nextKind us)) :
    Lands ts us ((inLoop (Parse.statement n) >>= fun body => pure (g body)) p) := by
  refine Lands.map g (Lands.bracket ?_ fun q => rfl)
  have hstands : Stands k 27 n { p with loops := p.loops + 1 } (ts ++ us) :=
    ⟨h.rest, h.room, h.start, h.steps⟩
  exact ih.statement hstands d hnext

theorem whileLoop (ih : Recovers n) {w : Surroundings} {closed : Bool} {left right : Token}
    {cs : List Token} {e : Expr} {s : Stmt}
    (h : Stands k 1 (n + 1) p (left :: (cs ++ right :: ts) ++ us)) (hl : left.kind = .leftParen)
    (d : Derives (.phrase .expression e) cs) (hr : right.kind = .rightParen)
    (body : Composes w k (.statement closed s) ts) (hnext : MayFollow closed (nextKind us)) :
    Lands (left :: (cs ++ right :: ts)) us (whileStatement (n + 1) p) :=
  condition hl d hr (h.mono (Nat.le_refl k) (by omega)) fun _ hq =>
    ih.loopBody _ (hq.mono (Nat.le_refl k) (by omega)) body hnext

theorem forLoop (ih : Recovers n) {w : Surroundings} {closed : Bool} {left semicolon right : Token}
    {is cs rs : List Token} {init : Option Stmt} {condition increment : Option Expr} {s : Stmt}
    (h : Stands k 1 (n + 1) p (left :: (is ++ (cs ++ semicolon :: (rs ++ right :: ts))) ++ us))
    (hl : left.kind = .leftParen) (hi : Initializer init is) (hc : DerivesOptional condition cs)
    (hs : semicolon.kind = .semicolon) (hn : DerivesOptional increment rs)
    (hr : right.kind = .rightParen) (body : Composes w k (.statement closed s) ts)
    (hnext : MayFollow closed (nextKind us)) :
    Lands (left :: (is ++ (cs ++ semicolon :: (rs ++ right :: ts)))) us (forStatement (n + 1) p) := by
  rw [forStatement_succ]
  have hlater : Stands k 0 n p _ := h.mono (Nat.le_refl k) (by omega)
  refine hlater.expect (by decide) hl fun h => ?_
  refine h.after_fits (fits_forInitializer hi) (keeps_forInitializer n).toSteady (Kind.rank_pos _)
    (by decide) fun h => ?_
  refine h.optional hc hs rfl (by decide) (by omega) fun h => ?_
  refine h.expect (by decide) hs fun h => ?_
  refine h.optional hn hr rfl (by decide) (by omega) fun h => ?_
  refine h.expect (by decide) hr fun h => ?_
  exact ih.loopBody _ (h.mono (Nat.le_refl k) (by omega)) body hnext

private theorem keyword {t : Token} (next : Parse Stmt) (h : Stands k 26 n p (t :: ts ++ us))
    (hs : p.current = t → statementProper n p = next (p.pass [t]))
    (hf : Stands k 58 n (p.pass [t]) (ts ++ us) → Lands ts us (next (p.pass [t]))) :
    Lands (t :: ts) us (statementProper n p) := by
  rw [hs (Parser.current_cons h.rest)]
  exact (hf h.token).mono (List.suffix_cons t ts)

private theorem semicolon {what : String} {s : Stmt} {t : Token} (ht : t.kind = .semicolon)
    (hp : p.rest = [t] ++ us) : Lands [t] us ((expect .semicolon what >>= fun _ => pure s) p) := by
  rw [bind_ok (expect_next hp (by decide) ht)]
  exact lands_ok List.nil_suffix (Parser.pass_one hp)

theorem statementProper_succ (ih : Recovers n) {w : Surroundings} {closed : Bool} {s : Stmt}
    (h : Stands k 26 (n + 1) p (ts ++ us)) (d : Composes w (k + 1) (.statement closed s) ts)
    (hnext : MayFollow closed (nextKind us)) : Lands ts us (statementProper (n + 1) p) := by
  cases d with
  | empty hs =>
    refine keyword (pure Stmt.empty) h (fun hc => ?_) fun h => lands_ok List.suffix_rfl h.rest
    simp only [statementProper, hc, hs]
    rfl
  | expression d hs =>
    have hfits : Fits expressionStatement 0 26 0 _ _ := fits_terminated _ Stmt.expression d hs
    obtain ⟨t, us, rfl, ht⟩ := d.phrase_starts
    rw [statementProper_expression _ (Parser.current_cons h.rest) ht]
    exact (h.fits hfits (keeps_expressionStatement _).toSteady (Kind.rank_pos _) (by decide)).1
  | @print _ _ t _ _ _ hk d hs =>
    have hfits : Fits (fun n => printStatement n t) 0 26 0 _ _ :=
      fits_terminated _ (Stmt.print t) d hs
    refine keyword (printStatement (n + 1) t) h (fun hc => by simp only [statementProper, hc, hk])
      fun h => ?_
    exact (h.fits hfits (keeps_printStatement _ t).toSteady (Kind.rank_pos _) (by decide)).1
  | @breakLoop _ _ t _ _ hk hs =>
    refine keyword (breakStatement t) h (fun hc => by simp only [statementProper, hc, hk])
      fun h => ?_
    rw [breakStatement_eq]
    exact h.demanded fun q h => semicolon hs h.rest
  | @continueLoop _ _ t _ _ hk hs =>
    refine keyword (continueStatement t) h (fun hc => by simp only [statementProper, hc, hk])
      fun h => ?_
    rw [continueStatement_eq]
    exact h.demanded fun q h => semicolon hs h.rest
  | @returnValue _ _ t _ _ _ _ hk d hs =>
    refine keyword (returnStatement (n + 1) t) h (fun hc => by simp only [statementProper, hc, hk])
      fun h => ?_
    rw [returnStatement_eq]
    refine h.demanded fun q h => h.optional d hs rfl (by decide) (by decide) fun h => ?_
    exact semicolon hs h.rest
  | block hl body hr =>
    refine keyword (Parse.block (n + 1) >>= fun body => pure (.block body)) h
      (fun hc => by simp only [statementProper, hc, hl]) fun h' => ?_
    rw [List.append_assoc, List.singleton_append] at h'
    exact (ih.block (h'.mono (Nat.le_refl k) (by omega)) body.resumable body.fresh hr
      (Nat.lt_succ_of_le h.start)).map _
  | branch hk hl d hr yes =>
    refine keyword (ifStatement (n + 1)) h (fun hc => by simp only [statementProper, hc, hk])
      fun h => ?_
    exact ih.branch (h.mono (Nat.le_refl k) (by omega)) hl d hr yes (hnext rfl)
  | branches hk hl d hr yes ho no =>
    refine keyword (ifStatement (n + 1)) h (fun hc => by simp only [statementProper, hc, hk])
      fun h => ?_
    exact ih.branches (h.mono (Nat.le_refl k) (by omega)) hl d hr yes ho no hnext
  | whileLoop hk hl d hr body =>
    refine keyword (whileStatement (n + 1)) h (fun hc => by simp only [statementProper, hc, hk])
      fun h => ?_
    exact ih.whileLoop (h.mono (Nat.le_refl k) (by omega)) hl d hr body hnext
  | forLoop hk hl hi hc hs hn hr body =>
    refine keyword (forStatement (n + 1)) h (fun hc => by simp only [statementProper, hc, hk])
      fun h => ?_
    exact ih.forLoop (h.mono (Nat.le_refl k) (by omega)) hl hi hc hs hn hr body hnext

theorem statement_succ (ih : ∀ m < n + 1, Recovers m) {w : Surroundings} {closed : Bool} {s : Stmt}
    (h : Stands k 27 (n + 1) p (ts ++ us)) (d : Composes w k (.statement closed s) ts)
    (hnext : MayFollow closed (nextKind us)) : Lands ts us (Parse.statement (n + 1) p) := by
  obtain ⟨k, rfl⟩ : ∃ l, k = l + 1 := ⟨k - 1, by have := d.pos; omega⟩
  have hroom := h.room
  have hsteps := h.steps
  obtain ⟨m, rfl⟩ : ∃ m, n = m + 1 := ⟨n - 1, by omega⟩
  rw [Parse.statement_succ]
  refine Lands.nested (by omega) (statementProper_succ (ih m (by omega)) ?_ d hnext)
  exact ⟨h.rest, by rw [Parser.atDepth_depth]; omega, h.start, by omega⟩

/-! Declarations. -/

/-- A declaration of its own starts here. -/
private theorem begun (ih : Recovers n) (h : Stands k 27 n p (ts ++ us)) (hb : Begins k true ts)
    (hu : nextKind us ≠ .kwElse) : Lands ts us (Parse.statement n p) := by
  obtain ⟨w, closed, s, a, b, rfl, d, hfollow⟩ := hb
  rw [List.append_assoc] at h
  refine (ih.statement h d fun hc => ?_).append
  cases b with
  | nil => exact hu
  | cons t b => exact (hfollow hc).1

private theorem begunFunction (ih : Recovers n) {t : Token}
    (h : Stands k 1 (n + 2) (p.pass [t]) (ts ++ us)) (ht : t.kind = .kwFun)
    (hb : BeginsDeclaration k (t :: ts)) :
    Lands ts us (Parse.functionDeclaration (n + 2) (p.pass [t])) := by
  obtain ⟨w, s, a, b, hab, d⟩ := hb
  have hhead {t' : Token} {a' : List Token} (ha : a = t' :: a') : t'.kind = .kwFun := by
    rw [ha] at hab
    cases hab
    exact ht
  cases d with
  | declareVariable d =>
    obtain ⟨t', a', ha, hv⟩ := d.starts
    rw [hhead ha] at hv
    cases hv
  | statement d =>
    obtain ⟨t', a', ha, hs⟩ := d.starts_statement
    rw [hhead ha] at hs
    cases hs
  | @declareFunction _ _ _ name leftParen rightParen left right names ps body ss _ hn hlp hp hmax hrp
      hl d hr =>
    have hts : ts = name :: (leftParen :: (ps ++ [rightParen]) ++ left :: (body ++ [right])) ++ b := by
      cases hab
      simp
    subst hts
    rw [List.append_assoc] at h
    exact (ih.functionDeclaration h hn hlp hp hmax hrp hl d.resumable d.fresh hr).append

/-- A statement without parts starts here, be it complete or not. -/
private theorem plain {t : Token} (h : Stands k 27 (n + 1) p (t :: ts ++ us))
    (ht : nests t.kind = false) (hu : (nextKind us).plain = false) :
    Lands (t :: ts) us (Parse.statement (n + 1) p) := by
  rw [Parse.statement_succ]
  by_cases hd : p.depth < maxNesting
  · refine .nested hd (lands_plainStatement ht h.rest hu ?_)
    have := h.steps
    rw [Parser.atDepth_rest, h.rest]
    omega
  · rw [nested_error (by omega)]
    exact ⟨halts_bail _, t :: ts, List.suffix_rfl, h.rest⟩

theorem declarationProper_lands (ih : ∀ m < n + 2, Recovers m) {t : Token}
    (h : Stands k 27 (n + 1) p (t :: ts ++ us)) (hr : Resumable k true (t :: ts))
    (hf : Fresh k true (t :: ts)) (hplain : (nextKind us).plain = false)
    (helse : nextKind us ≠ .kwElse) : Lands (t :: ts) us (declarationProper (n + 1) p) := by
  have hsited := hr.1
  have hafter : Stands k 59 (n + 1) (p.pass [t]) (ts ++ us) := h.token
  unfold declarationProper
  rw [Parser.current_cons h.rest]
  split
  next =>
    refine (lands_plain (keeps_varDeclaration (n + 1)).toSteady ?_ hafter.rest hplain).mono
      (List.suffix_cons t ts)
    refine affords_varDeclaration (n + 1) _ ?_
    have := hafter.steps
    rw [hafter.rest]
    omega
  next hk =>
    rw [Sited, hk] at hsited
    have hsteps := h.steps
    obtain ⟨m, rfl⟩ : ∃ m, n = m + 1 := ⟨n - 1, by omega⟩
    exact (begunFunction (ih m (by omega)) (hafter.mono (Nat.le_refl k) (by omega)) hk hsited).mono
      (List.suffix_cons t ts)
  next hk =>
    rw [Sited, hk] at hsited
    exact hsited.elim
  next =>
    cases hn : nests t.kind with
    | false => exact plain h hn hplain
    | true =>
      have hb : Begins k true (t :: ts) := by
        simp only [nests, Bool.or_eq_true, decide_eq_true_eq] at hn
        rcases hn with ((hk | hk) | hk) | hk
        · exact hf hk
        all_goals rwa [Sited, hk] at hsited
      exact (ih (n + 1) (by omega)).begun h hb helse

theorem declarationProper_passes {t : Token} (h : Stands k 27 (n + 1) p (t :: ts ++ us))
    (hs : Sited k true t ts) (ht : t.kind.resumes = true) :
    (final (declarationProper (n + 1) p)).rest.length < p.rest.length := by
  have hcur : p.current = t := Parser.current_cons h.rest
  refine declarationProper_passes_keyword (hcur ▸ ht) (fun hk => ?_) fun hk => ⟨Nat.succ_pos n, ?_⟩
  · rw [hcur] at hk
    rw [Sited, hk] at hs
    exact hs
  · have hroom : 1 ≤ k := by
      simp only [hcur, Kind.startsKeywordStatement, Bool.or_eq_true, decide_eq_true_eq,
        or_assoc] at hk
      rcases hk with hk | hk | hk | hk | hk <;> rw [Sited, hk] at hs
      · exact hs
      · exact hs
      all_goals
        obtain ⟨w, closed, s, a, b, -, d, -⟩ := hs
        exact d.pos
    exact Nat.lt_of_lt_of_le (Nat.lt_add_of_pos_right hroom) h.room

theorem declaration_succ (ih : ∀ m < n + 1, Recovers m) {t : Token}
    (h : Stands k 28 (n + 1) p (t :: ts ++ us)) (hr : Resumable k true (t :: ts))
    (hf : Fresh k true (t :: ts)) (hu : p.BoundedBy us) (hb : t.kind = .rightBrace → p.blocks = 0) :
    Advances k (t :: ts) us (Parse.declaration (n + 1) p) := by
  have hsteps := h.steps
  obtain ⟨m, rfl⟩ : ∃ m, n = m + 1 := ⟨n - 1, by omega⟩
  have hhere : Stands k 27 (m + 1) p.startingHere (t :: ts ++ us) :=
    ⟨h.rest, h.room, Nat.le_refl _, by omega⟩
  rw [Parse.declaration_succ]
  refine recovering_advances (statementCourse _).declarationProper.toSteady
    (ends_declarationProper _) hr h.rest hu (declarationProper_lands ih hhere hr hf hu.plain hu.not_else) ?_
  cases hstop : t.kind.resumes with
  | true => exact .inl (declarationProper_passes hhere hr.1 hstop)
  | false =>
    refine .inr ⟨nofun, ?_⟩
    rw [nextKind_cons, Kind.stops, hstop]
    by_cases hk : t.kind = .rightBrace
    · simp [hb hk]
    · simp [hk]

/-- A declaration has been passed, and the steps left suffice for the others. -/
private theorem round {o : Option Stmt} {q : Parser} {vs : List Token}
    (h : Stands k 29 (n + 1) p (ts ++ us)) (hq : Parse.declaration n p = .ok o q) (hvs : vs <:+ ts)
    (hlen : vs.length < ts.length) (hrest : q.rest = vs ++ us) : Stands k 29 n q (vs ++ us) := by
  have hafter := h.after (statementCourse n).declaration hq hvs hrest
  refine ⟨hrest, hafter.room, hafter.start, ?_⟩
  have := h.steps
  rw [List.length_append] at *
  omega

private theorem not_end {t : Token} (h : Stands k 29 (n + 1) p (t :: ts ++ us))
    (hr : Resumable k true (t :: ts)) : p.current.kind ≠ .endOfInput := fun he => by
  have hsited := hr.1
  rwa [Sited, ← Parser.current_cons h.rest, he] at hsited

theorem blockBody_succ (ih : Recovers n) (before : List Stmt) (h : Stands k 29 (n + 1) p (ts ++ us))
    (hr : Resumable k true ts) (hf : Fresh k true ts) (hnext : nextKind us = .rightBrace)
    (hb : 0 < p.blocks) (hlt : p.start < p.consumed) :
    ∃ ss q vs, Parse.blockBody (n + 1) before p = .ok ss q ∧ vs <:+ ts ∧ q.rest = vs ++ us ∧
      nextKind q.rest = .rightBrace := by
  by_cases hk : p.current.kind = .rightBrace
  · refine ⟨before.reverse, p, ts, ?_, List.suffix_rfl, h.rest, hk⟩
    rw [Parse.blockBody, bind_ok (check_apply .rightBrace p), decide_eq_true hk]
    rfl
  · cases ts with
    | nil =>
      rw [Parser.current_kind, h.rest] at hk
      exact absurd hnext hk
    | cons t ts =>
      have hcur : p.current = t := Parser.current_cons h.rest
      obtain ⟨o, q, vs, hq, hvs, hlen, hrest, hfresh⟩ :=
        ih.declaration (h.mono (Nat.le_refl k) (by omega)) hr hf (.inr ⟨hnext, hb, hlt⟩)
          fun ht => absurd (hcur ▸ ht) hk
      have hfollows := (statementCourse n).declaration.of_ok hq
      obtain ⟨xs, -, hcons, -⟩ := hfollows.passed
      have others (before : List Stmt) := ih.blockBody before (round h hq hvs hlen hrest)
        (hr.suffix hvs) hfresh hnext (hfollows.blocks ▸ hb) (by rw [hfollows.start, hcons]; omega)
      rw [Parse.blockBody_succ n before hk (not_end h hr), bind_ok hq]
      cases o with
      | none =>
        obtain ⟨ss, r, ws, hss, hws, hrest⟩ := others before
        exact ⟨ss, r, ws, hss, hws.trans hvs, hrest⟩
      | some s =>
        obtain ⟨ss, r, ws, hss, hws, hrest⟩ := others (s :: before)
        exact ⟨ss, r, ws, hss, hws.trans hvs, hrest⟩

end Recovers

theorem recovers (n : Nat) : Recovers n := by
  induction n using Nat.strongRecOn with
  | ind n ih =>
    cases n with
    | zero =>
      refine ⟨fun h => ?_, fun _ h => ?_, fun h => ?_⟩ <;>
        exact absurd h.steps (Nat.not_le_of_gt (Nat.succ_pos _))
    | succ n =>
      exact ⟨fun h => Recovers.statement_succ ih h,
        fun before h => (ih n (Nat.lt_succ_self n)).blockBody_succ before h,
        fun h => Recovers.declaration_succ ih h⟩

/-- The steps allotted suffice for a program, whatever faults are found in it. -/
theorem program_halts {k : Nat} (n : Nat) : ∀ {ts us : List Token} {p : Parser} (before : List Stmt),
    Stands k 29 n p (ts ++ us) → Resumable k true ts → Fresh k true ts →
    nextKind us = .endOfInput → p.blocks = 0 → ∃ ss q, program n before p = .ok ss q := by
  induction n with
  | zero => exact fun before h => absurd h.steps (Nat.not_le_of_gt (Nat.succ_pos _))
  | succ n ih =>
    intro ts us p before h hr hf hnext hb
    cases ts with
    | nil =>
      exact ⟨before.reverse, p, program_end before (Nat.succ_pos n) (h.rest ▸ hnext)⟩
    | cons t ts =>
      obtain ⟨o, q, vs, hq, hvs, hlen, hrest, hfresh⟩ :=
        (recovers n).declaration (h.mono (Nat.le_refl k) (by omega)) hr hf (.inl hnext) fun _ => hb
      have hblocks : q.blocks = 0 := ((statementCourse n).declaration.of_ok hq).blocks.trans hb
      have others (before : List Stmt) :=
        ih before (Recovers.round h hq hvs hlen hrest) (hr.suffix hvs) hfresh hnext hblocks
      rw [program_succ n before (Recovers.not_end h hr), bind_ok hq]
      cases o <;> exact others _

end Parse
end Lox
