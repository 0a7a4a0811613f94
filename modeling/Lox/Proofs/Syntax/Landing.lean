import Lox.Proofs.Syntax.ExpressionAllotment
import Lox.Proofs.Syntax.Resumable
import Lox.Proofs.Syntax.StatementCompleteness
import Lox.Proofs.Syntax.StatementEnds

/-! Steps that come to an end and do not go beyond the tokens that they were meant for, whatever
faults they find. -/
namespace Lox

/-- The keywords of statements at which recovery stops. -/
def Kind.startsKeywordStatement (k : Kind) : Bool :=
  k = .kwPrint || k = .kwReturn || k = .kwIf || k = .kwWhile || k = .kwFor

theorem Kind.resumes_cases {k : Kind} (h : k.resumes = true) :
    k = .kwVar ∨ k = .kwFun ∨ k = .kwClass ∨ k.startsKeywordStatement = true := by
  cases k <;> first | decide | cases h

/-- What is left when a step stops between `us` and `ts ++ us`. -/
theorem exists_suffix_append {r ts us : List Token} (h : us <:+ r) (h' : r <:+ ts ++ us) :
    ∃ vs, vs <:+ ts ∧ r = vs ++ us := by
  obtain ⟨vs, rfl⟩ := h
  obtain ⟨xs, hxs⟩ := h'
  rw [← List.append_assoc] at hxs
  exact ⟨vs, ⟨xs, List.append_cancel_right hxs⟩, rfl⟩

/-- Tokens of a kind that is not passed stay where they are. -/
theorem Parser.Follows.within {allowed : Kind → Bool} {p q : Parser} {ts us : List Token}
    (h : p.Follows allowed q) (hp : p.rest = ts ++ us) (hu : allowed (nextKind us) = false) :
    ∃ vs, vs <:+ ts ∧ q.rest = vs ++ us := by
  obtain ⟨xs, hxs, -, ha⟩ := h.passed
  rw [hp] at hxs
  obtain ⟨c, rfl, hc⟩ | ⟨c, rfl, hc⟩ := List.append_eq_append_iff.1 hxs
  · cases c with
    | nil => exact ⟨[], List.nil_suffix, hc.symm⟩
    | cons t c =>
      have := ha t (by simp)
      rw [hc] at hu
      rw [List.cons_append, nextKind_cons, this] at hu
      cases hu
  · exact ⟨c, List.suffix_append xs c, hc⟩

namespace Parse
variable {α β : Type}

/-- The step halts, and stops before the tokens `us` at the latest. -/
structure Lands (ts us : List Token) (r : EStateM.Result Interrupt Parser α) : Prop where
  halts : Halts r
  within : ∃ vs, vs <:+ ts ∧ (final r).rest = vs ++ us

theorem Lands.bind {x : Parse α} {f : α → Parse β} {p : Parser} {ts us : List Token}
    (hx : Lands ts us (x p)) (hf : ∀ a q, x p = .ok a q → Lands ts us (f a q)) :
    Lands ts us ((x >>= f) p) := by
  refine ⟨hx.halts.bind fun a q h => (hf a q h).halts, ?_⟩
  cases h : x p with
  | ok a q =>
    rw [bind_ok h]
    exact (hf a q h).within
  | error e q =>
    rw [bind_error h]
    have := hx.within
    rwa [h] at this

theorem Lands.within_ok {ts us : List Token} {a : α} {q : Parser}
    (h : Lands ts us (.ok a q : EStateM.Result Interrupt Parser α)) :
    ∃ vs, vs <:+ ts ∧ q.rest = vs ++ us := h.within

theorem Lands.mono {r : EStateM.Result Interrupt Parser α} {ts us vs : List Token}
    (h : Lands vs us r) (hs : vs <:+ ts) : Lands ts us r := by
  obtain ⟨xs, hxs, hr⟩ := h.within
  exact ⟨h.halts, xs, hxs.trans hs, hr⟩

theorem Lands.append {r : EStateM.Result Interrupt Parser α} {ts us vs : List Token}
    (h : Lands ts (vs ++ us) r) : Lands (ts ++ vs) us r := by
  obtain ⟨xs, ⟨ys, hys⟩, hr⟩ := h.within
  refine ⟨h.halts, xs ++ vs, ⟨ys, ?_⟩, ?_⟩
  · rw [← List.append_assoc, hys]
  · rw [hr, List.append_assoc]

theorem lands_ok {a : α} {q : Parser} {ts us vs : List Token} (hs : vs <:+ ts)
    (hq : q.rest = vs ++ us) : Lands ts us (.ok a q : EStateM.Result Interrupt Parser α) :=
  ⟨halts_ok _ _, vs, hs, hq⟩

theorem Lands.map {x : Parse α} {p : Parser} {ts us : List Token} (g : α → β)
    (h : Lands ts us (x p)) : Lands ts us ((x >>= fun a => pure (g a)) p) := by
  refine h.bind fun a q hq => ?_
  rw [hq] at h
  obtain ⟨vs, hvs, hrest⟩ := h.within_ok
  exact lands_ok hvs hrest

/-- A step of an expression lands, and takes exactly the expression if it ends normally. -/
theorem Fits.lands {step : Nat → Parse α} {allowed : Kind → Bool} {rank cost slack n : Nat}
    {ts us : List Token} {a : α} {p : Parser} (h : Fits step rank cost slack ts a)
    (hc : Steady allowed (step n)) (hp : p.rest = ts ++ us) (hk : rank < (nextKind us).rank)
    (hn : 32 * p.rest.length + cost ≤ n) (hd : p.depth ≤ maxNesting) :
    Lands ts us (step n p) ∧ ∀ b q, step n p = .ok b q → b = a ∧ q = p.pass ts := by
  obtain ⟨room, -, htakes⟩ := h
  obtain ⟨hok, hup⟩ := @htakes n p us hp hk hn hd
  by_cases hr : p.depth + room ≤ maxNesting
  · rw [hok hr]
    refine ⟨lands_ok List.nil_suffix (Parser.pass_rest hp), fun b q h => ?_⟩
    cases h
    exact ⟨rfl, rfl⟩
  · obtain ⟨t, q, hq, -, hs⟩ := hup (by omega)
    have hfollows := hc.of_error hq
    rw [hq]
    refine ⟨⟨halts_bail q, exists_suffix_append hs (hp ▸ hfollows.suffix)⟩, nofun⟩

theorem Lands.nested {step : Parse α} {p : Parser} {ts us : List Token}
    (hd : p.depth < maxNesting) (h : Lands ts us (step (p.atDepth (p.depth + 1)))) :
    Lands ts us (nested step p) := by
  refine ⟨h.halts.nested, ?_⟩
  have := h.within
  rw [nested_ok hd]
  cases hs : step (p.atDepth (p.depth + 1)) <;> rw [hs] at this <;> exact this

theorem Lands.bracket {enter : Parser → Parser} {leave : Parser → Parser → Parser} {step : Parse α}
    {p : Parser} {ts us : List Token} (h : Lands ts us (step (enter p)))
    (hl : ∀ q, (leave p q).rest = q.rest) : Lands ts us (bracket enter leave step p) := by
  rw [bracket_apply]
  cases hs : step (enter p) with
  | ok a q =>
    rw [hs] at h
    obtain ⟨vs, hvs, hq⟩ := h.within
    exact lands_ok hvs ((hl q).trans hq)
  | error e q =>
    rw [hs] at h
    obtain ⟨vs, hvs, hq⟩ := h.within
    refine ⟨fun r hr => ?_, vs, hvs, (hl q).trans hq⟩
    cases hr
    exact h.halts q rfl

/-- The parse stands before the tokens, with room for `k` more levels of nesting and enough steps
left. -/
structure Stands (k cost n : Nat) (p : Parser) (ts : List Token) : Prop where
  rest : p.rest = ts
  room : p.depth + k ≤ maxNesting
  start : p.start ≤ p.consumed
  steps : 32 * ts.length + cost ≤ n

theorem Stands.pass {k c d n : Nat} {p : Parser} {ts us : List Token}
    (h : Stands k c n p (ts ++ us)) (hd : d ≤ c + 32 * ts.length) : Stands k d n (p.pass ts) us where
  rest := Parser.pass_rest h.rest
  room := h.room
  start := Nat.le_trans h.start (Nat.le_add_right _ _)
  steps := by
    have := h.steps
    rw [List.length_append] at this
    omega

/-- The parse stands behind the next token. -/
theorem Stands.token {k c n : Nat} {p : Parser} {t : Token} {ts : List Token}
    (h : Stands k c n p (t :: ts)) : Stands k (c + 32) n (p.pass [t]) ts := by
  rw [← List.singleton_append] at h
  exact h.pass (Nat.le_refl _)

theorem Stands.mono {k l c d m n : Nat} {p : Parser} {ts : List Token} (h : Stands k c n p ts)
    (hk : l ≤ k) (hn : d + n ≤ c + m) : Stands l d m p ts where
  rest := h.rest
  room := Nat.le_trans (Nat.add_le_add_left hk _) h.room
  start := h.start
  steps := by
    have := h.steps
    omega

/-- The parse stands where a step has ended. -/
theorem Stands.after {step : Parse α} {allowed : Kind → Bool} {k c n : Nat} {p q : Parser} {a : α}
    {ts us vs : List Token} (h : Stands k c n p (ts ++ us)) (hs : Keeps allowed step)
    (hq : step p = .ok a q) (hvs : vs <:+ ts) (hrest : q.rest = vs ++ us) :
    Stands k c n q (vs ++ us) where
  rest := hrest
  room := by
    rw [hs.depth_of_ok hq]
    exact h.room
  start := by
    have hfollows := hs.of_ok hq
    obtain ⟨xs, -, hc, -⟩ := hfollows.passed
    rw [hfollows.start, hc]
    exact Nat.le_trans h.start (Nat.le_add_right _ _)
  steps := by
    have := h.steps
    have := hvs.length_le
    rw [List.length_append] at *
    omega

section Stands
variable {k c n : Nat} {p : Parser} {ts us vs : List Token}

/-- A step after a token that it is about to take. -/
theorem Stands.expect {kind : Kind} {what : String} {f : Token → Parse β} {t : Token}
    (h : Stands k c n p (t :: ts ++ us)) (hend : kind ≠ .endOfInput) (ht : t.kind = kind)
    (hf : Stands k (c + 32) n (p.pass [t]) (ts ++ us) → Lands ts us (f t (p.pass [t]))) :
    Lands (t :: ts) us ((expect kind what >>= f) p) := by
  rw [bind_ok (expect_next h.rest hend ht)]
  exact (hf h.token).mono (List.suffix_cons t ts)

/-- A step that is about to take an expression. -/
theorem Stands.fits {x : Nat → Parse α} {allowed : Kind → Bool} {rank cost slack : Nat} {a : α}
    (h : Stands k c n p (ts ++ us)) (hx : Fits x rank cost slack ts a) (hs : Steady allowed (x n))
    (hk : rank < (nextKind us).rank) (hc : cost ≤ c) :
    Lands ts us (x n p) ∧ ∀ b q, x n p = .ok b q → b = a ∧ q = p.pass ts := by
  refine hx.lands hs h.rest hk ?_ (Nat.le_trans (Nat.le_add_right _ _) h.room)
  have := h.steps
  rw [h.rest]
  omega

/-- A step after an expression that it is about to take. -/
theorem Stands.after_fits {x : Nat → Parse α} {f : α → Parse β} {allowed : Kind → Bool}
    {rank cost slack : Nat} {a : α} (h : Stands k c n p (ts ++ us ++ vs))
    (hx : Fits x rank cost slack ts a) (hs : Steady allowed (x n))
    (hk : rank < (nextKind (us ++ vs)).rank) (hc : cost ≤ c)
    (hf : Stands k (c + 32 * ts.length) n (p.pass ts) (us ++ vs) → Lands us vs (f a (p.pass ts))) :
    Lands (ts ++ us) vs ((x n >>= f) p) := by
  rw [List.append_assoc] at h
  obtain ⟨hlands, hexact⟩ := h.fits hx hs hk hc
  refine hlands.append.bind fun b q hb => ?_
  obtain ⟨rfl, rfl⟩ := hexact b q hb
  exact (hf (h.pass (Nat.le_refl _))).mono (List.suffix_append ts us)

/-- A step after a clause that may be missing. -/
theorem Stands.optional {stop : Kind} {f : Option Expr → Parse β} {o : Option Expr} {t : Token}
    (h : Stands k c n p (ts ++ t :: us ++ vs)) (d : DerivesOptional o ts) (ht : t.kind = stop)
    (hstop : stop.starts 12 = false) (hrank : 12 < stop.rank) (hc : 26 ≤ c)
    (hf : Stands k (c + 32 * ts.length) n (p.pass ts) (t :: us ++ vs) →
      Lands (t :: us) vs (f o (p.pass ts))) :
    Lands (ts ++ t :: us) vs ((optionalExpression stop n >>= f) p) := by
  cases d with
  | none =>
    rw [bind_ok (optionalExpression_none n h.rest ht)]
    exact hf h
  | some d =>
    exact h.after_fits (fits_optionalExpression d hstop) (keeps_optionalExpression stop n).toSteady
      (by rw [List.cons_append, nextKind_cons, ht]; exact hrank) hc hf

theorem Stands.demanded {holds : Parser → Bool} {error : SyntaxError} {t : Token}
    {f : Unit → Parse β} (h : Stands k c n p (ts ++ us))
    (hf : ∀ q : Parser, Stands k c n q (ts ++ us) → Lands ts us (f () q)) :
    Lands ts us ((demand holds error t >>= f) p) := by
  rw [bind_ok (rfl : demand holds error t p = .ok () _)]
  split
  · exact hf p h
  · exact hf _ ⟨h.rest, h.room, h.start, h.steps⟩

end Stands

/-! Statements without parts. -/

theorem affords_terminated (n : Nat) (what : String) (g : Expr → α) : Affords 26 n
    (expression n >>= fun e => expect .semicolon what >>= fun _ => pure (g e)) := fun p hn =>
  ((expressionAllotment n).expression p hn).bind fun _ q _ =>
    (halts_expect _ _ q).bind fun _ _ _ => halts_ok _ _

theorem affords_optional (stop : Kind) (n : Nat) : Affords 26 n (optionalExpression stop n) := by
  intro p hn
  rw [optionalExpression, bind_ok (check_apply stop p)]
  split
  · exact halts_ok _ _
  · exact ((expressionAllotment n).expression p hn).map some

theorem affords_varDeclaration (n : Nat) : Affords 26 n (varDeclaration n) := by
  intro p hn
  refine (halts_expect _ _ p).bind fun name q hq => (halts_accept _ q).bind fun o r hr => ?_
  obtain ⟨-, hp, rfl⟩ := expect_eq_ok (by decide) hq
  rw [hp, List.length_cons] at hn
  cases o with
  | none => exact (halts_expect _ _ r).bind fun _ _ _ => halts_ok _ _
  | some _ =>
    have := accept_some_length rfl hr
    exact affords_terminated n _ _ r (by omega)

theorem halts_demanded {holds : Parser → Bool} {error : SyntaxError} {t : Token}
    {f : Unit → Parse α} {p : Parser} (h : ∀ q : Parser, q.rest = p.rest → Halts (f () q)) :
    Halts ((demand holds error t >>= f) p) := by
  refine Halts.bind (x := demand holds error t) (halts_ok _ _) fun _ q hq => h q ?_
  unfold demand at hq
  cases hq
  split <;> rfl

/-- A step that passes no brace lands before a brace and before the end. -/
theorem lands_plain {step : Parse α} {p : Parser} {ts us : List Token} (hs : Steady Kind.plain step)
    (hh : Halts (step p)) (hp : p.rest = ts ++ us) (hu : (nextKind us).plain = false) :
    Lands ts us (step p) :=
  ⟨hh, (hs.follows p).within hp hu⟩

/-- The kinds that start a statement with parts. -/
def nests (k : Kind) : Bool := k = .leftBrace || k = .kwIf || k = .kwWhile || k = .kwFor

theorem lands_plainStatement {n : Nat} {p : Parser} {t : Token} {ts us : List Token}
    (ht : nests t.kind = false) (hp : p.rest = t :: ts ++ us) (hu : (nextKind us).plain = false)
    (hn : 32 * p.rest.length + 26 ≤ n) : Lands (t :: ts) us (statementProper n p) := by
  have hcur : p.current = t := Parser.current_cons hp
  have hrest : (p.pass [t]).rest = ts ++ us := Parser.pass_one hp
  have hlen : p.rest.length = (p.pass [t]).rest.length + 1 := by rw [hrest, hp]; simp
  have first {step : Parse Stmt} (hs : Keeps Kind.plain step) (hh : Halts (step (p.pass [t]))) :
      Lands (t :: ts) us (step (p.pass [t])) :=
    (lands_plain hs.toSteady hh hrest hu).mono (List.suffix_cons t ts)
  have semicolon {what : String} {s : Stmt} (q : Parser) :
      Halts ((expect .semicolon what >>= fun _ => pure s) q) :=
    (halts_expect _ _ q).bind fun _ _ _ => halts_ok _ _
  unfold statementProper
  rw [hcur]
  dsimp only
  split
  next => exact first (keeps_printStatement n t) (affords_terminated n _ _ _ (by omega))
  next hk => rw [hk] at ht; cases ht
  next hk => rw [hk] at ht; cases ht
  next hk => rw [hk] at ht; cases ht
  next hk => rw [hk] at ht; cases ht
  next =>
    refine first (keeps_breakStatement t) ?_
    rw [breakStatement_eq]
    exact halts_demanded fun q _ => semicolon q
  next =>
    refine first (keeps_continueStatement t) ?_
    rw [continueStatement_eq]
    exact halts_demanded fun q _ => semicolon q
  next =>
    refine first (keeps_returnStatement n t) ?_
    rw [returnStatement_eq]
    exact halts_demanded fun q hq => (affords_optional _ n q (by rw [hq]; omega)).bind
      fun _ r _ => semicolon r
  next => exact lands_ok (List.suffix_cons t ts) hrest
  next =>
    exact lands_plain (keeps_expressionStatement n).toSteady (affords_terminated n _ _ p hn) hp hu

/-- A statement that starts with a keyword at which recovery stops passes the keyword. -/
theorem statement_passes {n : Nat} {p : Parser} (hd : p.depth < maxNesting)
    (hk : p.current.kind.startsKeywordStatement = true) :
    (final (statement (n + 1) p)).rest.length < p.rest.length := by
  simp only [Kind.startsKeywordStatement, Bool.or_eq_true, decide_eq_true_eq, or_assoc] at hk
  have hend : p.current.kind ≠ .endOfInput := by rcases hk with h | h | h | h | h <;> simp [h]
  have hlen := length_pass_current hend
  have first {step : Parse Stmt} {allowed : Kind → Bool} (hs : Keeps allowed step) :
      (final (step ((p.atDepth (p.depth + 1)).pass [p.current]))).rest.length < p.rest.length := by
    have := (hs.follows ((p.atDepth (p.depth + 1)).pass [p.current])).length_le
    change _ ≤ (p.pass [p.current]).rest.length at this
    omega
  have proper : (final (statementProper n (p.atDepth (p.depth + 1)))).rest.length <
      p.rest.length := by
    have hcur : (p.atDepth (p.depth + 1)).current = p.current := rfl
    unfold statementProper
    rw [hcur]
    rcases hk with h | h | h | h | h <;> simp only [h]
    · exact first (keeps_printStatement n p.current)
    · exact first (keeps_returnStatement n p.current)
    · exact first (statementCourse n).ifStatement
    · exact first (statementCourse n).whileStatement
    · exact first (statementCourse n).forStatement
  rw [statement_succ, nested_ok hd]
  cases hs : statementProper n (p.atDepth (p.depth + 1)) <;> rw [hs] at proper <;> exact proper

/-- A declaration that starts with a keyword at which recovery stops passes the keyword. -/
theorem declarationProper_passes_keyword {n : Nat} {p : Parser}
    (hk : p.current.kind.resumes = true) (hclass : p.current.kind ≠ .kwClass)
    (hroom : p.current.kind.startsKeywordStatement = true → 0 < n ∧ p.depth < maxNesting) :
    (final (declarationProper n p)).rest.length < p.rest.length := by
  have hend : p.current.kind ≠ .endOfInput := by
    intro he
    rw [he] at hk
    cases hk
  have hlen := length_pass_current hend
  have first {step : Parse Stmt} {allowed : Kind → Bool} (hs : Keeps allowed step) :
      (final (step (p.pass [p.current]))).rest.length < p.rest.length := by
    have := (hs.follows (p.pass [p.current])).length_le
    omega
  unfold declarationProper
  split
  next => exact first (keeps_varDeclaration n)
  next => exact first (statementCourse n).functionDeclaration
  next hc => exact absurd hc hclass
  next hv hf hc =>
    have hkeyword : p.current.kind.startsKeywordStatement = true :=
      (Kind.resumes_cases hk).elim (absurd · hv) fun h => h.elim (absurd · hf) fun h =>
        h.elim (absurd · hc) id
    obtain ⟨hn, hd⟩ := hroom hkeyword
    obtain ⟨n, rfl⟩ : ∃ m, n = m + 1 := ⟨n - 1, by omega⟩
    exact statement_passes hd hkeyword

end Parse
end Lox
