import Lox.Proofs.Syntax.Extension
import Lox.Proofs.Syntax.Progress

/-! A program is parsed to its end in the steps allotted to it, or in no number of steps. -/
namespace Lox

/-- A parse that does not get on is here: at a `class` behind the first token, or at a statement
where too much nesting has been reported. -/
structure Parser.HeldUp (p : Parser) : Prop where
  behind : 0 < p.consumed
  token : p.current.kind = .kwClass ∨
    p.current.kind.startsKeywordStatement = true ∧ ⟨.tooDeep, p.current⟩ ∈ p.faults

theorem Parser.HeldUp.current_ne_end {p : Parser} (h : p.HeldUp) :
    p.current.kind ≠ .endOfInput := by
  intro hend
  obtain hk | ⟨hk, -⟩ := h.token <;> rw [hend] at hk <;> cases hk

/-- A token that is next, but was not at first, stands behind the first one. -/
theorem Parser.Follows.current_mem_tail {tokens : List Token} {allowed : Kind → Bool} {q : Parser}
    (h : Parser.Follows allowed { rest := tokens } q) (hbehind : 0 < q.consumed)
    (hend : q.current.kind ≠ .endOfInput) : q.current ∈ tokens.tail := by
  obtain ⟨ts, hts, hconsumed, -⟩ := h.passed
  rw [Parser.rest_eq_cons hend] at hts
  cases ts with
  | nil =>
    rw [hconsumed] at hbehind
    cases hbehind
  | cons t ts =>
    rw [show tokens = t :: ts ++ q.current :: (q.pass [q.current]).rest from hts]
    exact List.mem_append_right ts List.mem_cons_self

namespace Parse
variable {α β : Type} {n : Nat} {p q : Parser}

/-- No number of steps suffices, and with `n` steps the parse ends where it does not get on. -/
structure Blocked (x : Nat → Parse α) (n : Nat) (p : Parser) : Prop where
  endless : ∀ k, ¬ Halts (x k p)
  place : (final (x n p)).HeldUp

/-- The parse does not use up its `n` steps, unless no number of steps suffices. -/
def Resolves (x : Nat → Parse α) (n : Nat) (p : Parser) : Prop := Halts (x n p) ∨ Blocked x n p

theorem exists_of_not_halts {r : EStateM.Result Interrupt Parser α} (h : ¬ Halts r) :
    ∃ q, r = .error .stalled q :=
  Classical.byContradiction fun hr => h fun q hq => hr ⟨q, hq⟩

theorem Halts.of_bind {x : Parse α} {f : α → Parse β} (h : Halts ((x >>= f) p)) : Halts (x p) :=
  fun q hq => h q (bind_error hq)

theorem halts_bracket_iff {enter : Parser → Parser} {leave : Parser → Parser → Parser}
    {step : Parse α} : Halts (bracket enter leave step p) ↔ Halts (step (enter p)) := by
  rw [bracket_apply]
  cases hs : step (enter p) with
  | ok a q => exact ⟨fun _ => halts_ok _ _, fun _ => halts_ok _ _⟩
  | error e q =>
    constructor <;> intro hhalts r hr <;> cases hr
    · exact hhalts _ rfl
    · exact hhalts q rfl

namespace Resolves
variable {x y : Nat → Parse α}

theorem of_eq (h : ∀ k, x k p = y k q) (hy : Resolves y n q) : Resolves x n p := by
  refine hy.imp (fun hhalts => h n ▸ hhalts) fun hblocked => ⟨fun k => ?_, h n ▸ hblocked.place⟩
  rw [h]
  exact hblocked.endless k

/-- A parse with one step more. -/
theorem succ (hzero : x 0 p = .error .stalled p) (h : ∀ k, x (k + 1) p = y k q)
    (hy : Resolves y n q) : Resolves x (n + 1) p := by
  refine hy.imp (fun hhalts => h n ▸ hhalts) fun hblocked => ⟨fun k => ?_, h n ▸ hblocked.place⟩
  cases k with
  | zero =>
    rw [hzero]
    exact fun hhalts => hhalts p rfl
  | succ k =>
    rw [h]
    exact hblocked.endless k

theorem bind {f : Nat → α → Parse β} (hgrows : ∀ k, ExtendedBy (x k) (x (k + 1)))
    (hx : Resolves x n p) (hf : ∀ a q, x n p = .ok a q → Resolves (fun k => f k a) n q) :
    Resolves (fun k => x k >>= f k) n p := by
  obtain hhalts | hblocked := hx
  · cases h : x n p with
    | ok a q =>
      -- Wherever the first part does not use up its steps, it leads to the same second part.
      have hsame {k : Nat} (hk : Halts (x k p)) : x k p = .ok a q :=
        (ExtendedBy.agree hgrows hk hhalts).trans h
      have hok : (x n >>= f n) p = f n a q := bind_ok h
      refine (hf a q h).imp (congrArg Halts hok).mpr fun hnext => ⟨fun k hk => ?_, ?_⟩
      · refine hnext.endless k ?_
        rwa [bind_ok (hsame hk.of_bind)] at hk
      · exact (congrArg (fun r => (final r).HeldUp) hok).mpr hnext.place
    | error e q =>
      have herror : (x n >>= f n) p = .error e q := bind_error h
      refine .inl fun r hr => ?_
      cases herror.symm.trans hr
      exact hhalts q h
  · obtain ⟨q, hq⟩ := exists_of_not_halts (hblocked.endless n)
    have hplace := hblocked.place
    rw [hq] at hplace
    refine .inr ⟨fun k hk => hblocked.endless k hk.of_bind, ?_⟩
    rw [bind_error hq]
    exact hplace

/-- A step that needs no count, and what follows it. -/
theorem after {step : Parse α} {f : Nat → α → Parse β} (h : Halts (step p))
    (hf : ∀ a q, step p = .ok a q → Resolves (fun k => f k a) n q) :
    Resolves (fun k => step >>= f k) n p :=
  bind (x := fun _ => step) (fun _ => .refl _) (.inl h) hf

theorem map (g : α → β) (hgrows : ∀ k, ExtendedBy (x k) (x (k + 1))) (hx : Resolves x n p) :
    Resolves (fun k => x k >>= fun a => pure (g a)) n p :=
  hx.bind hgrows fun _ _ _ => .inl (halts_ok _ _)

/-- A step in a changed state, where the change concerns neither the place nor the faults. -/
theorem bracket {enter : Parser → Parser} {leave : Parser → Parser → Parser}
    (h : Resolves x n (enter p)) (hleave : ∀ q : Parser, q.HeldUp → (leave p q).HeldUp) :
    Resolves (fun k => bracket enter leave (x k)) n p := by
  refine h.imp halts_bracket_iff.2 fun hblocked => ⟨fun k => ?_, ?_⟩
  · exact mt halts_bracket_iff.1 (hblocked.endless k)
  obtain ⟨q, hq⟩ := exists_of_not_halts (hblocked.endless n)
  have hplace := hblocked.place
  rw [hq] at hplace
  rw [bracket_apply, hq]
  exact hleave q hplace

theorem nested (h : Resolves x n (p.atDepth (p.depth + 1))) :
    Resolves (fun k => nested (x k)) n p := by
  refine bracket (x := fun k => deepen >>= fun _ => x k) ?_ fun q hq => ⟨hq.behind, hq.token⟩
  refine after (halts_deepen p) fun _ q hq => ?_
  obtain ⟨-, rfl⟩ := deepen_eq_ok hq
  exact h

theorem recovering (h : Resolves x n p.startingHere) :
    Resolves (fun k => recovering (x k)) n p := by
  obtain hhalts | hblocked := h
  · refine .inl fun r hr => ?_
    change Parse.recovering (x n) p = _ at hr
    rw [recovering_apply] at hr
    split at hr
    next => cases hr
    next => cases hr
    next q hq => exact hhalts q hq
  · have stalls (k : Nat) : ∃ q, x k p.startingHere = .error .stalled q ∧
        Parse.recovering (x k) p = .error .stalled (q.startingAt p.start) := by
      obtain ⟨q, hq⟩ := exists_of_not_halts (hblocked.endless k)
      refine ⟨q, hq, ?_⟩
      rw [recovering_apply, hq]
    refine .inr ⟨fun k hk => ?_, ?_⟩
    · obtain ⟨q, -, hq⟩ := stalls k
      exact hk _ hq
    · obtain ⟨q, hq, hrecovering⟩ := stalls n
      have hplace := hblocked.place
      rw [hq] at hplace
      rw [hrecovering]
      exact ⟨hplace.behind, hplace.token⟩

end Resolves

/-- The step resolves wherever it has as many steps as it costs. -/
def Undertakes (cost n : Nat) (x : Nat → Parse α) : Prop :=
  ∀ p : Parser, 32 * p.rest.length + cost ≤ n → Resolves x n p

theorem Affords.undertakes {cost : Nat} {x : Nat → Parse α} (h : Affords cost n (x n)) :
    Undertakes cost n x := fun p hp => .inl (h p hp)

/-- The parsers of declarations and statements resolve within the steps allotted. -/
structure StatementAllotment (n : Nat) : Prop where
  declaration : Undertakes 28 n declaration
  functionDeclaration : Undertakes 28 n functionDeclaration
  statement : Undertakes 27 n statement
  block : Undertakes 30 n block
  blockBody : ∀ before, Undertakes 29 n (blockBody · before)
  ifStatement : Undertakes 27 n ifStatement
  whileStatement : Undertakes 27 n whileStatement
  forStatement : Undertakes 27 n forStatement

theorem affords_parameterList (n : Nat) :
    ∀ count before, Affords 1 n (parameterList n count before) := by
  induction n with
  | zero => exact fun _ _ p h => absurd h (by omega)
  | succ n ih =>
    intro count before p hn
    rw [parameterList_succ]
    have htally : Keeps Kind.passable (tally .tooManyParameters count) := keeps_tally _ count
    refine Halts.bind (x := tally .tooManyParameters count) (halts_ok _ _) fun _ q hq => ?_
    have hlen := (htally.of_ok hq).length_le
    refine (halts_expect _ _ q).bind fun name r hr => ?_
    obtain ⟨-, hrest, -⟩ := expect_eq_ok (by decide) hr
    rw [hrest, List.length_cons] at hlen
    refine (halts_accept _ r).bind fun o u hu => ?_
    cases o with
    | none => exact halts_ok _ _
    | some comma =>
      have := accept_some_length rfl hu
      exact ih _ _ u (by omega)

theorem affords_parameters (n : Nat) : Affords 1 n (parameters n) := by
  intro p hn
  rw [parameters_eq]
  refine (halts_expect _ _ p).bind fun _ q hq => ?_
  obtain ⟨-, hrest, -⟩ := expect_eq_ok (by decide) hq
  rw [hrest, List.length_cons] at hn
  have hnames : Halts (optionalParameters n q) := by
    rw [optionalParameters, bind_ok (check_apply .rightParen q)]
    split
    · exact halts_ok _ _
    · exact affords_parameterList n 0 [] q (by omega)
  exact hnames.bind fun names r _ => (halts_expect _ _ r).bind fun _ _ _ => halts_ok _ _

theorem affords_forInitializer (n : Nat) : Affords 26 n (forInitializer n) := by
  intro p hn
  refine (halts_accept _ p).bind fun o q hq => ?_
  cases o with
  | some _ => exact halts_ok _ _
  | none =>
    obtain rfl := accept_none_eq rfl hq
    refine (halts_accept _ q).bind fun o r hr => ?_
    cases o with
    | some _ =>
      have := accept_some_length rfl hr
      exact (affords_varDeclaration n r (by omega)).map some
    | none =>
      obtain rfl := accept_none_eq rfl hr
      exact (affords_terminated n _ _ r hn).map some

/-! A loop over declarations. -/

/-- The loop goes on from declaration to declaration and stops at the end, at the latest. -/
structure Repeats (loop : Nat → List Stmt → Parse (List Stmt)) (stops : Parser → Prop) : Prop where
  zero : ∀ before p, loop 0 before p = .error .stalled p
  stop : ∀ k before p, stops p → Halts (loop (k + 1) before p)
  next : ∀ k before p, ¬ stops p → loop (k + 1) before p = (declaration k >>= fun o => match o with
    | none => loop k before
    | some s => loop k (s :: before)) p
  atEnd : ∀ p : Parser, p.current.kind = .endOfInput → stops p
  atKeyword : ∀ p : Parser, p.current.kind.resumes = true → ¬ stops p

theorem repeats_program : Repeats program (·.current.kind = .endOfInput) where
  zero _ _ := rfl
  stop k before p hp := by
    rw [program_end before (Nat.succ_pos k) hp]
    exact halts_ok _ _
  next k before _ hp := program_succ k before hp
  atEnd _ hp := hp
  atKeyword p hk hp := by
    rw [hp] at hk
    cases hk

theorem repeats_blockBody : Repeats blockBody
    fun p => p.current.kind = .rightBrace ∨ p.current.kind = .endOfInput where
  zero _ _ := rfl
  stop k before p hp := by
    rw [blockBody, bind_ok (check_apply .rightBrace p)]
    split
    next => exact halts_ok _ _
    next hbrace =>
      have hend := hp.resolve_left fun h => hbrace (decide_eq_true h)
      rw [bind_ok (atEnd_apply p), decide_eq_true hend]
      exact halts_ok _ _
  next k before _ hp := blockBody_succ k before (mt .inl hp) (mt .inr hp)
  atEnd _ hp := .inr hp
  atKeyword p hk hp := by
    obtain hp | hp := hp <;> rw [hp] at hk <;> cases hk

section
variable {loop : Nat → List Stmt → Parse (List Stmt)} {stops : Parser → Prop}

/-- A loop that is stuck remains where it is. -/
theorem Repeats.stays (hloop : Repeats loop stops) (k : Nat) (before : List Stmt) (hp : p.Stuck) :
    ∃ q, loop k before p = .error .stalled q ∧
      q.rest = p.rest ∧ q.consumed = p.consumed ∧ p.faults <:+ q.faults := by
  induction k generalizing p with
  | zero => exact ⟨p, hloop.zero before p, rfl, rfl, List.suffix_rfl⟩
  | succ k ih =>
    rw [hloop.next k before p (hloop.atKeyword p hp.resumes)]
    obtain ⟨-, h⟩ | h := declaration_of_stuck k hp
    · exact ⟨p, bind_error h, rfl, rfl, List.suffix_rfl⟩
    · obtain ⟨q, hq, hrest, hconsumed, hfaults⟩ :=
        ih (p := p.report (stuckError p.current.kind) p.current) hp
      exact ⟨q, (bind_ok h).trans hq, hrest, hconsumed, (List.suffix_cons _ _).trans hfaults⟩

theorem Repeats.blocked (hloop : Repeats loop stops) (before : List Stmt) (hp : p.Stuck)
    (hn : 3 ≤ n) : Blocked (loop · before) n p := by
  refine ⟨fun k hk => ?_, ?_⟩
  · obtain ⟨q, hq, -⟩ := hloop.stays k before hp
    exact hk q hq
  · obtain ⟨n, rfl⟩ : ∃ k, n = k + 1 := ⟨n - 1, by omega⟩
    have hok := (declaration_of_stuck n hp).resolve_left fun h => absurd h.1 (by omega)
    have hreported : (p.report (stuckError p.current.kind) p.current).Stuck := hp
    obtain ⟨q, hq, hrest, hconsumed, hfaults⟩ := hloop.stays n before hreported
    have hcurrent : q.current = p.current := congrArg (·.headD .absent) hrest
    have hround : loop (n + 1) before p = .error .stalled q := by
      rw [hloop.next n before p (hloop.atKeyword p hp.resumes), bind_ok hok]
      exact hq
    rw [hround]
    refine ⟨hconsumed.symm ▸ Nat.zero_lt_of_lt hp.1, ?_⟩
    rw [final, hcurrent]
    by_cases hc : p.current.kind = .kwClass
    · exact .inl hc
    · have hreport := hfaults.mem List.mem_cons_self
      rw [stuckError, if_neg hc] at hreport
      exact .inr ⟨(hp.2.resolve_left hc).1, hreport⟩

/-- A round of a loop: the loop is over, or it is stuck, or fewer tokens are ahead after it. -/
theorem Repeats.round (hloop : Repeats loop stops) (hdeclaration : Undertakes 28 n declaration)
    (before : List Stmt) (hbrace : ¬ stops p → p.current.kind = .rightBrace → p.blocks = 0)
    (hn : 32 * p.rest.length + 29 ≤ n + 1)
    (hnext : ∀ before q, q.blocks = p.blocks → 32 * q.rest.length + 29 ≤ n →
      Resolves (loop · before) n q) : Resolves (loop · before) (n + 1) p := by
  by_cases hp : stops p
  · exact .inl (hloop.stop n before p hp)
  by_cases hstuck : p.Stuck
  · exact .inr (hloop.blocked before hstuck (by omega))
  refine .succ (hloop.zero before p) (fun k => hloop.next k before p hp) ?_
  refine (hdeclaration p (by omega)).bind (fun k => (statementExtension k).declaration)
    fun o q hq => ?_
  have hfollows := (statementCourse n).declaration.of_ok hq
  have hpasses := declaration_passes hq (mt (hloop.atEnd p) hp) (hbrace hp) hstuck
  cases o <;> exact hnext _ q hfollows.blocks (by omega)

end

namespace StatementAllotment

theorem zero : StatementAllotment 0 := by
  constructor <;> intros <;> exact fun p h => absurd h (by omega)

/-- A step after a token that is expected. -/
private theorem expecting {kind : Kind} {what : String} {f : Nat → Token → Parse α} {c : Nat}
    (h : 32 * p.rest.length + c ≤ n) (hend : kind ≠ .endOfInput)
    (hf : ∀ t q, 32 * q.rest.length + (c + 32) ≤ n → Resolves (fun k => f k t) n q) :
    Resolves (fun k => expect kind what >>= f k) n p := by
  refine .after (halts_expect _ _ p) fun t q hq => hf t q ?_
  have := congrArg List.length (expect_eq_ok hend hq).2.1
  rw [List.length_cons] at this
  omega

/-- A step after another one. -/
private theorem following {allowed : Kind → Bool} {cost c : Nat} {x : Nat → Parse α}
    {f : Nat → α → Parse β} (h : 32 * p.rest.length + c ≤ n) (hx : Undertakes cost n x)
    (hgrows : ∀ k, ExtendedBy (x k) (x (k + 1))) (hkeeps : Keeps allowed (x n)) (hc : cost ≤ c)
    (hf : ∀ a q, 32 * q.rest.length + c ≤ n → Resolves (fun k => f k a) n q) :
    Resolves (fun k => x k >>= f k) n p := by
  refine (hx p (by omega)).bind hgrows fun a q hq => hf a q ?_
  have := (hkeeps.of_ok hq).length_le
  omega

/-- A step behind the next token. -/
private theorem passing {cost c : Nat} {x : Nat → Parse α} (h : 32 * p.rest.length + c ≤ n)
    (hx : Undertakes cost n x) (hend : p.current.kind ≠ .endOfInput) (hc : cost ≤ c + 32) :
    Resolves x n (p.pass [p.current]) := by
  refine hx _ ?_
  have := length_pass_current hend
  omega

private theorem loopBody (ih : StatementAllotment n) (g : Stmt → Stmt) :
    Undertakes 27 n fun k => inLoop (Parse.statement k) >>= fun body => pure (g body) := by
  intro p h
  have hbody : Resolves (fun k => inLoop (Parse.statement k)) n p :=
    .bracket (ih.statement _ h) fun q hq => ⟨hq.behind, hq.token⟩
  exact hbody.map g fun k => (statementExtension k).statement.bracket _ _

private theorem functionDeclaration_succ (ih : StatementAllotment n) :
    Undertakes 28 (n + 1) Parse.functionDeclaration := by
  intro p h
  refine .succ rfl (fun k => congrFun (Parse.functionDeclaration.eq_2 k) p) ?_
  have h : 32 * p.rest.length + 27 ≤ n := by omega
  refine expecting h (by decide) fun name q h => ?_
  refine following h (affords_parameters n).undertakes extendedBy_parameters (keeps_parameters n)
    (by omega) fun params q h => ?_
  refine expecting h (by decide) fun left q h => ?_
  have hbody : Resolves (fun k => inFunction (Parse.block k)) n q :=
    .bracket (ih.block _ (by change 32 * q.rest.length + 30 ≤ n; omega))
      fun q hq => ⟨hq.behind, hq.token⟩
  exact hbody.map _ fun k => (statementExtension k).block.bracket _ _

private theorem ifStatement_succ (ih : StatementAllotment n) :
    Undertakes 27 (n + 1) Parse.ifStatement := by
  intro p h
  refine .succ rfl (fun k => congrFun (Parse.ifStatement.eq_2 k) p) ?_
  have h : 32 * p.rest.length + 26 ≤ n := by omega
  refine expecting h (by decide) fun _ q h => ?_
  refine following h (expressionAllotment n).expression.undertakes
    (fun k => (expressionExtension k).expression) (keeps_expression n) (by omega)
    fun condition q h => ?_
  refine expecting h (by decide) fun _ q h => ?_
  refine following h ih.statement (fun k => (statementExtension k).statement)
    (statementCourse n).statement (by omega) fun yes q h => ?_
  refine .after (halts_accept _ q) fun o r hr => ?_
  cases o with
  | none => exact .inl (halts_ok _ _)
  | some _ =>
    have := accept_some_length rfl hr
    exact (ih.statement r (by omega)).map _ fun k => (statementExtension k).statement

private theorem whileStatement_succ (ih : StatementAllotment n) :
    Undertakes 27 (n + 1) Parse.whileStatement := by
  intro p h
  refine .succ rfl (fun k => congrFun (Parse.whileStatement.eq_2 k) p) ?_
  have h : 32 * p.rest.length + 26 ≤ n := by omega
  refine expecting h (by decide) fun _ q h => ?_
  refine following h (expressionAllotment n).expression.undertakes
    (fun k => (expressionExtension k).expression) (keeps_expression n) (by omega)
    fun condition q h => ?_
  refine expecting h (by decide) fun _ q h => ?_
  exact ih.loopBody _ q (by omega)

private theorem forStatement_succ (ih : StatementAllotment n) :
    Undertakes 27 (n + 1) Parse.forStatement := by
  intro p h
  refine .succ rfl (fun k => congrFun (Parse.forStatement_succ k) p) ?_
  have h : 32 * p.rest.length + 26 ≤ n := by omega
  refine expecting h (by decide) fun _ q h => ?_
  refine following h (affords_forInitializer n).undertakes extendedBy_forInitializer
    (keeps_forInitializer n) (by omega) fun init q h => ?_
  refine following h (affords_optional _ n).undertakes (extendedBy_optionalExpression _)
    (keeps_optionalExpression _ n) (by omega) fun condition q h => ?_
  refine expecting h (by decide) fun _ q h => ?_
  refine following h (affords_optional _ n).undertakes (extendedBy_optionalExpression _)
    (keeps_optionalExpression _ n) (by omega) fun increment q h => ?_
  refine expecting h (by decide) fun _ q h => ?_
  exact ih.loopBody _ q (by omega)

private theorem statementProper (ih : StatementAllotment n) :
    Undertakes 26 n Parse.statementProper := by
  intro p h
  cases hk : nests p.current.kind with
  | true =>
    have hend : p.current.kind ≠ .endOfInput := fun he => by rw [he] at hk; cases hk
    simp only [nests, Bool.or_eq_true, decide_eq_true_eq] at hk
    -- What stands behind the keyword or brace is one of the parts.
    have part {x : Nat → Parse Stmt} {cost : Nat} (hx : Undertakes cost n x) (hc : cost ≤ 26 + 32)
        (heq : ∀ k, Parse.statementProper k p = x k (p.pass [p.current])) :
        Resolves Parse.statementProper n p := .of_eq heq (passing h hx hend hc)
    have hblock : Undertakes 30 n fun k => Parse.block k >>= fun body => pure (Stmt.block body) :=
      fun q hq => (ih.block q hq).map _ fun k => (statementExtension k).block
    obtain ((hk | hk) | hk) | hk := hk
    · exact part hblock (by omega) fun k => by simp only [Parse.statementProper, hk]
    · exact part ih.ifStatement (by omega) fun k => by simp only [Parse.statementProper, hk]
    · exact part ih.whileStatement (by omega) fun k => by simp only [Parse.statementProper, hk]
    · exact part ih.forStatement (by omega) fun k => by simp only [Parse.statementProper, hk]
  | false =>
    refine .inl ?_
    cases hrest : p.rest with
    | nil =>
      have hcurrent : p.current.kind = .endOfInput := by rw [Parser.current_kind, hrest]; rfl
      unfold Parse.statementProper
      simp only [hcurrent]
      exact affords_terminated n _ _ p h
    | cons t ts =>
      have hcurrent : p.current = t := Parser.current_cons hrest
      have hall : p.rest = t :: ts ++ [] := by rw [hrest, List.append_nil]
      exact (lands_plainStatement (hcurrent ▸ hk) hall rfl h).halts

private theorem declarationProper (ih : StatementAllotment n) :
    Undertakes 27 n Parse.declarationProper := by
  intro p h
  have hvar : Undertakes 26 n varDeclaration := (affords_varDeclaration n).undertakes
  by_cases hv : p.current.kind = .kwVar
  · refine .of_eq (fun k => ?_) (passing h hvar (by rw [hv]; decide) (by omega))
    simp only [Parse.declarationProper, hv]
  by_cases hf : p.current.kind = .kwFun
  · refine .of_eq (fun k => ?_) (passing h ih.functionDeclaration (by rw [hf]; decide) (by omega))
    simp only [Parse.declarationProper, hf]
  by_cases hc : p.current.kind = .kwClass
  · refine .inl ?_
    simp only [Parse.declarationProper, hc]
    exact halts_bail _
  · refine .of_eq (fun k => ?_) (ih.statement p h)
    unfold Parse.declarationProper
    split <;> first | contradiction | rfl

theorem succ (ih : StatementAllotment n) : StatementAllotment (n + 1) where
  declaration p h := by
    refine .succ rfl (fun k => congrFun (Parse.declaration_succ k) p) ?_
    exact .recovering (ih.declarationProper _ (by change 32 * p.rest.length + 27 ≤ n; omega))
  functionDeclaration := functionDeclaration_succ ih
  statement p h := by
    refine .succ rfl (fun k => congrFun (Parse.statement_succ k) p) ?_
    exact .nested (ih.statementProper _ (by change 32 * p.rest.length + 26 ≤ n; omega))
  block p h := by
    refine .succ rfl (fun k => congrFun (Parse.block.eq_2 k) p) ?_
    refine .bracket ?_ fun q hq => ⟨hq.behind, hq.token⟩
    refine (ih.blockBody [] _ ?_).bind (fun k => (statementExtension k).blockBody [])
      fun _ q _ => ?_
    · change 32 * p.rest.length + 29 ≤ n
      omega
    · exact .inl ((halts_expect _ _ q).bind fun _ _ _ => halts_ok _ _)
  blockBody before p h :=
    repeats_blockBody.round ih.declaration before (fun hp hb => absurd (.inl hb) hp) h
      fun before q _ => ih.blockBody before q
  ifStatement := ifStatement_succ ih
  whileStatement := whileStatement_succ ih
  forStatement := forStatement_succ ih

end StatementAllotment

theorem statementAllotment (n : Nat) : StatementAllotment n := by
  induction n with
  | zero => exact .zero
  | succ n ih => exact ih.succ

theorem program_resolves (n : Nat) (before : List Stmt) (p : Parser) (hblocks : p.blocks = 0)
    (hn : 32 * p.rest.length + 29 ≤ n) : Resolves (program · before) n p := by
  induction n generalizing before p with
  | zero => exact absurd hn (by omega)
  | succ n ih =>
    exact repeats_program.round (statementAllotment n).declaration before (fun _ _ => hblocks) hn
      fun before q hq => ih before q (hq.trans hblocks)

theorem declaration_ne_bail (n : Nat) (p q : Parser) : declaration n p ≠ .error .bail q := by
  cases n with
  | zero => exact fun h => nomatch h
  | succ n =>
    rw [declaration_succ, recovering_apply]
    split <;> exact fun h => nomatch h

/-- Every fault is recovered from. -/
theorem program_ne_bail (n : Nat) (before : List Stmt) (p q : Parser) :
    program n before p ≠ .error .bail q := by
  induction n generalizing before p with
  | zero => exact fun h => nomatch h
  | succ n ih =>
    by_cases hend : p.current.kind = .endOfInput
    · rw [program_end before (Nat.succ_pos n) hend]
      exact fun h => nomatch h
    · rw [program_succ n before hend]
      cases hs : declaration n p with
      | ok o r =>
        rw [bind_ok hs]
        cases o <;> exact ih _ r
      | error e r =>
        rw [bind_error hs]
        rintro ⟨⟩
        exact declaration_ne_bail n p _ hs

end Parse

namespace Program

/-- However many steps are allotted to the parse of the tokens, it uses them up. -/
def NeverEnds (tokens : List Token) : Prop :=
  ∀ n, ¬ Parse.Halts (Parse.program n [] { rest := tokens })

/-- A token behind the first one at which a parse may not get on: a `class`, or the keyword of a
statement where something nests too deep. -/
def HoldsUp (tokens : List Token) (t : Token) : Prop :=
  t ∈ tokens.tail ∧ (t.kind = .kwClass ∨ t.kind.startsKeywordStatement = true ∧
    Parse.TooDeep (Parse.program (Parser.allotment tokens.length) [] { rest := tokens }))

/-- The steps allotted to a parse suffice, unless it never ends and is held up at a token. -/
theorem heldUp_of_parse?_eq_none {tokens : List Token} (h : parse? tokens = none) :
    NeverEnds tokens ∧ ∃ q, Parse.program (Parser.allotment tokens.length) [] { rest := tokens } =
      .error .stalled q ∧ q.HeldUp ∧ q.current ∈ tokens.tail := by
  have hn : 32 * tokens.length + 29 ≤ Parser.allotment tokens.length := by
    unfold Parser.allotment
    omega
  unfold parse? at h
  split at h
  next => cases h
  next e q hq =>
    cases e with
    | bail => exact absurd hq (Parse.program_ne_bail _ _ _ _)
    | stalled =>
      obtain hhalts | hblocked := Parse.program_resolves _ [] { rest := tokens } rfl hn
      · exact absurd hq (hhalts q)
      · have hplace := hblocked.place
        rw [hq] at hplace
        have hfollows := (Parse.keeps_program _ []).of_error hq
        exact ⟨hblocked.endless, q, hq, hplace,
          hfollows.current_mem_tail hplace.behind hplace.current_ne_end⟩

/-- The steps allotted to a parse suffice unless it never ends, and that is due to a token. -/
theorem parse?_eq_none {tokens : List Token} (h : parse? tokens = none) :
    NeverEnds tokens ∧ ∃ t, HoldsUp tokens t := by
  obtain ⟨hnever, q, hq, hplace, htail⟩ := heldUp_of_parse?_eq_none h
  refine ⟨hnever, q.current, htail, hplace.token.imp_right fun ⟨hk, hfault⟩ => ⟨hk, ?_⟩⟩
  rw [hq]
  exact ⟨_, hfault, rfl⟩

/-- Whatever number of steps a parse comes to its end in, `parse?` gives what it gives. -/
theorem parse?_of_ok {tokens : List Token} {n : Nat} {ss : List Stmt} {q : Parser}
    (h : Parse.program n [] { rest := tokens } = .ok ss q) :
    parse? tokens = some ⟨ss, q.faults.reverse⟩ := by
  have hhalts : Parse.Halts (Parse.program n [] { rest := tokens }) := h ▸ Parse.halts_ok ss q
  cases hp : parse? tokens with
  | none => exact absurd hhalts ((parse?_eq_none hp).1 n)
  | some p =>
    unfold parse? at hp
    split at hp
    next ss' q' hq =>
      have hsame := Parse.ExtendedBy.agree (x := (Parse.program · []))
        (fun k => Parse.extendedBy_program k []) hhalts (hq ▸ Parse.halts_ok ss' q')
      cases h.symm.trans (hsame.trans hq)
      exact hp.symm
    next => cases hp

end Program
end Lox
