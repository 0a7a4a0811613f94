import Lox.Proofs.Syntax.Landing

/-! Recovery makes progress, whatever the tokens are: a declaration passes a token, unless it is at
a `class` or at a statement that nests too deep, and not at the start of the declaration around it.
There it reports the same fault again and again. -/
namespace Lox

/-- The parse is at the top of a program, in no declaration. -/
structure Parser.AtTop (p : Parser) : Prop where
  depth : p.depth = 0
  loops : p.loops = 0
  functions : p.functions = 0
  blocks : p.blocks = 0
  start : p.start = 0

theorem Parser.AtTop.ofTokens (ts : List Token) : Parser.AtTop { rest := ts } :=
  ⟨rfl, rfl, rfl, rfl, rfl⟩

theorem Parser.AtTop.pass {p : Parser} (h : p.AtTop) (ts : List Token) : (p.pass ts).AtTop :=
  ⟨h.depth, h.loops, h.functions, h.blocks, h.start⟩

theorem Parser.AtTop.follows {allowed : Kind → Bool} {p q : Parser} (h : p.AtTop)
    (hq : p.Follows allowed q) (hd : q.depth = p.depth) : q.AtTop where
  depth := hd.trans h.depth
  loops := hq.loops.trans h.loops
  functions := hq.functions.trans h.functions
  blocks := hq.blocks.trans h.blocks
  start := hq.start.trans h.start

theorem Parser.AtTop.eq_mk {p : Parser} (h : p.AtTop) :
    p = { rest := p.rest, consumed := p.consumed, faults := p.faults } := by
  obtain ⟨hdepth, hloops, hfunctions, hblocks, hstart⟩ := h
  cases p
  simp only at hdepth hloops hfunctions hblocks hstart
  subst hdepth hloops hfunctions hblocks hstart
  rfl

/-- Recovery passes a token at which it may not stop. -/
theorem Parser.skipFrom_passes_first {start consumed : Nat} {inBlock : Bool} {t : Token}
    {ts : List Token} (hend : t.kind ≠ .endOfInput)
    (hstop : start < consumed → t.kind.resumes = false ∧ (t.kind = .rightBrace → inBlock = false)) :
    (skipFrom start inBlock consumed (t :: ts)).2.length < (t :: ts).length := by
  rw [skipFrom, if_neg hend]
  split
  · exact Nat.lt_succ_self _
  · split
    next hstops =>
      simp only [Bool.and_eq_true, Bool.or_eq_true, decide_eq_true_eq] at hstops
      obtain ⟨hresumes, hbrace⟩ := hstop hstops.1
      obtain h | ⟨h, hb⟩ := hstops.2
      · rw [hresumes] at h
        cases h
      · rw [hbrace h] at hb
        cases hb
    next =>
      obtain ⟨us, hts, -, -⟩ := skipFrom_passes start inBlock ts (consumed + 1)
      have hlen := congrArg List.length hts
      rw [List.length_append] at hlen
      rw [List.length_cons]
      omega

/-- A declaration fails at the next token, and recovery from it stops there again. -/
def Parser.Stuck (p : Parser) : Prop :=
  p.start < p.consumed ∧ (p.current.kind = .kwClass ∨
    p.current.kind.startsKeywordStatement = true ∧ maxNesting ≤ p.depth)

theorem Parser.Stuck.resumes {p : Parser} (h : p.Stuck) : p.current.kind.resumes = true := by
  obtain hk | ⟨hk, -⟩ := h.2
  · rw [hk]
    rfl
  · revert hk
    generalize p.current.kind = k
    cases k <;> decide

theorem Parser.synchronize_eq_self {p : Parser} (hlt : p.start < p.consumed)
    (hk : p.current.kind.resumes = true) : p.synchronize = p := by
  have hend : p.current.kind ≠ .endOfInput := fun h => by rw [h] at hk; cases hk
  have hsemicolon : p.current.kind ≠ .semicolon := fun h => by rw [h] at hk; cases hk
  have hskip : skipFrom p.start (0 < p.blocks) p.consumed p.rest = (p.consumed, p.rest) := by
    rw [rest_eq_cons hend, skipFrom, if_neg hend, if_neg hsemicolon, hk, decide_eq_true hlt]
    rfl
  rw [synchronize, hskip]

namespace Parse

/-- A keyword starts a statement, and no declaration of a name. -/
theorem declarationProper_keyword (n : Nat) {p : Parser}
    (hk : p.current.kind.startsKeywordStatement = true) :
    declarationProper n p = statement n p := by
  unfold declarationProper
  split
  next h => rw [h] at hk; cases hk
  next h => rw [h] at hk; cases hk
  next h => rw [h] at hk; cases hk
  next => rfl

theorem declarationProper_bail_pos {n : Nat} {p r : Parser}
    (h : declarationProper n p = .error .bail r)
    (hk : p.current.kind.startsKeywordStatement = true) : 0 < n := by
  cases n with
  | zero =>
    rw [declarationProper_keyword 0 hk] at h
    cases h
  | succ n => exact Nat.succ_pos n

/-- A declaration that fails at its first token does not start with a keyword at which recovery
stops, unless this is a `class` or nests too deep. -/
theorem resumes_eq_false_of_bail {n : Nat} {p r : Parser}
    (h : declarationProper n p = .error .bail r) (hrest : r.rest = p.rest)
    (hclass : p.current.kind ≠ .kwClass)
    (hroom : p.current.kind.startsKeywordStatement = true → p.depth < maxNesting) :
    p.current.kind.resumes = false := by
  cases hresumes : p.current.kind.resumes with
  | false => rfl
  | true =>
    have hpasses := declarationProper_passes_keyword hresumes hclass fun hk =>
      ⟨declarationProper_bail_pos h hk, hroom hk⟩
    rw [h, final, hrest] at hpasses
    exact absurd hpasses (Nat.lt_irrefl _)

/-- A declaration passes a token. -/
theorem declaration_passes {n : Nat} {p q : Parser} {o : Option Stmt}
    (h : declaration n p = .ok o q) (hend : p.current.kind ≠ .endOfInput)
    (hbrace : p.current.kind = .rightBrace → p.blocks = 0)
    (hstuck : ¬ p.Stuck) : q.rest.length < p.rest.length := by
  cases n with
  | zero => cases h
  | succ n =>
    rw [declaration_succ] at h
    obtain ⟨s, r, hr, -, rfl⟩ | ⟨r, hr, -, rfl⟩ := recovering_eq_ok h
    · obtain ⟨ts, t, hts, -⟩ := ends_declarationProper n hr
      have hlen := congrArg List.length hts
      rw [List.length_append, List.length_cons] at hlen
      change r.rest.length < p.startingHere.rest.length
      omega
    · have hfollows := (statementCourse n).declarationProper.of_error hr
      obtain ⟨ts, hts, hconsumed, -⟩ := hfollows.passed
      have hsync := (Parser.follows_synchronize (r.startingAt p.start)).length_le
      change _ ≤ r.rest.length at hsync
      cases ts with
      | cons t ts =>
        have hlen := congrArg List.length hts
        rw [List.length_append, List.length_cons] at hlen
        change p.rest.length = _ at hlen
        omega
      | nil =>
        -- Nothing has been passed yet, so recovery is at the first token, and may not stop there.
        have hrest : r.rest = p.rest := hts.symm
        have hat : r.consumed = p.consumed := hconsumed
        have hblocks : r.blocks = p.blocks := hfollows.blocks
        change (Parser.skipFrom p.start (0 < r.blocks) r.consumed r.rest).2.length < p.rest.length
        rw [hrest, hat, hblocks, Parser.rest_eq_cons hend]
        refine Parser.skipFrom_passes_first hend fun hlt => ⟨?_, fun hk => ?_⟩
        · exact resumes_eq_false_of_bail (p := p.startingHere) hr hrest (fun hc => hstuck ⟨hlt, .inl hc⟩)
            fun hk => Nat.lt_of_not_le fun hd => hstuck ⟨hlt, .inr ⟨hk, hd⟩⟩
        · rw [hbrace hk]
          rfl

/-- A declaration that ends has passed a token, whatever the faults in it. -/
theorem declaration_advances {n : Nat} {p q : Parser} {o : Option Stmt}
    (h : declaration n p = .ok o q) (hend : p.current.kind ≠ .endOfInput)
    (hbrace : p.current.kind = .rightBrace → p.blocks = 0)
    (hclass : p.current.kind = .kwClass → p.consumed = 0)
    (hroom : p.depth < maxNesting ∨ p.current.kind.startsKeywordStatement = false) :
    p.consumed < q.consumed := by
  have hfree : ¬ p.Stuck := by
    rintro ⟨hbehind, hk | ⟨hk, hdepth⟩⟩
    · have := hclass hk
      omega
    · obtain hroom | hroom := hroom
      · omega
      · rw [hk] at hroom
        cases hroom
  have hshorter := declaration_passes h hend hbrace hfree
  obtain ⟨ts, hts, hconsumed, -⟩ := ((statementCourse n).declaration.of_ok h).passed
  have hlen := congrArg List.length hts
  rw [List.length_append] at hlen
  omega

/-- What is reported where a parse is stuck. -/
def stuckError (k : Kind) : SyntaxError := if k = .kwClass then .classUnsupported else .tooDeep

/-- Where a parse is stuck, a declaration does nothing but report it. -/
theorem declaration_of_stuck (n : Nat) {p : Parser} (h : p.Stuck) :
    n < 2 ∧ declaration n p = .error .stalled p ∨
      declaration n p = .ok none (p.report (stuckError p.current.kind) p.current) := by
  have recovered {step : Parse Stmt} {e : SyntaxError}
      (hstep : step p.startingHere = .error .bail (p.startingHere.report e p.current)) :
      recovering step p = .ok none (p.report e p.current) := by
    have hsync : (p.report e p.current).synchronize = p.report e p.current :=
      Parser.synchronize_eq_self h.1 h.resumes
    rw [recovering_apply, hstep]
    exact congrArg (EStateM.Result.ok none) hsync
  cases n with
  | zero => exact .inl ⟨by decide, rfl⟩
  | succ n =>
    rw [declaration_succ]
    by_cases hc : p.current.kind = .kwClass
    · refine .inr (recovered ?_)
      have hcurrent : p.startingHere.current.kind = .kwClass := hc
      unfold declarationProper
      rw [hcurrent, hc]
      rfl
    · obtain ⟨hk, hdepth⟩ := h.2.resolve_left hc
      have hproper : declarationProper n p.startingHere = statement n p.startingHere :=
        declarationProper_keyword n hk
      cases n with
      | zero =>
        rw [recovering_apply, hproper]
        exact .inl ⟨by decide, rfl⟩
      | succ n =>
        refine .inr (recovered ?_)
        rw [hproper, statement_succ, nested_error (p := p.startingHere) hdepth, stuckError,
          if_neg hc]
        rfl

end Parse
end Lox
