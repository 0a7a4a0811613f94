import Lox.Proofs.Syntax.Embedding
import Lox.Proofs.Syntax.Progress
import Lox.Proofs.Syntax.Recovery

/-! Declarations and statements are parsed alike wherever in a longer text they stand. At the top
there is one difference: recovery from a fault at the very first token does not stop at this token,
and recovery at the same token of the longer text may. -/
namespace Lox

/-- Recovery that starts `k` tokens further on stops `k` tokens further on, if it is told the same
about where it may stop: at the first token, and behind it. -/
theorem Parser.skipFrom_add (start start' k : Nat) (inBlock : Bool) (ts : List Token) :
    ∀ consumed, ((nextKind ts).stops inBlock = true →
      (start < consumed ↔ start' < consumed + k)) →
    (∀ j, consumed < j → (start < j ↔ start' < j + k)) →
    skipFrom start' inBlock (consumed + k) ts =
      ((skipFrom start inBlock consumed ts).1 + k, (skipFrom start inBlock consumed ts).2) := by
  induction ts with
  | nil => exact fun _ _ _ => rfl
  | cons t ts ih =>
    intro consumed hfirst hlater
    have hnext := ih (consumed + 1) (fun _ => hlater _ (Nat.lt_succ_self consumed))
      fun j hj => hlater j (Nat.lt_of_succ_lt hj)
    rw [Nat.add_right_comm] at hnext
    unfold skipFrom
    split
    · rfl
    · split
      · rw [Nat.add_right_comm]
      · -- Where the kind of the token is no reason to stop, its place does not matter.
        have hstop : (start' < consumed + k && t.kind.stops inBlock) =
            (start < consumed && t.kind.stops inBlock) := by
          cases hk : t.kind.stops inBlock with
          | false => rw [Bool.and_false, Bool.and_false]
          | true => rw [decide_eq_decide.2 (hfirst hk)]
        change (if (start' < consumed + k && t.kind.stops inBlock) = true then _ else _) =
          ((if (start < consumed && t.kind.stops inBlock) = true then _ else _ : Nat × List Token).1 + k,
            (if (start < consumed && t.kind.stops inBlock) = true then _ else _ : Nat × List Token).2)
        rw [hstop, hnext]
        split <;> rfl

namespace Embedding
variable (E : Embedding)

/-- The state of a parse in the longer text, where the declaration around it has not moved. -/
def outer (p : Parser) : Parser := (E.parser p).startingAt p.start

variable {E} {p : Parser}

theorem parser_synchronize (hE : E.behind = []) :
    (E.parser p).synchronize = E.parser p.synchronize := by
  have hskip := Parser.skipFrom_add p.start (p.start + E.before) E.before (0 < p.blocks) p.rest
    p.consumed (fun _ => by omega) fun _ _ => by omega
  unfold Parser.synchronize parser
  simp only [hE, List.append_nil]
  rw [hskip]

theorem outer_synchronize (hE : E.behind = []) (hle : p.start ≤ p.consumed)
    (hfirst : p.start < p.consumed ∨ (nextKind p.rest).stops (0 < p.blocks) = false) :
    (E.outer p).synchronize = E.outer p.synchronize := by
  have hplace (hk : (nextKind p.rest).stops (0 < p.blocks) = true) :
      p.start < p.consumed ↔ p.start < p.consumed + E.before := by
    have hlt := hfirst.resolve_right fun h => by rw [hk] at h; cases h
    omega
  have hskip := Parser.skipFrom_add p.start p.start E.before (0 < p.blocks) p.rest p.consumed hplace
    fun _ _ => by omega
  unfold Parser.synchronize outer parser Parser.startingAt
  simp only [hE, List.append_nil]
  rw [hskip]

end Embedding

namespace Parse
variable {α β : Type} {E : Embedding}

theorem Embeds.recovering {x : Parse α} (hE : E.behind = []) (hx : Embeds E x) :
    Embeds E (recovering x) := by
  intro p _
  obtain ⟨hsame, -⟩ := hx p.startingHere (.inl hE)
  have hhere : (E.parser p).startingHere = E.parser p.startingHere := rfl
  refine ⟨?_, .inl hE⟩
  rw [recovering_apply, recovering_apply, hhere, hsame]
  cases x p.startingHere with
  | ok a q => rfl
  | error e q =>
    cases e with
    | bail =>
      exact congrArg (EStateM.Result.ok none)
        (Embedding.parser_synchronize (p := q.startingAt p.start) hE)
    | stalled => rfl

theorem Embeds.advance (hE : E.behind = []) : Embeds E advance := by
  intro p hp
  refine ⟨?_, .inl hE⟩
  have hadvance : (E.parser p).advance = E.parser p.advance := by
    by_cases hend : p.current.kind = .endOfInput
    · have stays {q : Parser} (hq : q.current.kind = .endOfInput) : q.advance = q := by
        unfold Parser.advance
        split
        · rfl
        · next t ts hrest => rw [if_pos (Parser.current_cons hrest ▸ hq)]
      rw [stays hend, stays (by rw [Embedding.parser_current hp]; exact hend)]
    · rw [Parser.advance_eq hend, Parser.advance_eq (by rw [Embedding.parser_current hp]; exact hend),
        Embedding.parser_current hp, Embedding.parser_pass hend]
  unfold Parse.advance
  rw [hadvance, Embedding.parser_current hp]
  rfl

/-! Statements without parts. Only their last step passes a semicolon. -/

section
variable {p : Parser}

theorem tracks_pure (a : α) (p : Parser) : Tracks E (pure a) p := by
  constructor
  · rfl
  · intro e q h
    cases h

theorem tracks_semicolon (what : String) (hp : E.Sealed p) :
    Tracks E (expect .semicolon what) p := by
  have hcurrent := Embedding.parser_current hp
  by_cases hk : p.current.kind = .semicolon
  · have hok : expect .semicolon what p = .ok p.current (p.pass [p.current]) :=
      expect_ok (by decide) hk
    have hok' : expect .semicolon what (E.parser p) =
        .ok p.current (E.parser (p.pass [p.current])) := by
      rw [← Embedding.parser_pass (by rw [hk]; decide), ← hcurrent]
      exact expect_ok (by decide) (by rw [hcurrent]; exact hk)
    constructor
    · rw [hok, hok']
      rfl
    · intro e q h
      rw [hok] at h
      cases h
  · constructor
    · rw [expect, expect, hcurrent, if_neg hk, if_neg hk]
      rfl
    · intro e q h
      rw [expect, if_neg hk, fail_apply] at h
      cases h
      exact hp

theorem tracks_ended (what : String) (a : α) (hp : E.Sealed p) :
    Tracks E (expect .semicolon what >>= fun _ => pure a) p :=
  (tracks_semicolon what hp).bind fun _ q _ => tracks_pure a q

theorem tracks_terminated (n : Nat) (what : String) (g : Expr → α) (hp : E.Sealed p) :
    Tracks E (expression n >>= fun e => expect .semicolon what >>= fun _ => pure (g e)) p :=
  (expressionEmbeds E n).expression.bind_tracks hp fun _ _ hq => tracks_ended what _ hq

theorem tracks_varDeclaration (n : Nat) (hp : E.Sealed p) : Tracks E (varDeclaration n) p := by
  refine (Embeds.expect _ (by decide) (.inl (by decide))).bind_tracks hp fun name q hq =>
    (Embeds.accept rfl (.inl rfl)).bind_tracks hq fun o r hr => ?_
  cases o with
  | none => exact tracks_ended _ _ hr
  | some _ => exact tracks_terminated n _ _ hr

theorem tracks_breakStatement (t : Token) (hp : E.Sealed p) : Tracks E (breakStatement t) p := by
  rw [breakStatement_eq]
  exact (Embeds.demand (fun _ => rfl) _ _).bind_tracks hp fun _ _ hq => tracks_ended _ _ hq

theorem tracks_continueStatement (t : Token) (hp : E.Sealed p) :
    Tracks E (continueStatement t) p := by
  rw [continueStatement_eq]
  exact (Embeds.demand (fun _ => rfl) _ _).bind_tracks hp fun _ _ hq => tracks_ended _ _ hq

theorem tracks_returnStatement (n : Nat) (t : Token) (hp : E.Sealed p) :
    Tracks E (returnStatement n t) p := by
  rw [returnStatement_eq]
  exact (Embeds.demand (fun _ => rfl) _ _).bind_tracks hp fun _ _ hq =>
    (embeds_optionalExpression _ n).bind_tracks hq fun _ _ hr => tracks_ended _ _ hr

end

section
variable (hE : E.behind = []) (n : Nat)
include hE

theorem embeds_expect {k : Kind} (what : String) (hk : k ≠ .endOfInput) : Embeds E (expect k what) :=
  .expect what hk (.inr hE)

theorem embeds_accept {w : Kind → Bool} (hw : w .endOfInput = false) : Embeds E (accept w) :=
  .accept hw (.inr hE)

theorem embeds_terminated (what : String) (g : Expr → α) :
    Embeds E (expression n >>= fun e => expect .semicolon what >>= fun _ => pure (g e)) :=
  .of_tracks hE fun _ => tracks_terminated n what g

theorem embeds_varDeclaration : Embeds E (varDeclaration n) :=
  .of_tracks hE fun _ => tracks_varDeclaration n

theorem embeds_forInitializer : Embeds E (forInitializer n) := by
  refine (embeds_accept hE rfl).bind fun o => ?_
  cases o with
  | some _ => exact .pure none
  | none =>
    refine (embeds_accept hE rfl).bind fun o => ?_
    cases o with
    | some _ => exact (embeds_varDeclaration hE n).map some
    | none => exact (embeds_terminated hE n _ _).map some

theorem embeds_parameterList : ∀ count before, Embeds E (parameterList n count before) := by
  induction n with
  | zero => exact fun _ _ => .stalled
  | succ n ih =>
    intro count before
    rw [parameterList_succ]
    refine (Embeds.tally _ count).bind fun _ => (embeds_expect hE _ (by decide)).bind fun name =>
      (embeds_accept hE rfl).bind fun o => ?_
    cases o with
    | none => exact .pure _
    | some _ => exact ih _ _

theorem embeds_parameters : Embeds E (parameters n) := by
  rw [parameters_eq]
  refine (embeds_expect hE _ (by decide)).bind fun _ => Embeds.bind ?_ fun names =>
    (embeds_expect hE _ (by decide)).bind fun _ => .pure names
  exact (Embeds.check _).bind fun _ => .ite (.pure []) (embeds_parameterList hE n 0 [])

end

/-! Declarations and statements with parts. -/

/-- The parsers of declarations and statements do the same in a longer text. -/
structure StatementEmbeds (E : Embedding) (n : Nat) : Prop where
  declaration : Embeds E (declaration n)
  functionDeclaration : Embeds E (functionDeclaration n)
  statement : Embeds E (statement n)
  block : Embeds E (block n)
  blockBody : ∀ before, Embeds E (blockBody n before)
  ifStatement : Embeds E (ifStatement n)
  whileStatement : Embeds E (whileStatement n)
  forStatement : Embeds E (forStatement n)

theorem StatementEmbeds.zero : StatementEmbeds E 0 := by
  constructor <;> intros <;> exact .stalled

namespace StatementEmbeds
variable {n : Nat} (ih : StatementEmbeds E n) (hE : E.behind = [])
include ih hE

theorem declarationProper : Embeds E (Parse.declarationProper n) := by
  intro p hp
  have hcurrent := Embedding.parser_current hp
  have after {x : Parse Stmt} (hx : Embeds E x) (hend : p.current.kind ≠ .endOfInput) :
      x ((E.parser p).pass [p.current]) = mapState E.parser (x (p.pass [p.current])) ∧
        E.Sealed (final (x (p.pass [p.current]))) := by
    rw [Embedding.parser_pass hend]
    exact hx _ (.inl hE)
  unfold Parse.declarationProper
  rw [hcurrent]
  split
  next hk => exact after (embeds_varDeclaration hE n) (by rw [hk]; decide)
  next hk => exact after ih.functionDeclaration (by rw [hk]; decide)
  next => exact Embeds.fail _ _ p hp
  next => exact ih.statement p hp

private theorem statement_succ : Embeds E (Parse.statement (n + 1)) := by
  refine (Embeds.peek.bind fun t => ?_).nested
  have hadvance : Embeds E Parse.advance := .advance hE
  split
  · exact hadvance.bind fun _ => embeds_terminated hE n _ _
  · exact hadvance.bind fun _ => ih.block.bind fun _ => .pure _
  · exact hadvance.bind fun _ => ih.ifStatement
  · exact hadvance.bind fun _ => ih.whileStatement
  · exact hadvance.bind fun _ => ih.forStatement
  · exact hadvance.bind fun _ => .of_tracks hE fun _ => tracks_breakStatement _
  · exact hadvance.bind fun _ => .of_tracks hE fun _ => tracks_continueStatement _
  · exact hadvance.bind fun _ => .of_tracks hE fun _ => tracks_returnStatement n _
  · exact hadvance.bind fun _ => .pure _
  · exact embeds_terminated hE n _ _

omit hE in
private theorem blockBody_succ (before : List Stmt) :
    Embeds E (Parse.blockBody (n + 1) before) := by
  refine (Embeds.check _).bind fun _ => .ite (.pure _) (Embeds.atEnd.bind fun _ => .ite (.pure _) ?_)
  refine ih.declaration.bind fun o => ?_
  cases o <;> exact ih.blockBody _

private theorem ifStatement_succ : Embeds E (Parse.ifStatement (n + 1)) := by
  refine (embeds_expect hE _ (by decide)).bind fun _ => (expressionEmbeds E n).expression.bind
    fun _ => (embeds_expect hE _ (by decide)).bind fun _ => ih.statement.bind fun _ =>
    (embeds_accept hE rfl).bind fun o => ?_
  cases o with
  | none => exact .pure _
  | some _ => exact ih.statement.bind fun _ => .pure _

private theorem forStatement_succ : Embeds E (Parse.forStatement (n + 1)) := by
  rw [Parse.forStatement_succ]
  exact (embeds_expect hE _ (by decide)).bind fun _ => (embeds_forInitializer hE n).bind fun _ =>
    (embeds_optionalExpression _ n).bind fun _ => (embeds_expect hE _ (by decide)).bind fun _ =>
    (embeds_optionalExpression _ n).bind fun _ => (embeds_expect hE _ (by decide)).bind fun _ =>
    ih.statement.inLoop.bind fun _ => .pure _

theorem succ : StatementEmbeds E (n + 1) where
  declaration := declaration_succ n ▸ (ih.declarationProper hE).recovering hE
  functionDeclaration := (embeds_expect hE _ (by decide)).bind fun _ =>
    (embeds_parameters hE n).bind fun _ => (embeds_expect hE _ (by decide)).bind fun _ =>
    ih.block.inFunction.bind fun _ => .pure _
  statement := statement_succ ih hE
  block := .inBlock ((ih.blockBody []).bind fun _ => (embeds_expect hE _ (by decide)).bind fun _ =>
    .pure _)
  blockBody := blockBody_succ ih
  ifStatement := ifStatement_succ ih hE
  whileStatement := (embeds_expect hE _ (by decide)).bind fun _ =>
    (expressionEmbeds E n).expression.bind fun _ => (embeds_expect hE _ (by decide)).bind fun _ =>
    ih.statement.inLoop.bind fun _ => .pure _
  forStatement := forStatement_succ ih hE

end StatementEmbeds

theorem statementEmbeds (hE : E.behind = []) (n : Nat) : StatementEmbeds E n := by
  induction n with
  | zero => exact .zero
  | succ n ih => exact ih.succ hE

/-! At the top. -/

/-- A declaration is the same in the longer text, unless recovery could stop at its first token only
there. -/
theorem declaration_outer (hE : E.behind = []) {p : Parser} (n : Nat) (hle : p.start ≤ p.consumed)
    (hfirst : p.start < p.consumed ∨
      p.current.kind ≠ .kwClass ∧ p.depth < maxNesting ∧ p.blocks = 0) :
    declaration n (E.outer p) = mapState E.outer (declaration n p) := by
  cases n with
  | zero => rfl
  | succ n =>
    have hhere : (E.outer p).startingHere = E.parser p.startingHere := rfl
    have hsame := ((statementEmbeds hE n).declarationProper hE p.startingHere (.inl hE)).1
    rw [declaration_succ, recovering_apply, recovering_apply, hhere, hsame]
    cases hr : declarationProper n p.startingHere with
    | ok s q => rfl
    | error e q =>
      cases e with
      | stalled => rfl
      | bail =>
        have hfollows := (statementCourse n).declarationProper.of_error hr
        obtain ⟨ts, hts, hconsumed, -⟩ := hfollows.passed
        have hconsumed : q.consumed = p.consumed + ts.length := hconsumed
        have hplace : (q.startingAt p.start).start < (q.startingAt p.start).consumed ∨
            (nextKind (q.startingAt p.start).rest).stops (0 < (q.startingAt p.start).blocks) =
              false := by
          change p.start < q.consumed ∨ (nextKind q.rest).stops (0 < q.blocks) = false
          obtain hlt | ⟨hclass, hroom, hblocks⟩ := hfirst
          · exact .inl (by omega)
          cases ts with
          | cons t ts => exact .inl (by rw [hconsumed, List.length_cons]; omega)
          | nil =>
            have hrest : q.rest = p.rest := hts.symm
            have hresumes := resumes_eq_false_of_bail hr hrest hclass fun _ => hroom
            have hq : q.blocks = 0 := hfollows.blocks.trans hblocks
            refine .inr ?_
            rw [hrest, ← Parser.current_kind, Kind.stops, hq]
            exact (congrArg (· || _) hresumes).trans (Bool.and_false _)
        exact congrArg (EStateM.Result.ok none)
          (Embedding.outer_synchronize (p := q.startingAt p.start) hE
            (by change p.start ≤ q.consumed; omega) hplace)

/-- The declarations of a program are the same in the longer text, unless the first one is a class:
in the longer text a parse is stuck there. -/
theorem program_outer (hE : E.behind = []) (n : Nat) (before : List Stmt) (p : Parser)
    (hp : p.AtTop) (hfirst : 0 < p.consumed ∨ p.current.kind ≠ .kwClass) :
    program n before (E.outer p) = mapState E.outer (program n before p) := by
  induction n generalizing before p with
  | zero => rfl
  | succ n ih =>
    have hcurrent : (E.outer p).current = p.current := Embedding.parser_current (.inl hE)
    by_cases hend : p.current.kind = .endOfInput
    · rw [program_end before (Nat.succ_pos n) hend,
        program_end before (Nat.succ_pos n) (by rw [← Parser.current_kind, hcurrent]; exact hend)]
      rfl
    · have hroom : p.depth < maxNesting := by rw [hp.depth]; decide
      have hsame := declaration_outer hE n (hp.start ▸ Nat.zero_le _) (p := p)
        (hfirst.imp (fun hlt => hp.start ▸ hlt) fun hc => ⟨hc, hroom, hp.blocks⟩)
      rw [program_succ n before hend, program_succ n before (by rw [hcurrent]; exact hend)]
      cases hd : declaration n p with
      | error e q =>
        rw [hd] at hsame
        rw [bind_error hd, bind_error hsame]
        rfl
      | ok o q =>
        have hcourse := (statementCourse n).declaration
        have hfollows := hcourse.of_ok hd
        obtain ⟨ts, -, hconsumed, -⟩ := hfollows.passed
        -- Behind the first declaration recovery may stop at every keyword in both texts.
        have hbehind : 0 < q.consumed := by
          by_cases hlt : 0 < p.consumed
          · omega
          · have hadvances := declaration_advances hd hend (fun _ => hp.blocks)
              (fun _ => Nat.eq_zero_of_not_pos hlt) (.inl hroom)
            omega
        rw [hd] at hsame
        rw [bind_ok hd, bind_ok hsame]
        have htop := hp.follows hfollows (hcourse.depth_of_ok hd)
        cases o <;> exact ih _ q htop (.inl hbehind)

end Parse
end Lox
