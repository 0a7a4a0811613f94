import Lox.Proofs.Syntax.StatementAllotment
import Lox.Proofs.Syntax.StatementEmbedding

/-! Simple statements one after the other, with whatever faults: each is parsed as it is parsed alone,
because recovery from its faults ends behind its semicolon. -/
namespace Lox

/-- The keywords that start a simple statement. -/
def Kind.headsClause : Kind → Bool
  | .kwPrint | .kwVar | .kwReturn | .kwBreak | .kwContinue => true
  | _ => false

/-- Tokens of the other kinds end a statement or a block, or start one. -/
def Kind.withinClause : Kind → Bool
  | .semicolon | .leftBrace | .rightBrace | .endOfInput => false
  | .kwClass | .kwFun | .kwVar | .kwFor | .kwIf | .kwWhile | .kwPrint | .kwReturn => false
  | _ => true

/-- The tokens of a simple statement, well formed or not: there may be a keyword, and there is one
semicolon. -/
structure Clause where
  head : Option Token
  body : List Token
  stop : Token
  head_kind : ∀ t ∈ head, t.kind.headsClause = true
  body_kind : ∀ t ∈ body, t.kind.withinClause = true
  stop_kind : stop.kind = .semicolon

def Clause.tokens (c : Clause) : List Token := c.head.toList ++ c.body ++ [c.stop]

/-- Recovery passes the rest of a simple statement and its semicolon. -/
theorem Parser.skipFrom_clause (start : Nat) (inBlock : Bool) {stop : Token}
    (hstop : stop.kind = .semicolon) (us ts : List Token) :
    ∀ consumed, (∀ t ∈ ts, t.kind.withinClause = true) →
      skipFrom start inBlock consumed (ts ++ stop :: us) = (consumed + (ts.length + 1), us) := by
  induction ts with
  | nil =>
    intro consumed _
    rw [List.nil_append, skipFrom, hstop]
    rfl
  | cons t ts ih =>
    intro consumed hts
    have hwithin := hts t List.mem_cons_self
    have hend : t.kind ≠ .endOfInput := fun h => by rw [h] at hwithin; cases hwithin
    have hsemicolon : t.kind ≠ .semicolon := fun h => by rw [h] at hwithin; cases hwithin
    have hbrace : t.kind ≠ .rightBrace := fun h => by rw [h] at hwithin; cases hwithin
    have hresumes : t.kind.resumes = false := by
      revert hwithin
      generalize t.kind = k
      cases k <;> decide
    have hothers := ih (consumed + 1) fun u hu => hts u (List.mem_cons_of_mem t hu)
    rw [List.cons_append, skipFrom, if_neg hend, if_neg hsemicolon, hresumes, decide_eq_false hbrace,
      Bool.false_and, Bool.or_false, Bool.and_false, if_neg Bool.false_ne_true, hothers,
      List.length_cons]
    congr 1
    omega

namespace Parse
variable {α : Type} {E : Embedding} {p : Parser}

/-! Simple statements before other tokens. -/

/-- A step behind the next token, which is no semicolon. -/
theorem Tracks.after {x : Parse α} (hp : E.Sealed p) (hend : p.current.kind ≠ .endOfInput)
    (hk : p.current.kind ≠ .semicolon) (hx : ∀ q, E.Sealed q → Tracks E x q) :
    x ((E.parser p).pass [p.current]) = mapState E.parser (x (p.pass [p.current])) ∧
      ∀ e q, x (p.pass [p.current]) = .error e q → E.Sealed q := by
  have hnext := hx _ (hp.pass hend (.inl hk))
  rw [Embedding.parser_pass hend]
  exact ⟨hnext.same, hnext.bails⟩

theorem tracks_statementProper (n : Nat) (hp : E.Sealed p) (hk : nests p.current.kind = false) :
    Tracks E (statementProper n) p := by
  have hcurrent := Embedding.parser_current hp
  suffices h : statementProper n (E.parser p) = mapState E.parser (statementProper n p) ∧
      ∀ e q, statementProper n p = .error e q → E.Sealed q from ⟨h.1, h.2⟩
  unfold statementProper
  rw [hcurrent]
  dsimp only
  split
  next h => exact Tracks.after hp (by rw [h]; decide) (by rw [h]; decide) fun _ => tracks_terminated n _ _
  next h => rw [h] at hk; cases hk
  next h => rw [h] at hk; cases hk
  next h => rw [h] at hk; cases hk
  next h => rw [h] at hk; cases hk
  next h => exact Tracks.after hp (by rw [h]; decide) (by rw [h]; decide) fun _ => tracks_breakStatement _
  next h =>
    exact Tracks.after hp (by rw [h]; decide) (by rw [h]; decide) fun _ => tracks_continueStatement _
  next h =>
    exact Tracks.after hp (by rw [h]; decide) (by rw [h]; decide) fun _ => tracks_returnStatement n _
  next h =>
    rw [Embedding.parser_pass (by rw [h]; decide)]
    refine ⟨rfl, fun e q hq => ?_⟩
    cases hq
  next =>
    have hx : Tracks E (expressionStatement n) p := tracks_terminated n _ _ hp
    exact ⟨hx.same, hx.bails⟩

theorem tracks_declarationProper (n : Nat) (hp : E.Sealed p) (hk : nests p.current.kind = false)
    (hfun : p.current.kind ≠ .kwFun) : Tracks E (declarationProper n) p := by
  have hcurrent := Embedding.parser_current hp
  have hstatement : Tracks E (statement n) p := by
    cases n with
    | zero => exact Embeds.stalled.tracks hp
    | succ n =>
      rw [statement_succ]
      exact .nested hp (tracks_statementProper n (Embedding.sealed_of_rest hp rfl) hk)
  suffices h : declarationProper n (E.parser p) = mapState E.parser (declarationProper n p) ∧
      ∀ e q, declarationProper n p = .error e q → E.Sealed q from ⟨h.1, h.2⟩
  unfold declarationProper
  rw [hcurrent]
  split
  next h => exact Tracks.after hp (by rw [h]; decide) (by rw [h]; decide) fun _ => tracks_varDeclaration n
  next h => exact absurd h hfun
  next =>
    refine ⟨rfl, fun e q hq => ?_⟩
    cases hq
    exact hp
  next => exact ⟨hstatement.same, hstatement.bails⟩

end Parse

/-! A clause alone. -/

theorem Kind.withinClause_of_headsClause {k : Kind} (h : k.headsClause = true)
    (hresumes : k.resumes = false) : k.withinClause = true := by
  revert h hresumes
  cases k <;> decide

namespace Clause
variable (c : Clause)

/-- The tokens before the semicolon neither end a statement nor start one with parts. -/
theorem kind_before_stop {t : Token} (ht : t ∈ c.head.toList ++ c.body) :
    t.kind.headsClause = true ∨ t.kind.withinClause = true := by
  obtain ht | ht := List.mem_append.1 ht
  · exact .inl (c.head_kind t (Option.mem_toList.1 ht))
  · exact .inr (c.body_kind t ht)

theorem first_kind : Parse.nests (nextKind c.tokens) = false ∧ nextKind c.tokens ≠ .kwFun ∧
    nextKind c.tokens ≠ .kwClass ∧ nextKind c.tokens ≠ .endOfInput := by
  cases hbefore : c.head.toList ++ c.body with
  | nil =>
    rw [tokens, hbefore, List.nil_append, nextKind_cons, c.stop_kind]
    decide
  | cons t ts =>
    have hkind := c.kind_before_stop (t := t) (hbefore ▸ List.mem_cons_self)
    rw [tokens, hbefore, List.cons_append, nextKind_cons]
    revert hkind
    generalize t.kind = k
    cases k <;> decide

theorem length_pos : 0 < c.tokens.length := by
  rw [tokens, List.length_append, List.length_singleton]
  omega

theorem current_ne_end {p : Parser} {us : List Token} (h : p.rest = c.tokens ++ us) :
    p.current.kind ≠ .endOfInput := by
  obtain ⟨t, ts, htokens⟩ := List.exists_cons_of_length_pos c.length_pos
  obtain ⟨-, -, -, hend⟩ := c.first_kind
  rw [htokens] at h hend
  rw [Parser.current_cons h]
  exact hend

/-- What ends a statement ends the clause. -/
theorem eq_nil_of_ends {xs ts : List Token} {t : Token} (h : c.tokens = xs ++ t :: ts)
    (ht : t.kind = .semicolon ∨ t.kind = .rightBrace) : ts = [] := by
  obtain rfl | ⟨us, u, rfl⟩ := List.eq_nil_or_concat ts
  · rfl
  · have hsplit : c.head.toList ++ c.body ++ [c.stop] = xs ++ t :: us ++ [u] :=
      h.trans (by simp)
    have hbefore := (List.append_inj' hsplit rfl).1
    have hkind := c.kind_before_stop (t := t) (by rw [hbefore]; simp)
    obtain ht | ht := ht <;> rw [ht] at hkind <;> exact absurd hkind (by decide)

/-- Behind the first token, and behind one at which recovery does not stop, it does not stop before
the semicolon. -/
theorem within_of_suffix {xs ts : List Token} {t : Token} (h : c.tokens = xs ++ (ts ++ [t]))
    (hfirst : xs = [] → (nextKind c.tokens).resumes = false) :
    t = c.stop ∧ ∀ u ∈ ts, u.kind.withinClause = true := by
  have hsplit : c.head.toList ++ c.body ++ [c.stop] = xs ++ ts ++ [t] :=
    h.trans (List.append_assoc xs ts [t]).symm
  obtain ⟨hbefore, hstop⟩ := List.append_inj' hsplit rfl
  refine ⟨(List.singleton_inj.1 hstop).symm, fun u hu => ?_⟩
  cases hhead : c.head with
  | none =>
    rw [hhead] at hbefore
    have hbody : c.body = xs ++ ts := hbefore
    exact c.body_kind u (by rw [hbody]; exact List.mem_append_right _ hu)
  | some head =>
    rw [hhead] at hbefore
    cases xs with
    | cons x xs =>
      have hbody : c.body = xs ++ ts := (List.cons.inj hbefore).2
      exact c.body_kind u (by rw [hbody]; exact List.mem_append_right _ hu)
    | nil =>
      have hresumes : head.kind.resumes = false := by
        have hnext := hfirst rfl
        rw [tokens, hhead] at hnext
        exact hnext
      have hts : head :: c.body = ts := hbefore
      rw [← hts] at hu
      obtain rfl | hu := List.mem_cons.1 hu
      · exact Kind.withinClause_of_headsClause (c.head_kind _ hhead) hresumes
      · exact c.body_kind u hu

end Clause

/-- The state with more faults, last one first. -/
def Parser.finding (p : Parser) (fs : List SyntaxFault) : Parser := { p with faults := fs ++ p.faults }

theorem Parser.AtTop.finding {p : Parser} (h : p.AtTop) (fs : List SyntaxFault) :
    (p.finding fs).AtTop := ⟨h.depth, h.loops, h.functions, h.blocks, h.start⟩

namespace Parse

theorem halts_declarationProper {n : Nat} {p : Parser} (hk : nests p.current.kind = false)
    (hfun : p.current.kind ≠ .kwFun) (hend : p.current.kind ≠ .endOfInput)
    (hn : 32 * p.rest.length + 27 ≤ n) : Halts (declarationProper n p) := by
  have hrest := Parser.rest_eq_cons hend
  unfold declarationProper
  split
  next =>
    refine affords_varDeclaration n _ ?_
    rw [hrest, List.length_cons] at hn
    omega
  next h => exact absurd h hfun
  next => exact halts_bail _
  next =>
    obtain ⟨n, rfl⟩ : ∃ m, n = m + 1 := ⟨n - 1, by omega⟩
    have hdeep : (p.atDepth (p.depth + 1)).rest = p.current :: (p.pass [p.current]).rest ++ [] := by
      rw [List.append_nil]
      exact hrest
    have hlands := lands_plainStatement (n := n) hk hdeep rfl
      (by change 32 * p.rest.length + 26 ≤ n; omega)
    rw [statement_succ]
    exact hlands.halts.nested

end Parse

namespace Clause
variable (c : Clause) {n : Nat} {p q : Parser} {us : List Token}

/-- How a clause is parsed with nothing before it and nothing behind it. -/
def alone : EStateM.Result Interrupt Parser Stmt :=
  Parse.declarationProper (32 * c.tokens.length + 27) { rest := c.tokens }

theorem halts_alone : Parse.Halts c.alone := by
  obtain ⟨hnests, hfun, -, hend⟩ := c.first_kind
  exact Parse.halts_declarationProper hnests hfun hend (Nat.le_refl _)

theorem tracks (E : Embedding) (n : Nat) :
    Parse.Tracks E (Parse.declarationProper n) { rest := c.tokens } := by
  have hsealed : E.Sealed { rest := c.tokens } :=
    .inr ⟨c.stop, List.mem_append_right _ List.mem_cons_self, c.stop_kind⟩
  obtain ⟨hnests, hfun, -, -⟩ := c.first_kind
  exact Parse.tracks_declarationProper n hsealed hnests hfun

/-- What the tokens of a clause are parsed to does not depend on where they stand at the top. -/
theorem declarationProper_eq (hp : p.AtTop) (hrest : p.rest = c.tokens ++ us)
    (hn : 32 * c.tokens.length + 27 ≤ n) :
    Parse.declarationProper n p.startingHere =
      Parse.mapState (Embedding.parser ⟨p.consumed, p.faults, us⟩) c.alone := by
  have hplace : p.startingHere = Embedding.parser ⟨p.consumed, p.faults, us⟩ { rest := c.tokens } := by
    obtain ⟨hdepth, hloops, hfunctions, hblocks, -⟩ := hp
    simp only [Parser.startingHere, Embedding.parser, hrest, hdepth, hloops, hfunctions, hblocks,
      Nat.zero_add, List.nil_append]
  have hextended := Parse.ExtendedBy.of_le (fun k => (Parse.statementExtension k).declarationProper)
    hn { rest := c.tokens }
  obtain hsame | ⟨r, hr⟩ := hextended
  · rw [hplace, alone, hsame]
    exact (c.tracks _ n).same
  · exact absurd hr (c.halts_alone r)

/-- The state behind a clause. -/
theorem outer_eq_finding {fs : List SyntaxFault} (hp : p.AtTop) (hrest : p.rest = c.tokens ++ us) :
    (Embedding.parser ⟨p.consumed, p.faults, us⟩
      { rest := [], consumed := c.tokens.length, faults := fs }).startingAt p.start =
      (p.pass c.tokens).finding fs := by
  obtain ⟨hdepth, hloops, hfunctions, hblocks, -⟩ := hp
  simp [Embedding.parser, Parser.startingAt, Parser.finding, Parser.pass, hrest, hdepth, hloops,
    hfunctions, hblocks, Nat.add_comm]

/-- Recovery within a clause ends behind it. -/
theorem synchronize_eq {ts : List Token} {start : Nat} (hq : q.AtTop) (hrest : q.rest = ts ++ [c.stop])
    (hts : ∀ t ∈ ts, t.kind.withinClause = true) (E : Embedding) :
    ((E.parser q).startingAt start).synchronize =
      (E.parser { rest := [], consumed := q.consumed + (ts.length + 1), faults := q.faults }).startingAt
        start := by
  obtain ⟨hdepth, hloops, hfunctions, hblocks, -⟩ := hq
  have hskip := Parser.skipFrom_clause start (0 < 0) c.stop_kind E.behind ts
    (q.consumed + E.before) hts
  have hbehind : q.rest ++ E.behind = ts ++ c.stop :: E.behind := by rw [hrest]; simp
  simp only [Parser.synchronize, Embedding.parser, Parser.startingAt, hbehind, hskip, hdepth, hloops,
    hfunctions, hblocks, List.nil_append, Nat.add_right_comm]

end Clause

namespace Parse

/-- At the top, whatever follows, the tokens are one declaration, with this statement, if there is
one, and these faults, last one first. -/
def Apart (ts : List Token) (o : Option Stmt) (fs : List SyntaxFault) : Prop :=
  ∀ ⦃n : Nat⦄ ⦃p : Parser⦄ ⦃us : List Token⦄, p.AtTop → p.rest = ts ++ us → 32 * ts.length + 28 ≤ n →
    declaration n p = .ok o ((p.pass ts).finding fs)

end Parse

namespace Clause
variable (c : Clause) {q : Parser}

/-- The state that a clause alone ends in. -/
theorem final_alone (h : Parse.final c.alone = q) :
    q.AtTop ∧ ∃ ys, c.tokens = ys ++ q.rest ∧ q.consumed = ys.length := by
  have hcourse := (Parse.statementCourse (32 * c.tokens.length + 27)).declarationProper
  have hdepth := hcourse.depth { rest := c.tokens }
  have hfollows := hcourse.follows { rest := c.tokens }
  change (Parse.final c.alone).depth = 0 at hdepth
  change Parser.Follows _ _ (Parse.final c.alone) at hfollows
  rw [h] at hdepth hfollows
  obtain ⟨ys, hys, hconsumed, -⟩ := hfollows.passed
  exact ⟨.follows (.ofTokens c.tokens) hfollows hdepth, ys, hys, hconsumed.trans (Nat.zero_add _)⟩

theorem apart_of_ok {s : Stmt} (hr : c.alone = .ok s q) : Parse.Apart c.tokens (some s) q.faults := by
  obtain ⟨htop, ys, hys, hconsumed⟩ := c.final_alone (q := q) (by rw [hr]; rfl)
  obtain ⟨xs, t, hxs, ht⟩ := Parse.ends_declarationProper _ hr
  have hnil : q.rest = [] := c.eq_nil_of_ends hxs ht
  have hlen : q.consumed = c.tokens.length := by rw [hconsumed, hys, hnil, List.append_nil]
  have hq : q = { rest := [], consumed := c.tokens.length, faults := q.faults } := by
    rw [← hnil, ← hlen]
    exact htop.eq_mk
  intro n p us hp hrest hn
  obtain ⟨n, rfl⟩ : ∃ m, n = m + 1 := ⟨n - 1, by omega⟩
  rw [Parse.declaration_succ, Parse.recovering_apply, c.declarationProper_eq hp hrest (by omega), hr,
    ← c.outer_eq_finding hp hrest, ← hq]
  rfl

theorem apart_of_bail (hr : c.alone = .error .bail q) : Parse.Apart c.tokens none q.faults := by
  obtain ⟨htop, ys, hys, hconsumed⟩ := c.final_alone (q := q) (by rw [hr]; rfl)
  -- The semicolon has not been passed, even if other tokens come behind it.
  obtain ⟨t, ht, -⟩ := ((c.tracks ⟨0, [], [c.stop]⟩ _).bails .bail q hr).resolve_left
    (List.cons_ne_nil _ _)
  obtain ⟨ts, u, hts⟩ := (List.eq_nil_or_concat q.rest).resolve_left (List.ne_nil_of_mem ht)
  rw [List.concat_eq_append] at hts
  have hroom : 0 < maxNesting := by decide
  obtain ⟨-, -, hclass, -⟩ := c.first_kind
  obtain ⟨rfl, hwithin⟩ := c.within_of_suffix (hts ▸ hys) fun hnone =>
    Parse.resumes_eq_false_of_bail hr (by rw [hys, hnone]; rfl) hclass fun _ => hroom
  have hlen : q.consumed + (ts.length + 1) = c.tokens.length := by
    rw [hconsumed, hys, hts, List.length_append, List.length_append, List.length_singleton]
  intro n p us hp hrest hn
  obtain ⟨n, rfl⟩ : ∃ m, n = m + 1 := ⟨n - 1, by omega⟩
  rw [Parse.declaration_succ, Parse.recovering_apply, c.declarationProper_eq hp hrest (by omega), hr,
    ← c.outer_eq_finding hp hrest, ← hlen, ← c.synchronize_eq htop hts hwithin]
  rfl

/-- A clause is one declaration, whatever follows. -/
theorem exists_apart : ∃ o fs, Parse.Apart c.tokens o fs := by
  cases hr : c.alone with
  | ok s q => exact ⟨some s, q.faults, c.apart_of_ok hr⟩
  | error e q =>
    cases e with
    | stalled => exact absurd hr (c.halts_alone q)
    | bail => exact ⟨none, q.faults, c.apart_of_bail hr⟩

end Clause

/-! Clauses one after the other. -/

/-- What a clause is parsed to alone. -/
def Clause.program (c : Clause) : Program :=
  (Program.parse? (c.tokens ++ [.absent])).getD ⟨[], []⟩

namespace Parse

/-- A clause is taken in one step, and the parse goes on behind it. -/
theorem Apart.program_succ {c : Clause} {o : Option Stmt} {fs : List SyntaxFault}
    (h : Apart c.tokens o fs) {n : Nat} {p : Parser} {us : List Token} (before : List Stmt)
    (hp : p.AtTop) (hrest : p.rest = c.tokens ++ us) (hn : 32 * c.tokens.length + 28 ≤ n) :
    program (n + 1) before p = program n (o.toList ++ before) ((p.pass c.tokens).finding fs) := by
  rw [Parse.program_succ n before (c.current_ne_end hrest), bind_ok (h hp hrest hn)]
  cases o with
  | none => rfl
  | some s => rfl

end Parse

namespace Clause
variable (c : Clause)

theorem parse?_of_apart {o : Option Stmt} {fs : List SyntaxFault} {stop : Token}
    (h : Parse.Apart c.tokens o fs) (hstop : stop.kind = .endOfInput) :
    Program.parse? (c.tokens ++ [stop]) = some ⟨o.toList, fs.reverse⟩ := by
  have hstep := h.program_succ (p := { rest := c.tokens ++ [stop] }) [] (.ofTokens _) rfl (Nat.le_refl _)
  have hnext : nextKind ((Parser.pass { rest := c.tokens ++ [stop] } c.tokens).finding fs).rest =
      .endOfInput := by
    rw [Parser.finding, Parser.pass_rest rfl]
    exact hstop
  rw [Parse.program_end _ (Nat.succ_pos _) hnext] at hstep
  rw [Program.parse?_of_ok hstep]
  cases o <;> simp [Parser.finding, Parser.pass]

/-- A clause is one declaration, whatever follows: the one that it is alone. -/
theorem exists_apart_program : ∃ o fs, Parse.Apart c.tokens o fs ∧
    c.program = ⟨o.toList, fs.reverse⟩ := by
  obtain ⟨o, fs, h⟩ := c.exists_apart
  refine ⟨o, fs, h, ?_⟩
  rw [program, c.parse?_of_apart h rfl, Option.getD_some]

end Clause

namespace Parse

/-- The clauses are taken one by one, up to the end. -/
theorem program_clauses (cs : List Clause) {n : Nat} {p : Parser} {us : List Token}
    (before : List Stmt) (hp : p.AtTop) (hrest : p.rest = cs.flatMap Clause.tokens ++ us)
    (hend : nextKind us = .endOfInput) (hn : 32 * p.rest.length + 29 ≤ n) :
    ∃ q, program n before p =
        .ok (before.reverse ++ cs.flatMap fun c => c.program.statements) q ∧
      q.faults.reverse = p.faults.reverse ++ cs.flatMap fun c => c.program.faults := by
  induction cs generalizing n p before with
  | nil =>
    have hnext : nextKind p.rest = .endOfInput := by rw [hrest]; exact hend
    refine ⟨p, ?_, ?_⟩
    · rw [program_end before (by omega) hnext, List.flatMap_nil, List.append_nil]
    · rw [List.flatMap_nil, List.append_nil]
  | cons c cs ih =>
    obtain ⟨n, rfl⟩ : ∃ m, n = m + 1 := ⟨n - 1, by omega⟩
    obtain ⟨o, fs, happart, hprogram⟩ := c.exists_apart_program
    have hsplit : p.rest = c.tokens ++ (cs.flatMap Clause.tokens ++ us) := by
      rw [hrest, List.flatMap_cons, List.append_assoc]
    have hbehind : ((p.pass c.tokens).finding fs).rest = cs.flatMap Clause.tokens ++ us :=
      Parser.pass_rest hsplit
    have hpos := c.length_pos
    have hlen := congrArg List.length hsplit
    rw [List.length_append, ← hbehind] at hlen
    obtain ⟨q, hq, hfaults⟩ := ih (n := n) (o.toList ++ before) ((hp.pass c.tokens).finding fs)
      hbehind (by omega)
    refine ⟨q, ?_, ?_⟩
    · rw [happart.program_succ before hp hsplit (by omega), hq, List.flatMap_cons, hprogram]
      cases o <;> simp
    · rw [hfaults, List.flatMap_cons, hprogram]
      simp [Parser.finding]

end Parse

namespace Program

/-- Simple statements one after the other, whatever their faults, are parsed to the statements and
the faults that each of them is parsed to alone. Alone each is one statement at most. -/
theorem clauses_parsed_apart (cs : List Clause) {stop : Token} (hstop : stop.kind = .endOfInput) :
    parse? (cs.flatMap Clause.tokens ++ [stop]) =
        some ⟨cs.flatMap fun c => c.program.statements, cs.flatMap fun c => c.program.faults⟩ ∧
      ∀ c ∈ cs, parse? (c.tokens ++ [stop]) = some c.program ∧ c.program.statements.length ≤ 1 := by
  constructor
  · have hnext : nextKind [stop] = .endOfInput := hstop
    obtain ⟨q, hq, hfaults⟩ := Parse.program_clauses cs [] (.ofTokens _) rfl hnext (Nat.le_refl _)
    rw [parse?_of_ok hq, hfaults]
    rfl
  · intro c _
    obtain ⟨o, fs, happart, hprogram⟩ := c.exists_apart_program
    rw [hprogram]
    refine ⟨c.parse?_of_apart happart hstop, ?_⟩
    cases o <;> simp

/-- A statement without its value, one that stands in the wrong place, and one in order. -/
theorem clauses_parsed_apart_faults :
    let token (kind : Kind) : Token := ⟨kind, [], .nil, ⟨0, 1, 1⟩⟩
    let name := token .identifier
    let semicolon := token .semicolon
    ∃ program, parse? [token .kwPrint, token .rightParen, name, semicolon, token .kwBreak, semicolon,
        name, semicolon, token .endOfInput] = some program ∧
      program.statements.length = 2 ∧ program.faults =
        [⟨.expectedExpression, token .rightParen⟩, ⟨.breakOutsideLoop, token .kwBreak⟩] := by
  intro token name semicolon
  let print : Clause := ⟨some (token .kwPrint), [token .rightParen, name], semicolon, by decide,
    by decide, rfl⟩
  let exit : Clause := ⟨some (token .kwBreak), [], semicolon, by decide, by decide, rfl⟩
  let plain : Clause := ⟨none, [name], semicolon, by decide, by decide, rfl⟩
  have hstop : (token .endOfInput).kind = .endOfInput := rfl
  refine ⟨_, (clauses_parsed_apart [print, exit, plain] hstop).1, ?_, ?_⟩
  · decide +kernel
  · decide +kernel

end Program
end Lox
