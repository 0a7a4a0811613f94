import Lox.Proofs.Syntax.StatementAllotment

/-! A program is parsed in rounds, one for each declaration. A round that ends has passed a token, so
there are no more rounds than tokens. But a round need not end: within blocks that nest as deep as
they may, the same statement is tried again and again. -/
namespace Lox

/-! Blocks within blocks. -/

/-- The state behind the opening brace of a block that is next. -/
def Parser.opened (p : Parser) : Parser :=
  { p.pass [p.current] with start := p.consumed, depth := p.depth + 1, blocks := p.blocks + 1 }

namespace Parse

theorem Halts.of_nested {α : Type} {step : Parse α} {p : Parser} (hd : p.depth < maxNesting)
    (h : Halts (Parse.nested step p)) : Halts (step (p.atDepth (p.depth + 1))) := by
  intro q hq
  refine h (q.atDepth p.depth) ?_
  rw [nested_ok hd, hq]

theorem Halts.of_recovering {α : Type} {step : Parse α} {p : Parser}
    (h : Halts (Parse.recovering step p)) : Halts (step p.startingHere) := by
  intro q hq
  refine h (q.startingAt p.start) ?_
  rw [recovering_apply, hq]

/-- A block comes to an end only if its body does. -/
theorem Halts.of_block {n : Nat} {p : Parser} (hk : p.current.kind = .leftBrace)
    (hd : p.depth < maxNesting) (h : Halts (declaration n p)) :
    ∃ m, Halts (blockBody m [] p.opened) := by
  cases n with
  | zero => exact absurd rfl (h p)
  | succ n =>
    rw [declaration_succ] at h
    have hproper : declarationProper n p.startingHere = statement n p.startingHere := by
      have hcurrent : p.startingHere.current.kind = .leftBrace := hk
      unfold declarationProper
      rw [hcurrent]
    have hstatement := h.of_recovering
    rw [hproper] at hstatement
    cases n with
    | zero => exact absurd rfl (hstatement p.startingHere)
    | succ n =>
      rw [statement_succ] at hstatement
      have hblock := hstatement.of_nested (p := p.startingHere) hd
      have hcurrent : (p.startingHere.atDepth (p.startingHere.depth + 1)).current.kind = .leftBrace := hk
      unfold statementProper at hblock
      rw [hcurrent] at hblock
      have hbraced := hblock.of_bind
      cases n with
      | zero => exact absurd rfl (hbraced _)
      | succ n =>
        rw [block, inBlock] at hbraced
        exact ⟨n, (halts_bracket_iff.1 hbraced).of_bind⟩

/-- Blocks that nest as deep as they may, with the keyword of a statement in them: the innermost one
has no end. -/
theorem not_halts_blocks {t : Token} (ht : t.kind.startsKeywordStatement = true) (ts : List Token)
    (opens : List Token) (hopens : ∀ o ∈ opens, o.kind = .leftBrace) {o : Token}
    (ho : o.kind = .leftBrace) (n : Nat) {p : Parser} (hrest : p.rest = o :: (opens ++ t :: ts))
    (hd : p.depth + (opens.length + 1) = maxNesting) : ¬ Halts (declaration n p) := by
  induction opens generalizing o n p with
  | nil =>
    intro h
    have hcurrent : p.current = o := Parser.current_cons hrest
    obtain ⟨m, hm⟩ := h.of_block (by rw [hcurrent]; exact ho) (by omega)
    have hinner : p.opened.rest = t :: ts := by
      rw [Parser.opened, hcurrent]
      exact Parser.pass_one hrest
    have hstuck : p.opened.Stuck := by
      refine ⟨Nat.lt_succ_self p.consumed, .inr ⟨?_, Nat.le_of_eq hd.symm⟩⟩
      rw [Parser.current_cons hinner]
      exact ht
    obtain ⟨q, hq, -⟩ := repeats_blockBody.stays m [] hstuck
    exact hm q hq
  | cons u opens ih =>
    intro h
    have hcurrent : p.current = o := Parser.current_cons hrest
    have hu : u.kind = .leftBrace := hopens u List.mem_cons_self
    have hroom : p.depth + (opens.length + 1 + 1) = maxNesting := hd
    obtain ⟨m, hm⟩ := h.of_block (by rw [hcurrent]; exact ho) (by omega)
    have hinner : p.opened.rest = u :: (opens ++ t :: ts) := by
      rw [Parser.opened, hcurrent]
      exact Parser.pass_one hrest
    have hnext : p.opened.current.kind = .leftBrace := by rw [Parser.current_cons hinner]; exact hu
    cases m with
    | zero => exact hm p.opened rfl
    | succ m =>
      rw [blockBody_succ m [] (by rw [hnext]; decide) (by rw [hnext]; decide)] at hm
      refine ih (fun v hv => hopens v (List.mem_cons_of_mem u hv)) hu m hinner ?_ hm.of_bind
      change p.depth + 1 + (opens.length + 1) = maxNesting
      omega

end Parse

namespace Program

theorem parse?_of_neverEnds {tokens : List Token} (h : NeverEnds tokens) : parse? tokens = none := by
  unfold parse?
  split
  next ss q hq => exact absurd (hq ▸ Parse.halts_ok ss q) (h _)
  next => rfl

/-- As many blocks as may nest, and in the innermost one a statement with a keyword: the fault is
found again and again. -/
theorem neverEnds_of_blocks {opens : List Token} (hopens : ∀ o ∈ opens, o.kind = .leftBrace)
    (hlen : opens.length = maxNesting) {t : Token} (ht : t.kind.startsKeywordStatement = true)
    (ts : List Token) : NeverEnds (opens ++ t :: ts) := by
  intro n h
  cases opens with
  | nil => cases hlen
  | cons o opens =>
    have ho := hopens o List.mem_cons_self
    cases n with
    | zero => exact h _ rfl
    | succ n =>
      have hend : (Parser.current { rest := o :: opens ++ t :: ts }).kind ≠ .endOfInput := by
        change o.kind ≠ .endOfInput
        rw [ho]
        decide
      rw [Parse.program_succ n [] hend] at h
      refine Parse.not_halts_blocks ht ts opens (fun u hu => hopens u (List.mem_cons_of_mem o hu)) ho n
        rfl ?_ h.of_bind
      rw [← hlen, List.length_cons]
      exact Nat.zero_add _

/-! The rounds at the top. -/

/-- The parse of the tokens is at the top in this state, after declarations that gave these results,
last one first. -/
inductive Rounds (tokens : List Token) : List (Option Stmt) → Parser → Prop where
  | start : Rounds tokens [] { rest := tokens }
  | next {os : List (Option Stmt)} {p q : Parser} {n : Nat} {o : Option Stmt}
      (before : Rounds tokens os p) (hend : p.current.kind ≠ .endOfInput)
      (h : Parse.declaration n p = .ok o q) : Rounds tokens (o :: os) q

namespace Rounds
variable {tokens : List Token} {os : List (Option Stmt)} {p : Parser}

theorem follows (h : Rounds tokens os p) : Parser.Follows Kind.passable { rest := tokens } p := by
  induction h with
  | start => exact .refl _ _
  | next _ _ h ih => exact ih.trans ((Parse.statementCourse _).declaration.of_ok h)

theorem atTop (h : Rounds tokens os p) : p.AtTop := by
  induction h with
  | start => exact .ofTokens tokens
  | @next _ _ _ n _ _ _ h ih =>
    have hcourse := (Parse.statementCourse n).declaration
    exact ih.follows (hcourse.of_ok h) (hcourse.depth_of_ok h)

/-- Each round passes a token. -/
theorem length_le_consumed (hclass : ∀ t ∈ tokens.tail, t.kind ≠ .kwClass)
    (h : Rounds tokens os p) : os.length ≤ p.consumed := by
  induction h with
  | start => exact Nat.le_refl _
  | @next os p q n o before hend h ih =>
    have htop := before.atTop
    have hroom : p.depth < maxNesting := by rw [htop.depth]; decide
    have hfirst (hk : p.current.kind = .kwClass) : p.consumed = 0 := by
      refine Nat.eq_zero_of_not_pos fun hbehind => ?_
      exact hclass _ (before.follows.current_mem_tail hbehind hend) hk
    have hadvances := Parse.declaration_advances h hend (fun _ => htop.blocks) hfirst (.inl hroom)
    rw [List.length_cons]
    omega

theorem consumed_add_length (h : Rounds tokens os p) :
    p.consumed + p.rest.length = tokens.length := by
  obtain ⟨ts, hts, hconsumed, -⟩ := h.follows.passed
  have hlen := congrArg List.length hts
  rw [List.length_append] at hlen
  have hconsumed : p.consumed = 0 + ts.length := hconsumed
  change tokens.length = _ at hlen
  omega

/-- A parse that ends has made its rounds up to the end of the input. -/
theorem of_program {n : Nat} {ss : List Stmt} {q : Parser} (h : Rounds tokens os p)
    (hq : Parse.program n (os.filterMap id) p = .ok ss q) :
    ∃ os', Rounds tokens os' q ∧ q.current.kind = .endOfInput ∧ ss = os'.reverse.filterMap id := by
  induction n generalizing os p with
  | zero => cases hq
  | succ n ih =>
    by_cases hend : p.current.kind = .endOfInput
    · rw [Parse.program_end _ (Nat.succ_pos n) hend] at hq
      cases hq
      exact ⟨os, h, hend, List.filterMap_reverse.symm⟩
    · rw [Parse.program_succ n _ hend] at hq
      obtain ⟨o, r, hr, hq⟩ := Parse.bind_eq_ok hq
      have hnext := h.next hend hr
      cases o <;> exact ih hnext hq

end Rounds

/-- Recovery makes progress. A declaration that ends has passed a token, if it is not called at a brace
that closes the block around it, at a `class` behind the first token, or at a keyword where no more
nesting is possible. So without a `class` behind the first token a program is parsed in no more rounds
than it has tokens, up to the end of the input, unless the parse never ends: then it is held up at the
keyword of a statement, and reports too much nesting there. -/
theorem rounds_make_progress (tokens : List Token) :
    (∀ (n : Nat) (p q : Parser) (o : Option Stmt), Parse.declaration n p = .ok o q →
      p.current.kind ≠ .endOfInput → (p.current.kind = .rightBrace → p.blocks = 0) →
      (p.current.kind = .kwClass → p.consumed = 0) →
      (p.depth < maxNesting ∨ p.current.kind.startsKeywordStatement = false) →
      p.consumed < q.consumed) ∧
    ((∀ t ∈ tokens.tail, t.kind ≠ .kwClass) →
      (∀ os p, Rounds tokens os p → p.current.kind ≠ .endOfInput → os.length < tokens.length) ∧
      ((∃ os p, Rounds tokens os p ∧ p.current.kind = .endOfInput ∧ os.length ≤ tokens.length ∧
          parse? tokens = some ⟨os.reverse.filterMap id, p.faults.reverse⟩) ∨
        NeverEnds tokens ∧ ∃ q, Parse.program (Parser.allotment tokens.length) [] { rest := tokens } =
            .error .stalled q ∧
          q.current ∈ tokens.tail ∧ q.current.kind.startsKeywordStatement = true ∧
          ⟨.tooDeep, q.current⟩ ∈ q.faults)) := by
  refine ⟨fun n p q o h => Parse.declaration_advances h, fun hclass => ⟨?_, ?_⟩⟩
  · intro os p h hend
    have hrounds := h.length_le_consumed hclass
    have hall := h.consumed_add_length
    rw [Parser.rest_eq_cons hend, List.length_cons] at hall
    omega
  · cases hparse : parse? tokens with
    | none =>
      obtain ⟨hnever, q, hq, hplace, htail⟩ := heldUp_of_parse?_eq_none hparse
      exact .inr ⟨hnever, q, hq, htail, hplace.token.resolve_left (hclass _ htail)⟩
    | some program =>
      unfold parse? at hparse
      split at hparse
      next ss q hq =>
        cases hparse
        obtain ⟨os, hrounds, hend, rfl⟩ := Rounds.start.of_program hq
        have hle := hrounds.length_le_consumed hclass
        have hall := hrounds.consumed_add_length
        exact .inl ⟨os, q, hrounds, hend, by omega, rfl⟩
      next => cases hparse

/-- Too much nesting before what is no keyword, and a program with a `class` at its start and another
fault. -/
theorem rounds_make_progress_faults :
    let token (kind : Kind) : Token := ⟨kind, [], .nil, ⟨0, 1, 1⟩⟩
    let name := token .identifier
    let semicolon := token .semicolon
    let p : Parser :=
      { rest := [token .equal, semicolon, token .rightBrace], consumed := 7
        depth := maxNesting, blocks := 1, start := 6 }
    let tokens := [token .kwClass, name, semicolon, token .kwVar, semicolon, name, semicolon,
      token .endOfInput]
    (∃ o q, Parse.declaration 3 p = .ok o q ∧ 7 < q.consumed) ∧
      ∃ os q, Rounds tokens os q ∧ q.current.kind = .endOfInput ∧ os.length ≤ 8 ∧
        parse? tokens = some ⟨os.reverse.filterMap id, q.faults.reverse⟩ := by
  intro token name semicolon p tokens
  obtain ⟨hprogress, hrounds⟩ := rounds_make_progress tokens
  constructor
  · have hdeep : Parse.declaration 3 p = .ok none { p with
        rest := [token .rightBrace], consumed := 9, faults := [⟨.tooDeep, token .equal⟩] } := rfl
    exact ⟨_, _, hdeep, hprogress 3 p _ _ hdeep (by decide) (by decide) (by decide) (.inr rfl)⟩
  · have hclass : ∀ t ∈ tokens.tail, t.kind ≠ .kwClass := by decide
    refine (hrounds hclass).2.resolve_right fun hnever => ?_
    have hparsed : (parse? tokens).isSome = true := by decide +kernel
    rw [parse?_of_neverEnds hnever.1] at hparsed
    cases hparsed

/-- A statement in blocks that nest as deep as they may: no token is a `class`, and yet the parse does
not get to the end of the input. -/
theorem parse_never_ends_in_blocks :
    let token (kind : Kind) : Token := ⟨kind, [], .nil, ⟨0, 1, 1⟩⟩
    let tokens := List.replicate maxNesting (token .leftBrace) ++ token .kwPrint ::
      ([token .identifier, token .semicolon] ++ List.replicate maxNesting (token .rightBrace) ++
        [token .endOfInput])
    (∀ t ∈ tokens, t.kind ≠ .kwClass) ∧ NeverEnds tokens ∧ parse? tokens = none := by
  intro token tokens
  have hclass : ∀ t ∈ tokens, t.kind ≠ .kwClass := by decide +kernel
  have hopens : ∀ o ∈ List.replicate maxNesting (token .leftBrace), o.kind = .leftBrace := by
    intro o ho
    rw [List.eq_of_mem_replicate ho]
  have hnever : NeverEnds tokens := neverEnds_of_blocks hopens List.length_replicate rfl _
  exact ⟨hclass, hnever, parse?_of_neverEnds hnever⟩

end Program
end Lox
