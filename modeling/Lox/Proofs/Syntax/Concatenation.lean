import Lox.Proofs.Syntax.Program

/-! Programs one after the other are parsed as they are parsed alone. -/
namespace Lox

namespace Parse

/-- Declarations that the parser takes one by one at the top, with room for their nesting. -/
inductive Accepted : List Stmt → List Token → Prop where
  | nil : Accepted [] []
  | cons {s : Stmt} {ss : List Stmt} {t : Token} {ts us : List Token} {room : Nat}
      (ht : t.kind.startsDeclaration = true) (hroom : room ≤ maxNesting)
      (first : Settles .program (· ≠ .kwElse) declaration 28 room (t :: ts) (some s))
      (others : Accepted ss us) : Accepted (s :: ss) (t :: ts ++ us)

namespace Accepted

theorem append {ss ss' : List Stmt} {ts ts' : List Token} (h : Accepted ss ts)
    (h' : Accepted ss' ts') : Accepted (ss ++ ss') (ts ++ ts') := by
  induction h with
  | nil => exact h'
  | cons ht hroom first _ ih =>
    rw [List.append_assoc]
    exact .cons ht hroom first ih

theorem length_le {ss : List Stmt} {ts : List Token} (h : Accepted ss ts) :
    ss.length ≤ ts.length := by
  induction h with
  | nil => exact Nat.le_refl _
  | cons _ _ _ _ ih =>
    rw [List.length_append, List.length_cons, List.length_cons]
    omega

theorem next_ne_else {ss : List Stmt} {ts us : List Token} (h : Accepted ss ts)
    (hus : nextKind us ≠ .kwElse) : nextKind (ts ++ us) ≠ .kwElse := by
  cases h with
  | nil => exact hus
  | cons ht => exact ne_of_startsDeclaration ht rfl

/-- The declarations are taken, one step each, and the parse goes on behind them. -/
theorem program_eq {ss : List Stmt} {ts us : List Token} (h : Accepted ss ts) {n : Nat} {p : Parser}
    (before : List Stmt) (hw : p.surroundings = .program) (hd : p.depth = 0)
    (hp : p.rest = ts ++ us) (hus : nextKind us ≠ .kwElse) (hn : 32 * p.rest.length + 29 ≤ n) :
    program n before p = program (n - ss.length) (ss.reverse ++ before) (p.pass ts) := by
  induction h generalizing n p before with
  | nil => rfl
  | @cons s ss t ts us' room ht hroom first others ih =>
    obtain ⟨n, rfl⟩ : ∃ m, n = m + 1 := ⟨n - 1, by omega⟩
    rw [List.append_assoc] at hp
    have hcurrent : p.current.kind = t.kind := by rw [Parser.current_kind, hp]; rfl
    have hrest : (p.pass (t :: ts)).rest = us' ++ us := Parser.pass_rest hp
    have hlen : p.rest.length = ts.length + 1 + (p.pass (t :: ts)).rest.length := by
      rw [hrest, hp, List.length_append, List.length_cons]
    have hfirst := (@first n p _ hw (others.next_ne_else hus) hp (by omega) (by omega)).1 (by omega)
    have hothers := @ih n (p.pass (t :: ts)) (s :: before) hw hd hrest (by omega)
    rw [program_succ n before (by rw [hcurrent]; exact ne_of_startsDeclaration ht rfl),
      bind_ok hfirst]
    dsimp only
    rw [hothers, Parser.pass_pass, List.reverse_cons, List.append_assoc, List.singleton_append,
      List.length_cons, Nat.add_sub_add_right]

end Accepted

/-- What is parsed without a fault has been taken declaration by declaration. -/
theorem accepted_of_program {k : Nat} {ss : List Stmt} {ts us : List Token}
    (d : Composes .program k (.declarations ss) ts) {n : Nat} {p q : Parser}
    {before rs : List Stmt} (hw : p.surroundings = .program) (hd : p.depth = 0)
    (hp : p.rest = ts ++ us) (hus : nextKind us = .endOfInput)
    (hn : 32 * p.rest.length + 29 ≤ n) (h : program n before p = .ok rs q) (hq : q.faults = []) :
    Accepted ss ts := by
  induction ss generalizing ts n p before with
  | nil =>
    cases d
    exact .nil
  | cons s ss ih =>
    cases d with
    | @next _ _ _ _ ts us' first others =>
      obtain ⟨room, -, settles⟩ : Suits .program (· ≠ .kwElse) declaration 28 1 ts (some s) :=
        taken_of_composes first
      obtain ⟨t, ts, rfl, ht⟩ := first.starts_declaration
      obtain ⟨n, rfl⟩ : ∃ m, n = m + 1 := ⟨n - 1, by omega⟩
      rw [List.append_assoc] at hp
      have hnext : nextKind (us' ++ us) ≠ .kwElse := by
        obtain rfl | ⟨u, vs, rfl, hu⟩ := others.starts_declarations
        · rw [List.nil_append, hus]
          nofun
        · exact ne_of_startsDeclaration hu rfl
      have hcurrent : p.current.kind = t.kind := by rw [Parser.current_kind, hp]; rfl
      have hrest : (p.pass (t :: ts)).rest = us' ++ us := Parser.pass_rest hp
      have hlen : p.rest.length = ts.length + 1 + (p.pass (t :: ts)).rest.length := by
        rw [hrest, hp, List.length_append, List.length_cons]
      obtain ⟨hok, hup⟩ := @settles n p _ hw hnext hp (by omega) (by omega)
      rw [program_succ n before (by rw [hcurrent]; exact ne_of_startsDeclaration ht rfl)] at h
      by_cases hroom : p.depth + room ≤ maxNesting
      · rw [bind_ok (hok hroom)] at h
        exact .cons ht (by omega) settles (@ih us' others n (p.pass (t :: ts)) _ hw hd hrest (by omega) h)
      · -- The fault would still be there in the end.
        have hdeep : TooDeep (.ok rs q : EStateM.Result Interrupt Parser (List Stmt)) := by
          rw [← h]
          refine (hup (Nat.lt_of_not_le hroom)).bind fun o => ?_
          cases o <;> exact (keeps_program n _).toSteady
        obtain ⟨f, hf, -⟩ := hdeep
        rw [final, hq] at hf
        cases hf

end Parse

namespace Program

theorem accepted_of_parse? {ts more : List Token} {stop : Token} {ss : List Stmt}
    (hstop : stop.kind = .endOfInput) (hts : ∀ t ∈ ts, t.kind ≠ .endOfInput)
    (h : parse? (ts ++ stop :: more) = some ⟨ss, []⟩) : Parse.Accepted ss ts := by
  have hnext : nextKind (stop :: more) = .endOfInput := hstop
  obtain ⟨k, d⟩ := composes_of_parse? h rfl
  rw [takeWhile_before_end hts hnext] at d
  unfold parse? at h
  split at h
  next rs q hq =>
    have hfaults : q.faults.reverse = [] := congrArg Program.faults (Option.some.inj h)
    refine Parse.accepted_of_program d rfl rfl rfl hnext ?_ hq (List.reverse_eq_nil_iff.1 hfaults)
    simp only [Parser.allotment]
    omega
  next => cases h

theorem parse?_of_accepted {ts more : List Token} {stop : Token} {ss : List Stmt}
    (hstop : stop.kind = .endOfInput) (h : Parse.Accepted ss ts) :
    parse? (ts ++ stop :: more) = some ⟨ss, []⟩ := by
  generalize htokens : ts ++ stop :: more = tokens
  have hlen : tokens.length = ts.length + (more.length + 1) := by
    rw [← htokens, List.length_append, List.length_cons]
  have hnext : nextKind (stop :: more) ≠ .kwElse := by
    rw [nextKind_cons, hstop]
    nofun
  have hpass : (Parser.pass { rest := tokens } ts).rest = stop :: more :=
    Parser.pass_rest htokens.symm
  have htaken := @Parse.Accepted.program_eq ss ts _ h (Parser.allotment tokens.length)
    { rest := tokens } [] rfl rfl htokens.symm hnext
    (by simp only [Parser.allotment]; omega)
  have hend := @Parse.program_end (Parser.allotment tokens.length - ss.length) _ (ss.reverse ++ [])
    (by have := h.length_le; simp only [Parser.allotment]; omega) (by rw [hpass]; exact hstop)
  rw [parse?_ok (htaken.trans hend), List.append_nil, List.reverse_reverse]
  rfl

end Program
end Lox
