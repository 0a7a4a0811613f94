import Lox.Proofs.Syntax.Recipe

/-! The states in which a parse consumes tokens: none is at too great a nesting. -/
namespace Lox

namespace Parser

/-- `q` is at the same token as `p`, or at the one after it. -/
def Borders (p q : Parser) : Prop :=
  q.consumed = p.consumed ∧ q.rest = p.rest ∨
    q.consumed = p.consumed + 1 ∧ p.rest = p.current :: q.rest

theorem borders_advance (p : Parser) : p.Borders p.advance := by
  obtain h | ⟨hk, h⟩ := p.advance_cases
  · rw [h]
    exact .inl ⟨rfl, rfl⟩
  · rw [h]
    exact .inr ⟨rfl, rest_eq_cons hk⟩

theorem current_passing {p : Parser} {ts us : List Token} (h : p.rest = ts ++ us) :
    (p.passing ts).map current = ts := by
  induction ts generalizing p with
  | nil => rfl
  | cons t ts ih => rw [passing, List.map_cons, current_cons h, ih (pass_one h)]

theorem depth_passing {p s : Parser} {ts : List Token} (h : s ∈ p.passing ts) :
    s.depth = p.depth := by
  induction ts generalizing p with
  | nil => cases h
  | cons t ts ih =>
    obtain rfl | h := List.mem_cons.1 h
    · rfl
    · rw [ih h, pass_depth]

theorem current_skipped (p : Parser) : p.skipped.map current ++ p.synchronize.rest = p.rest := by
  obtain ⟨us, hrest, hconsumed, -⟩ := (follows_synchronize p).passed
  have hus : p.rest.take (p.synchronize.consumed - p.consumed) = us := by
    rw [hrest, hconsumed, Nat.add_sub_cancel_left, List.take_left]
  rw [skipped, hus, current_passing hrest]
  exact hrest.symm

end Parser

theorem Parse.Elementary.borders {α : Type} {x : Parse α} (h : Elementary x) (p : Parser) :
    p.Borders (final (x p)) := by
  have same : p.Borders p := .inl ⟨rfl, rfl⟩
  cases h with
  | look _ | stall | report _ _ | fail _ _ => exact same
  | advance => exact p.borders_advance
  | accept wanted =>
    unfold Parse.accept
    split
    · exact p.borders_advance
    · exact same
  | expect kind what =>
    unfold Parse.expect
    split
    · exact p.borders_advance
    · exact same

/-- The trace has consumed, of the given tokens, those before the ones that are left, and none of
them at too great a nesting. -/
structure Trace.Sound (tokens : List Token) (t : Trace) : Prop where
  tokens : t.points.reverse.map Parser.current ++ t.parser.rest = tokens
  depth : t.parser.depth ≤ maxNesting
  points : ∀ s ∈ t.points, s.depth ≤ maxNesting

namespace Trace.Sound
variable {tokens : List Token} {t : Trace} {q : Parser}

theorem withParser (h : t.Sound tokens) (hrest : q.rest = t.parser.rest)
    (hdepth : q.depth ≤ maxNesting) : Trace.Sound tokens { t with parser := q } where
  tokens := by
    rw [hrest]
    exact h.tokens
  depth := hdepth
  points := h.points

theorem moveTo (h : t.Sound tokens) (hq : t.parser.Borders q) (hdepth : q.depth ≤ maxNesting) :
    (t.moveTo q).Sound tokens := by
  unfold Trace.moveTo
  obtain ⟨hconsumed, hrest⟩ | ⟨hconsumed, hrest⟩ := hq
  · rw [if_neg (by omega)]
    exact h.withParser hrest hdepth
  · rw [if_pos (by omega)]
    refine ⟨?_, hdepth, List.forall_mem_cons.2 ⟨h.depth, h.points⟩⟩
    have htokens := h.tokens
    rw [hrest] at htokens
    simpa using htokens

theorem synchronize (h : t.Sound tokens) :
    Trace.Sound tokens ⟨t.parser.synchronize, t.parser.skipped.reverse ++ t.points⟩ where
  tokens := by
    rw [List.reverse_append, List.reverse_reverse, List.map_append, List.append_assoc,
      Parser.current_skipped]
    exact h.tokens
  depth := h.depth
  points := by
    intro s hs
    rcases List.mem_append.1 hs with hs | hs
    · have hdepth := Parser.depth_passing (List.mem_reverse.1 hs)
      rw [hdepth]
      exact h.depth
    · exact h.points s hs

end Trace.Sound

namespace Traced
variable {α : Type} {x : Traced α} {tokens : List Token}

/-- From every sound trace the step leads to a sound one. -/
abbrev Bounded (tokens : List Token) (x : Traced α) : Prop :=
  Upholds (Trace.Sound tokens) (fun _ => True) (fun _ => True) x

theorem bounded_step {x : Parse α} (hborders : ∀ p : Parser, p.Borders (Parse.final (x p)))
    (hdepth : ∀ p : Parser, p.depth ≤ maxNesting → (Parse.final (x p)).depth ≤ maxNesting) :
    Bounded tokens (step x) := by
  intro t ht
  have hsound := ht.moveTo (hborders t.parser) (hdepth t.parser ht.depth)
  unfold step
  cases hx : x t.parser with
  | ok a q =>
    rw [hx] at hsound
    exact .ok trivial hsound
  | error e q =>
    rw [hx] at hsound
    exact .error trivial hsound

theorem bounded_deepen : Bounded tokens (step Parse.deepen) := by
  refine bounded_step (fun p => ?_) (fun p hp => ?_)
  · by_cases hd : p.depth < maxNesting
    · rw [Parse.deepen_ok hd]
      exact .inl ⟨rfl, rfl⟩
    · rw [Parse.deepen_error (Nat.le_of_not_lt hd)]
      exact .inl ⟨rfl, rfl⟩
  · by_cases hd : p.depth < maxNesting
    · rw [Parse.deepen_ok hd]
      exact hd
    · rw [Parse.deepen_error (Nat.le_of_not_lt hd)]
      exact hp

theorem bounded_bracket {enter : Parser → Parser} {leave : Parser → Parser → Parser}
    (henter : ∀ p, (enter p).rest = p.rest ∧ (enter p).depth = p.depth)
    (hleave : ∀ p q, (leave p q).rest = q.rest ∧ ((leave p q).depth = p.depth ∨
      (leave p q).depth ≤ q.depth)) (h : Bounded tokens x) :
    Bounded tokens (x.bracket enter leave) := by
  intro t ht
  have hout {u : Trace} (hu : u.Sound tokens) :
      Trace.Sound tokens { u with parser := leave t.parser u.parser } := by
    obtain ⟨hrest, hdepth⟩ := hleave t.parser u.parser
    refine hu.withParser hrest ?_
    rcases hdepth with hdepth | hdepth
    · rw [hdepth]
      exact ht.depth
    · exact Nat.le_trans hdepth hu.depth
  obtain ⟨hrest, hdepth⟩ := henter t.parser
  have hin : Trace.Sound tokens { t with parser := enter t.parser } :=
    ht.withParser hrest (hdepth ▸ ht.depth)
  have hresult := h hin
  unfold bracket
  generalize x _ = r at hresult ⊢
  cases hresult with
  | ok _ hu => exact .ok trivial (hout hu)
  | error _ hu => exact .error trivial (hout hu)

theorem bounded_restoringDepth (h : Bounded tokens x) : Bounded tokens x.restoringDepth :=
  bounded_bracket (fun _ => ⟨rfl, rfl⟩) (fun _ _ => ⟨rfl, .inl rfl⟩) h

theorem bounded_nested (h : Bounded tokens x) : Bounded tokens x.nested :=
  Upholds.bind bounded_deepen fun _ _ =>
    bounded_bracket (fun _ => ⟨rfl, rfl⟩) (fun _ q => ⟨rfl, .inr (Nat.sub_le q.depth 1)⟩) h

theorem bounded_around (c : Parse.Enclosure) (h : Bounded tokens x) :
    Bounded tokens (x.bracket c.enter c.leave) := by
  refine bounded_bracket (fun p => ?_) (fun p q => ?_) h
  · cases c <;> exact ⟨rfl, rfl⟩
  · cases c <;> exact ⟨rfl, .inr (Nat.le_refl _)⟩

theorem bounded_recovering (h : Bounded tokens x) : Bounded tokens x.recovering := by
  intro t ht
  have hresult := h (ht.withParser (q := t.parser.startingHere) rfl ht.depth)
  have hout {u : Trace} (hu : u.Sound tokens) :
      Trace.Sound tokens { u with parser := u.parser.startingAt t.parser.start } :=
    hu.withParser rfl hu.depth
  unfold recovering
  generalize x _ = r at hresult ⊢
  cases hresult with
  | ok _ hu => exact .ok trivial (hout hu)
  | @error e _ _ hu =>
    cases e with
    | bail => exact .ok trivial (hout hu).synchronize
    | stalled => exact .error trivial (hout hu)

end Traced

namespace Parse.Recipe
variable {level : Bool} {α : Type} {x : Parse α}

theorem bounded (r : Recipe level x) (tokens : List Token) :
    Traced.Bounded tokens r.traced := by
  induction r with
  | step h =>
    refine Traced.bounded_step h.borders fun p hp => ?_
    rw [h.keeps.depth]
    exact hp
  | deepen => exact Traced.bounded_deepen
  | loosen _ ih => exact ih
  | bind _ _ ihx ihf => exact Upholds.bind ihx fun a _ => ihf a
  | restoringDepth _ ih => exact Traced.bounded_restoringDepth ih
  | nested _ ih => exact Traced.bounded_nested ih
  | enclosed c _ ih => exact Traced.bounded_around c ih
  | recovering _ ih => exact Traced.bounded_recovering ih

/-- A run from the recipe ends as the step does, and the states that it records are, one by one,
those in which the tokens up to there are consumed, each within the greatest nesting. -/
structure Accounts (r : Recipe level x) (p : Parser) : Prop where
  result : (r.run p).1 = x p
  tokens : (r.run p).2.map Parser.current ++ (final (x p)).rest = p.rest
  nesting : ∀ s ∈ (r.run p).2, s.depth ≤ maxNesting

theorem accounts (r : Recipe level x) {p : Parser} (hd : p.depth ≤ maxNesting) :
    r.Accounts p := by
  have hsame := r.endsAs (s := ⟨p, []⟩) rfl
  have hsound := r.bounded p.rest (s := ⟨p, []⟩) ⟨rfl, hd, List.forall_mem_nil _⟩
  have of_sound {t : Trace} (ht : t.Sound p.rest) (hrun : r.run p = (x p, t.points.reverse))
      (hfinal : final (x p) = t.parser) : r.Accounts p := by
    refine ⟨by rw [hrun], ?_, ?_⟩
    · rw [hrun, hfinal]
      exact ht.tokens
    · rw [hrun]
      exact fun s hs => ht.points s (List.mem_reverse.1 hs)
  generalize htraced : r.traced ⟨p, []⟩ = result at hsame hsound
  generalize hx : x p = result' at hsame
  cases hsame with
  | @ok _ _ t _ hvalue hstate =>
    cases hvalue
    cases hstate
    cases hsound with
    | ok _ ht =>
      have hrun : r.run p = (x p, t.points.reverse) := by rw [run, htraced, hx]
      exact of_sound ht hrun (by rw [hx]; rfl)
  | @error _ _ t _ herror hstate =>
    cases herror
    cases hstate
    cases hsound with
    | error _ ht =>
      have hrun : r.run p = (x p, t.points.reverse) := by rw [run, htraced, hx]
      exact of_sound ht hrun (by rw [hx]; rfl)

end Parse.Recipe
end Lox
