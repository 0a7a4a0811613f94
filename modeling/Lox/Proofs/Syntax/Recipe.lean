import Lox.Proofs.Invariant
import Lox.Proofs.Relation
import Lox.Proofs.Syntax.StatementCourse

/-! How a step of a parse is put together from elementary ones. Run from such a recipe, it records
the states in which it consumes tokens, and counts each counter down by one where it has counted it
up by one. It ends as the step itself does. -/
namespace Lox

/-- A parse with the states in which it has consumed a token, last one first. -/
structure Trace where
  parser : Parser
  points : List Parser := []

/-- The trace goes on to a state that is at the same token or at the one after it. -/
def Trace.moveTo (t : Trace) (q : Parser) : Trace :=
  ⟨q, if t.parser.consumed < q.consumed then t.parser :: t.points else t.points⟩

namespace Parser

/-- The states in which the given tokens are consumed one by one. -/
def passing (p : Parser) : List Token → List Parser
  | [] => []
  | t :: ts => p :: (p.pass [t]).passing ts

/-- The states in which recovery consumes tokens. -/
def skipped (p : Parser) : List Parser :=
  p.passing (p.rest.take (p.synchronize.consumed - p.consumed))

end Parser

abbrev Traced := EStateM Interrupt Trace

namespace Traced
variable {α : Type}

/-- A step that consumes one token at most. -/
def step (x : Parse α) : Traced α := fun t =>
  match x t.parser with
  | .ok a q => .ok a (t.moveTo q)
  | .error e q => .error e (t.moveTo q)

/-- Runs a step in a changed state. However the step ends, `leave before` is done to the state it
ends in. -/
def bracket (enter : Parser → Parser) (leave : (before after : Parser) → Parser)
    (x : Traced α) : Traced α := fun t =>
  match x { t with parser := enter t.parser } with
  | .ok a u => .ok a { u with parser := leave t.parser u.parser }
  | .error e u => .error e { u with parser := leave t.parser u.parser }

/-- However the step ends, the nesting is what it was before. -/
def restoringDepth (x : Traced α) : Traced α :=
  bracket id (fun before after => { after with depth := before.depth }) x

/-- Runs a step one level deeper, and counts the level down after it. -/
def nested (x : Traced α) : Traced α := do
  step Parse.deepen
  bracket id (fun _ after => { after with depth := after.depth - 1 }) x

/-- Runs a step as a declaration of its own. -/
def recovering (x : Traced α) : Traced (Option α) := fun t =>
  match x { t with parser := t.parser.startingHere } with
  | .ok a u => .ok (some a) { u with parser := u.parser.startingAt t.parser.start }
  | .error .bail u =>
    let q := u.parser.startingAt t.parser.start
    .ok none ⟨q.synchronize, q.skipped.reverse ++ u.points⟩
  | .error .stalled u => .error .stalled { u with parser := u.parser.startingAt t.parser.start }

end Traced

namespace Parse

/-- The steps of which a parse is made up: each consumes the next token or none. -/
inductive Elementary : {α : Type} → Parse α → Prop where
  | look {α : Type} (value : Parser → α) : Elementary fun p => .ok (value p) p
  | stall {α : Type} : Elementary (throw .stalled : Parse α)
  | report (error : SyntaxError) (t : Token) : Elementary (report error t)
  | fail {α : Type} (error : SyntaxError) (t : Token) : Elementary (fail error t : Parse α)
  | advance : Elementary advance
  | accept (wanted : Kind → Bool) : Elementary (accept wanted)
  | expect (kind : Kind) (what : String) : Elementary (expect kind what)

/-- What can be around a step, besides a level of nesting. -/
inductive Enclosure where
  | loop | function | block

namespace Enclosure

def around {α : Type} : Enclosure → Parse α → Parse α
  | loop, x => inLoop x
  | function, x => inFunction x
  | block, x => inBlock x

def enter : Enclosure → Parser → Parser
  | loop, p => { p with loops := p.loops + 1 }
  | function, p => { p with loops := 0, functions := p.functions + 1 }
  | block, p => { p with blocks := p.blocks + 1 }

/-- Counts down what was counted up. The loops around a function, which were not counted up, are
put back. -/
def leave : Enclosure → (before after : Parser) → Parser
  | loop, _, q => { q with loops := q.loops - 1 }
  | function, p, q => { q with loops := p.loops, functions := q.functions - 1 }
  | block, _, q => { q with blocks := q.blocks - 1 }

end Enclosure

/-- How a step is put together. A `level` step ends at the nesting it began at; another one may
leave levels counted, and needs something around it that takes them back. -/
inductive Recipe : (level : Bool) → {α : Type} → Parse α → Type 1 where
  | step {level : Bool} {α : Type} {x : Parse α} : Elementary x → Recipe level x
  | deepen : Recipe false deepen
  | loosen {α : Type} {x : Parse α} : Recipe true x → Recipe false x
  | bind {level : Bool} {α β : Type} {x : Parse α} {f : α → Parse β} :
      Recipe level x → (∀ a, Recipe level (f a)) → Recipe level (x >>= f)
  | restoringDepth {level : Bool} {α : Type} {x : Parse α} :
      Recipe false x → Recipe level (restoringDepth x)
  | nested {level : Bool} {α : Type} {x : Parse α} : Recipe true x → Recipe level (nested x)
  | enclosed {level : Bool} {α : Type} {x : Parse α} (c : Enclosure) :
      Recipe true x → Recipe level (c.around x)
  | recovering {level : Bool} {α : Type} {x : Parse α} :
      Recipe true x → Recipe level (recovering x)

namespace Recipe
variable {level : Bool} {α : Type} {x : Parse α}

/-- The step as its recipe says, on a trace. -/
def traced {level : Bool} {α : Type} {x : Parse α} : Recipe level x → Traced α
  | @step _ _ x _ => Traced.step x
  | .deepen => Traced.step Parse.deepen
  | .loosen r => r.traced
  | .bind r s => r.traced >>= fun a => (s a).traced
  | .restoringDepth r => r.traced.restoringDepth
  | .nested r => r.traced.nested
  | .enclosed c r => r.traced.bracket c.enter c.leave
  | .recovering r => r.traced.recovering

/-- How the step ends that is run from its recipe, and the states in which it consumes tokens, first
one first. -/
def run (r : Recipe level x) (p : Parser) : EStateM.Result Interrupt Parser α × List Parser :=
  match r.traced ⟨p, []⟩ with
  | .ok a t => (.ok a t.parser, t.points.reverse)
  | .error e t => (.error e t.parser, t.points.reverse)

end Recipe
end Parse

namespace Parser

theorem advance_cases (p : Parser) :
    p.advance = p ∨ p.current.kind ≠ .endOfInput ∧ p.advance = p.pass [p.current] := by
  by_cases h : p.current.kind = .endOfInput
  · left
    unfold advance
    cases hr : p.rest with
    | nil => rfl
    | cons t ts =>
      rw [current_cons hr] at h
      simp only [h, if_true]
  · exact .inr ⟨h, advance_eq h⟩

theorem follows_advance (p : Parser) : p.Follows Kind.passable p.advance := by
  obtain h | ⟨hk, h⟩ := p.advance_cases
  · rw [h]
    exact .refl _ p
  · rw [h]
    exact .pass_current (decide_eq_true hk) rfl

theorem advance_depth (p : Parser) : p.advance.depth = p.depth := by
  obtain h | ⟨-, h⟩ := p.advance_cases
  · rw [h]
  · rw [h, pass_depth]

end Parser

namespace Parse
variable {level : Bool} {α : Type} {x : Parse α} {y : Traced α}

/-! Steps with a recipe keep the counters. -/

theorem Elementary.keeps (h : Elementary x) : Keeps Kind.passable x := by
  cases h with
  | look value => exact keeps_of_eq id value (fun _ => rfl) (.refl _) (fun _ => rfl)
  | stall => exact keeps_throw
  | report error t => exact keeps_report error t
  | fail error t => exact keeps_fail error t
  | advance =>
    exact keeps_of_eq Parser.advance Parser.current (fun _ => rfl) Parser.follows_advance
      Parser.advance_depth
  | accept wanted =>
    refine .of_apply fun p => ?_
    by_cases hw : wanted p.current.kind = true
    · refine ⟨pure (some p.current), _, keeps_pure _, p.follows_advance, p.advance_depth, ?_⟩
      rw [Parse.accept, if_pos hw]
      rfl
    · refine ⟨pure none, p, keeps_pure _, .refl _ p, rfl, ?_⟩
      rw [Parse.accept, if_neg hw]
      rfl
  | expect kind what =>
    refine .of_apply fun p => ?_
    by_cases hk : p.current.kind = kind
    · refine ⟨pure p.current, _, keeps_pure _, p.follows_advance, p.advance_depth, ?_⟩
      rw [Parse.expect, if_pos hk]
      rfl
    · refine ⟨Parse.fail (.expected what) p.current, p, keeps_fail _ _, .refl _ p, rfl, ?_⟩
      rw [Parse.expect, if_neg hk]

theorem keeps_around (c : Enclosure) (h : Keeps Kind.passable x) :
    Keeps Kind.passable (c.around x) := by
  cases c with
  | loop => exact keeps_inLoop h
  | function => exact keeps_inFunction h
  | block => exact keeps_inBlock h

/-- A step with a recipe keeps all counters, or all but the nesting. -/
theorem Recipe.keeps_or_steady (r : Recipe level x) :
    if level then Keeps Kind.passable x else Steady Kind.passable x := by
  -- Where the flag is open, to keep the nesting too is more than enough.
  have weaken {level : Bool} {β : Type} {z : Parse β} (h : Keeps Kind.passable z) :
      if level then Keeps Kind.passable z else Steady Kind.passable z := by
    cases level with
    | true => exact h
    | false => exact h.toSteady
  induction r with
  | step h => exact weaken h.keeps
  | deepen => exact steady_deepen
  | loosen _ ih => exact ih.toSteady
  | @bind level _ _ _ _ _ _ ihx ihf =>
    cases level with
    | true => exact Keeps.bind ihx ihf
    | false => exact Steady.bind ihx ihf
  | restoringDepth _ ih => exact weaken (keeps_restoringDepth ih)
  | nested _ ih => exact weaken (keeps_nested ih.toSteady)
  | enclosed c _ ih => exact weaken (keeps_around c ih)
  | recovering _ ih => exact weaken (keeps_recovering ih)

theorem Recipe.keeps (r : Recipe true x) : Keeps Kind.passable x := r.keeps_or_steady

/-! Around a step that keeps a counter, to put the counter back is to count it down. -/

theorem bracket_congr {enter : Parser → Parser} {leave leave' : Parser → Parser → Parser}
    (h : ∀ p, leave p (final (x (enter p))) = leave' p (final (x (enter p)))) :
    bracket enter leave x = bracket enter leave' x := by
  funext p
  have hleave := h p
  unfold bracket
  cases hx : x (enter p) with
  | ok a q =>
    rw [hx] at hleave
    exact congrArg (EStateM.Result.ok a) hleave
  | error e q =>
    rw [hx] at hleave
    exact congrArg (EStateM.Result.error e) hleave

theorem nested_eq_counting (h : Keeps Kind.passable x) :
    nested x = (do
      deepen
      bracket id (fun _ after => { after with depth := after.depth - 1 }) x) := by
  funext p
  by_cases hd : p.depth < maxNesting
  · have hdepth : _ = p.depth + 1 := h.depth (p.atDepth (p.depth + 1))
    rw [nested_ok hd, bind_ok (deepen_ok hd), bracket_apply, id]
    generalize x (p.atDepth (p.depth + 1)) = r at hdepth ⊢
    cases r with
    | ok a q =>
      simp only [final] at hdepth
      simp only [hdepth, Nat.add_sub_cancel, Parser.atDepth]
    | error e q =>
      simp only [final] at hdepth
      simp only [hdepth, Nat.add_sub_cancel, Parser.atDepth]
  -- Where there is no room for another level, none is counted and none is taken back.
  · have hd' : maxNesting ≤ p.depth := Nat.le_of_not_lt hd
    rw [nested_error hd', bind_error (deepen_error hd')]

theorem around_eq_counting (c : Enclosure) (h : Keeps Kind.passable x) :
    c.around x = bracket c.enter c.leave x := by
  cases c with
  | loop =>
    refine bracket_congr fun p => ?_
    have hloops := (h.follows (Enclosure.loop.enter p)).loops
    simp only [Enclosure.enter, Enclosure.leave] at hloops ⊢
    rw [hloops, Nat.add_sub_cancel]
  | function =>
    refine bracket_congr fun p => ?_
    have hfunctions := (h.follows (Enclosure.function.enter p)).functions
    simp only [Enclosure.enter, Enclosure.leave] at hfunctions ⊢
    rw [hfunctions, Nat.add_sub_cancel]
  | block =>
    refine bracket_congr fun p => ?_
    have hblocks := (h.follows (Enclosure.block.enter p)).blocks
    simp only [Enclosure.enter, Enclosure.leave] at hblocks ⊢
    rw [hblocks, Nat.add_sub_cancel]

/-! A step ends as its recipe does. -/

/-- On a trace, the first step ends as the second one does in the state the trace has come to. -/
abbrev EndsAs (y : Traced α) (x : Parse α) : Prop :=
  Related Eq (fun t p => t.parser = p) Eq y x

theorem endsAs_step (x : Parse α) : EndsAs (Traced.step x) x := by
  rintro t p rfl
  unfold Traced.step
  cases x t.parser with
  | ok a q => exact .ok rfl rfl
  | error e q => exact .error rfl rfl

theorem endsAs_bracket {enter : Parser → Parser} {leave : Parser → Parser → Parser}
    (h : EndsAs y x) : EndsAs (y.bracket enter leave) (bracket enter leave x) := by
  rintro t p rfl
  have hresult := h (s := { t with parser := enter t.parser }) rfl
  unfold Traced.bracket bracket
  generalize y _ = r, x (enter t.parser) = r' at hresult ⊢
  cases hresult with
  | ok hvalue hstate =>
    cases hstate
    exact .ok hvalue rfl
  | error herror hstate =>
    cases hstate
    exact .error herror rfl

theorem endsAs_restoringDepth (h : EndsAs y x) : EndsAs y.restoringDepth (restoringDepth x) :=
  endsAs_bracket h

theorem endsAs_nested (h : EndsAs y x) (hkeeps : Keeps Kind.passable x) :
    EndsAs y.nested (nested x) := by
  rw [nested_eq_counting hkeeps]
  exact Related.bind (endsAs_step deepen) fun _ _ _ => endsAs_bracket h

theorem endsAs_around (c : Enclosure) (h : EndsAs y x) (hkeeps : Keeps Kind.passable x) :
    EndsAs (y.bracket c.enter c.leave) (c.around x) := by
  rw [around_eq_counting c hkeeps]
  exact endsAs_bracket h

theorem endsAs_recovering (h : EndsAs y x) : EndsAs y.recovering (recovering x) := by
  rintro t p rfl
  have hresult := h (s := { t with parser := t.parser.startingHere }) rfl
  rw [recovering_apply]
  unfold Traced.recovering
  generalize y _ = r, x t.parser.startingHere = r' at hresult ⊢
  cases hresult with
  | ok hvalue hstate =>
    cases hstate
    exact .ok (congrArg some hvalue) rfl
  | @error e _ _ _ herror hstate =>
    cases hstate
    cases herror
    cases e with
    | bail => exact .ok rfl rfl
    | stalled => exact .error rfl rfl

theorem Recipe.endsAs (r : Recipe level x) : EndsAs r.traced x := by
  induction r with
  | @step _ _ x h => exact endsAs_step x
  | deepen => exact endsAs_step Parse.deepen
  | loosen _ ih => exact ih
  | bind _ _ ihx ihf =>
    refine Related.bind ihx fun a b hab => ?_
    cases hab
    exact ihf a
  | restoringDepth _ ih => exact endsAs_restoringDepth ih
  -- Only here it matters that the step within leaves its counters as they were.
  | nested r ih => exact endsAs_nested ih r.keeps
  | enclosed c r ih => exact endsAs_around c ih r.keeps
  | recovering _ ih => exact endsAs_recovering ih

end Parse

end Lox
