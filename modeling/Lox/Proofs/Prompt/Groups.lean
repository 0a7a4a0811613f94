import Lox.Prompt

/-! What the prompt reads falls into groups of consecutive lines, each with one fate. The texts that
are run are those of the groups that are to be run, in the order in which they were read. -/
namespace Lox.Prompt

/-- The text of lines, each with its line end. -/
def textOf (lines : List Bytes) : Bytes := lines.flatMap (· ++ [newline])

theorem textOf_concat (lines : List Bytes) (l : Bytes) :
    textOf (lines ++ [l]) = textOf lines ++ l ++ [newline] := by
  simp [textOf]

@[simp] theorem isEmpty_textOf (lines : List Bytes) :
    (textOf lines).isEmpty = lines.isEmpty := by
  cases lines <;> simp [textOf]

/-- The line leaves the prompt if nothing is pending. -/
def IsExit (l : Bytes) : Prop := Text.trim l = utf8 "exit"

/-- Lines that come together: the first one does not leave the prompt, and what stands before any
other one is unfinished. -/
structure Gathered (lines : List Bytes) : Prop where
  stays : ∀ l ∈ lines.head?, ¬ IsExit l
  unfinished : ∀ ls, ls <+: lines → ls ≠ [] → ls ≠ lines → isUnfinished (textOf ls) = true

/-- Lines that wait for another one. -/
structure Pending (lines : List Bytes) : Prop extends Gathered lines where
  waits : lines ≠ [] → isUnfinished (textOf lines) = true

/-- Lines of which only the last one makes a finished text. -/
structure Complete (lines : List Bytes) : Prop extends Gathered lines where
  nonempty : lines ≠ []
  finished : isUnfinished (textOf lines) = false

theorem Pending.nil : Pending [] where
  stays := by simp
  unfinished ls hls hne := absurd (List.prefix_nil.1 hls) hne
  waits h := absurd rfl h

theorem Pending.gathered_concat {lines : List Bytes} {l : Bytes} (h : Pending lines)
    (hstays : lines = [] → ¬ IsExit l) : Gathered (lines ++ [l]) where
  stays := by
    cases lines with
    | nil => simpa using hstays rfl
    | cons first others => simpa using h.stays
  unfinished ls hls hne hproper := by
    obtain rfl | hls := List.prefix_concat_iff.1 hls
    · exact absurd rfl hproper
    · by_cases hwhole : ls = lines
      · exact hwhole ▸ h.waits (hwhole ▸ hne)
      · exact h.unfinished ls hls hne hwhole

/-- What becomes of lines that come together. -/
inductive Fate where
  /-- They are run as soon as they are finished. -/
  | run
  /-- They are finished, and hold white space only. -/
  | blank
  /-- They are dropped by an interrupt. -/
  | interrupted
  /-- They are dropped as the input cannot be read any more. -/
  | failed
  /-- They are run at the end of input. -/
  | runAtEnd
  /-- They hold white space only at the end of input. -/
  | blankAtEnd
  /-- They are the line that leaves the prompt. -/
  | exit

/-- The event after the lines by which their fate is settled, unless it is their last line. -/
def Fate.closing : Fate → List Event
  | run | blank | exit => []
  | interrupted => [.interrupt]
  | failed => [.failure]
  | runAtEnd | blankAtEnd => [.endOfInput]

/-- Nothing is read afterwards. -/
def Fate.stops : Fate → Bool
  | run | blank | interrupted => false
  | failed | runAtEnd | blankAtEnd | exit => true

/-- The fate is that of the lines. -/
def Fate.Fits (lines : List Bytes) : Fate → Prop
  | run => Complete lines ∧ Text.isBlank (textOf lines) = false
  | blank => Complete lines ∧ Text.isBlank (textOf lines) = true
  | interrupted | failed => Pending lines
  | runAtEnd => Pending lines ∧ Text.isBlank (textOf lines) = false
  | blankAtEnd => Pending lines ∧ Text.isBlank (textOf lines) = true
  | exit => ∃ l, lines = [l] ∧ IsExit l

/-- Lines that come together, with what becomes of them. -/
structure Group where
  lines : List Bytes
  fate : Fate
  fits : fate.Fits lines

/-- The events of which a group consists. -/
def Group.events (g : Group) : List Event := g.lines.map .line ++ g.fate.closing

/-- The texts that are run for a group: its own one, or none. -/
def Group.units (g : Group) : List Bytes :=
  match g.fate with
  | .run | .runAtEnd => [textOf g.lines]
  | .blank | .interrupted | .failed | .blankAtEnd | .exit => []

/-- Events taken apart into groups up to the first one after which nothing is read, and a rest. -/
structure Plan (events : List Event) where
  groups : List Group
  last : Group
  rest : List Event
  covers : events = groups.flatMap Group.events ++ (last.events ++ rest)
  goesOn : ∀ g ∈ groups, g.fate.stops = false
  stops : last.fate.stops = true

/-- The texts that are to be run, in order. -/
def Plan.units {events : List Event} (p : Plan events) : List Bytes :=
  p.groups.flatMap Group.units ++ p.last.units

/-- Runs units one after the other, each on the session that the one before it leaves. -/
def runAll? (fuel : Nat) : Session → List Bytes → Option (List UnitReport × Session)
  | s, [] => some ([], s)
  | s, unit :: units =>
    (s.runLine? fuel unit).bind fun x =>
      (runAll? fuel x.2 units).map fun y => (x.1 :: y.1, y.2)

theorem runAll?_append (fuel : Nat) (s : Session) (us vs : List Bytes) :
    runAll? fuel s (us ++ vs) = (runAll? fuel s us).bind fun x =>
      (runAll? fuel x.2 vs).map fun y => (x.1 ++ y.1, y.2) := by
  induction us generalizing s with
  | nil => simp [runAll?]
  | cons u us ih =>
    simp [runAll?, ih, Option.bind_assoc, Option.bind_map, Option.map_bind, Function.comp_def]

/-- What is told of units that are run: their texts, and the notices of their runs. -/
structure Account where
  units : List Bytes
  notices : List Notice

namespace Account

def ofTurns (turns : List Turn) : Account :=
  ⟨turns.flatMap (·.unit.toList), turns.flatMap (·.notices)⟩

def ofReports (units : List Bytes) (reports : List UnitReport) : Account :=
  ⟨units, reports.flatMap (·.notices)⟩

def append (a b : Account) : Account := ⟨a.units ++ b.units, a.notices ++ b.notices⟩

theorem ofTurns_cons (turn : Turn) (turns : List Turn) :
    ofTurns (turn :: turns) = (ofTurns [turn]).append (ofTurns turns) := by
  simp [ofTurns, append]

theorem ofReports_append (us vs : List Bytes) (rs qs : List UnitReport) :
    ofReports (us ++ vs) (rs ++ qs) = (ofReports us rs).append (ofReports vs qs) := by
  simp [ofReports, append]

end Account

/-- What is told of a step. -/
def toldBy (x : Turn × Option State) : Account × Option State := (.ofTurns [x.1], x.2)

/-- What is told of turns. -/
def toldByAll (x : List Turn × List Event) : Account × List Event := (.ofTurns x.1, x.2)

theorem map_runUnit? (fuel : Nat) (s : Session) (unit : Bytes) (turn : Turn)
    (next : Session → Option State) (hnotices : turn.notices = []) :
    ((runUnit? fuel s unit turn).map fun x => toldBy (x.1, next x.2)) =
      (runAll? fuel s [unit]).map fun x => (.ofReports [unit] x.1, next x.2) := by
  rw [runUnit?]
  cases hrun : s.runLine? fuel unit with
  | none => simp [runAll?, hrun]
  | some x => simp [runAll?, hrun, toldBy, Account.ofTurns, Account.ofReports, hnotices]

/-- The event settles the group: where the given text is pending, it makes the prompt run what is to
be run for the group and nothing else. Then the prompt is left, or shown again with nothing
pending. -/
def Group.SettledBy (g : Group) (pending : Bytes) (event : Event) : Prop :=
  ∀ look fuel s, (step? look fuel ⟨pending, s⟩ event).map toldBy =
    (runAll? fuel s g.units).map fun x =>
      (.ofReports g.units x.1, if g.fate.stops then none else some ⟨[], x.2⟩)

section Steps

variable {lines : List Bytes}

theorem Pending.settled_interrupt (h : Pending lines) :
    Group.SettledBy ⟨lines, .interrupted, h⟩ (textOf lines) .interrupt := by
  intro look fuel s
  cases lines with
  | nil => rfl
  | cons first others =>
    rw [step?, isEmpty_textOf]
    rfl

theorem Pending.settled_failure (h : Pending lines) :
    Group.SettledBy ⟨lines, .failed, h⟩ (textOf lines) .failure :=
  fun _ _ _ => rfl

theorem Pending.settled_endOfInput (h : Pending lines) :
    ∃ g : Group, g.events = lines.map .line ++ [.endOfInput] ∧ g.fate.stops = true ∧
      g.SettledBy (textOf lines) .endOfInput := by
  cases hblank : Text.isBlank (textOf lines) with
  | true =>
    refine ⟨⟨lines, .blankAtEnd, h, hblank⟩, rfl, rfl, fun look fuel s => ?_⟩
    rw [step?, if_pos hblank]
    rfl
  | false =>
    refine ⟨⟨lines, .runAtEnd, h, hblank⟩, rfl, rfl, fun look fuel s => ?_⟩
    rw [step?, if_neg (by simp [hblank]), Option.map_map]
    exact map_runUnit? fuel s (textOf lines) _ (fun _ => none) rfl

theorem step?_line {l : Bytes} (hstays : lines = [] → ¬ IsExit l) (look : Look) (fuel : Nat)
    (s : Session) :
    step? look fuel ⟨textOf lines, s⟩ (.line l) =
      let turn : Turn := { prompt := look.shown (textOf lines) }
      let unit := textOf (lines ++ [l])
      if isUnfinished unit then some (turn, some ⟨unit, s⟩)
      else if Text.isBlank unit then some (turn, some ⟨[], s⟩)
      else (runUnit? fuel s unit turn).map fun x => (x.1, some ⟨[], x.2⟩) := by
  have hgoes : ¬ ((textOf lines).isEmpty && Text.trim l == utf8 "exit") = true := by
    simpa [IsExit] using hstays
  rw [step?, if_neg hgoes, textOf_concat]

/-- A line is added to the pending ones, or it settles a group of which it is the last line. -/
theorem Pending.line_joins_or_settles (h : Pending lines) (l : Bytes) :
    (Pending (lines ++ [l]) ∧ ∀ look fuel s,
      (step? look fuel ⟨textOf lines, s⟩ (.line l)).map toldBy =
        some (⟨[], []⟩, some ⟨textOf (lines ++ [l]), s⟩)) ∨
    ∃ g : Group, g.events = lines.map .line ++ [.line l] ∧
      g.SettledBy (textOf lines) (.line l) := by
  by_cases hexit : lines = [] ∧ IsExit l
  · obtain ⟨rfl, hexit⟩ := hexit
    refine .inr ⟨⟨[l], .exit, l, rfl, hexit⟩, rfl, fun look fuel s => ?_⟩
    rw [step?, hexit]
    rfl
  have hstays : lines = [] → ¬ IsExit l := by simpa using hexit
  have hgathered := h.gathered_concat hstays
  cases hunfinished : isUnfinished (textOf (lines ++ [l])) with
  | true =>
    refine .inl ⟨⟨hgathered, fun _ => hunfinished⟩, fun look fuel s => ?_⟩
    rw [step?_line hstays, if_pos hunfinished]
    rfl
  | false =>
    have hfinished : ¬ isUnfinished (textOf (lines ++ [l])) = true := by simp [hunfinished]
    have hcomplete : Complete (lines ++ [l]) := ⟨hgathered, by simp, hunfinished⟩
    cases hblank : Text.isBlank (textOf (lines ++ [l])) with
    | true =>
      refine .inr ⟨⟨lines ++ [l], .blank, hcomplete, hblank⟩, ?_, fun look fuel s => ?_⟩
      · simp [Group.events, Fate.closing]
      · rw [step?_line hstays, if_neg hfinished, if_pos hblank]
        rfl
    | false =>
      refine .inr ⟨⟨lines ++ [l], .run, hcomplete, hblank⟩, ?_, fun look fuel s => ?_⟩
      · simp [Group.events, Fate.closing]
      · rw [step?_line hstays, if_neg hfinished, if_neg (by simp [hblank]), Option.map_map]
        exact map_runUnit? fuel s _ _ (fun s => some ⟨[], s⟩) rfl

/-- Any event is a line that is added to the pending ones, or it settles the group that they make
with it. -/
theorem Pending.joins_or_settles (h : Pending lines) (event : Event) :
    (∃ l, event = .line l ∧ Pending (lines ++ [l]) ∧ ∀ look fuel s,
      (step? look fuel ⟨textOf lines, s⟩ (.line l)).map toldBy =
        some (⟨[], []⟩, some ⟨textOf (lines ++ [l]), s⟩)) ∨
    ∃ g : Group, g.events = lines.map .line ++ [event] ∧ g.SettledBy (textOf lines) event := by
  cases event with
  | line l =>
    obtain hjoins | hsettles := h.line_joins_or_settles l
    · exact .inl ⟨l, rfl, hjoins⟩
    · exact .inr hsettles
  | interrupt => exact .inr ⟨_, rfl, h.settled_interrupt⟩
  | endOfInput =>
    obtain ⟨g, hevents, -, hsettled⟩ := h.settled_endOfInput
    exact .inr ⟨g, hevents, hsettled⟩
  | failure => exact .inr ⟨_, rfl, h.settled_failure⟩

end Steps

section Runs

variable (look : Look) (fuel : Nat) (st : State)

theorem map_turns?_nil :
    (turns? look fuel st []).map toldByAll =
      ((step? look fuel st .endOfInput).map toldBy).map fun x => (x.1, []) := by
  rw [turns?]
  cases step? look fuel st .endOfInput <;> rfl

theorem map_turns?_cons (event : Event) (events : List Event) :
    (turns? look fuel st (event :: events)).map toldByAll =
      ((step? look fuel st event).map toldBy).bind fun x =>
        x.2.elim (some (x.1, events)) fun st =>
          ((turns? look fuel st events).map toldByAll).map fun y => (x.1.append y.1, y.2) := by
  rw [turns?]
  cases step? look fuel st event with
  | none => rfl
  | some x =>
    obtain ⟨turn, next⟩ := x
    cases next with
    | none => rfl
    | some st =>
      simp only [toldBy, Option.map_some, Option.bind_some, Option.elim_some, Option.map_map]
      congr 1
      funext x
      exact Prod.ext (Account.ofTurns_cons turn x.1) rfl

end Runs

/-- The prompt follows the plan: with the given lines pending, it runs the units of the plan, each
on the session that the one before it leaves, and reads nothing of the rest. The end of input, which
comes by itself after the events, is never left over. -/
def Plan.Followed {script : List Event} (p : Plan script) (lines : List Bytes)
    (events : List Event) : Prop :=
  ∀ look fuel s, (turns? look fuel ⟨textOf lines, s⟩ events).map toldByAll =
    (runAll? fuel s p.units).map fun x => (.ofReports p.units x.1, p.rest.dropLast)

/-- A group that stops the prompt is a plan by itself. -/
def Group.plan (g : Group) (rest : List Event) (hstops : g.fate.stops = true) :
    Plan (g.events ++ rest) where
  groups := []
  last := g
  rest := rest
  covers := rfl
  goesOn := by simp
  stops := hstops

/-- The plan with a group before it. -/
def Plan.cons {script : List Event} (p : Plan script) (g : Group) (hgoes : g.fate.stops = false) :
    Plan (g.events ++ script) where
  groups := g :: p.groups
  last := p.last
  rest := p.rest
  covers := by rw [List.flatMap_cons, List.append_assoc, ← p.covers]
  goesOn := List.forall_mem_cons.2 ⟨hgoes, p.goesOn⟩
  stops := p.stops

theorem Group.followed_plan_nil {g : Group} {lines : List Bytes} (hstops : g.fate.stops = true)
    (h : g.SettledBy (textOf lines) .endOfInput) : (g.plan [] hstops).Followed lines [] := by
  intro look fuel s
  rw [map_turns?_nil, h look fuel s, Option.map_map]
  rfl

theorem Group.followed_plan {g : Group} {lines : List Bytes} {event : Event}
    (hstops : g.fate.stops = true) (h : g.SettledBy (textOf lines) event) (events : List Event) :
    (g.plan (events ++ [.endOfInput]) hstops).Followed lines (event :: events) := by
  intro look fuel s
  rw [map_turns?_cons, h look fuel s, hstops]
  cases hrun : runAll? fuel s g.units with
  | none => simp [Group.plan, Plan.units, hrun]
  | some x => simp [Group.plan, Plan.units, hrun]

theorem Plan.Followed.cons {script : List Event} {p : Plan script} {events : List Event} {g : Group}
    {lines : List Bytes} {event : Event} (hp : p.Followed [] events)
    (hgoes : g.fate.stops = false) (h : g.SettledBy (textOf lines) event) :
    (p.cons g hgoes).Followed lines (event :: events) := by
  intro look fuel s
  have hunits : (p.cons g hgoes).units = g.units ++ p.units := by
    simp [Plan.cons, Plan.units]
  rw [map_turns?_cons, h look fuel s, hgoes, hunits, runAll?_append]
  cases runAll? fuel s g.units with
  | none => rfl
  | some x =>
    have hrest : (turns? look fuel ⟨[], x.2⟩ events).map toldByAll =
        (runAll? fuel x.2 p.units).map fun y => (.ofReports p.units y.1, p.rest.dropLast) :=
      hp look fuel x.2
    simp only [Option.map_some, Option.bind_some, Bool.false_eq_true, if_false, Option.elim_some]
    rw [hrest]
    simp only [Option.map_map, Function.comp_def, Account.ofReports_append]
    rfl

/-- From any pending lines on, there is a plan for the events that come, and the prompt follows
it. -/
theorem Pending.exists_plan {lines : List Bytes} (h : Pending lines) (events : List Event) :
    ∃ p : Plan (lines.map .line ++ (events ++ [.endOfInput])), p.Followed lines events := by
  -- The pending lines change with each event, so the induction is for all of them.
  induction events generalizing lines with
  | nil =>
    obtain ⟨g, hevents, hstops, hsettled⟩ := h.settled_endOfInput
    have hscript : g.events ++ [] = lines.map .line ++ ([] ++ [.endOfInput]) := by simp [hevents]
    exact hscript ▸ ⟨g.plan [] hstops, g.followed_plan_nil hstops hsettled⟩
  | cons event events ih =>
    obtain ⟨l, rfl, hpending, hjoins⟩ | ⟨g, hevents, hsettled⟩ := h.joins_or_settles event
    · obtain ⟨p, hp⟩ := ih hpending
      have hscript : (lines ++ [l]).map .line ++ (events ++ [.endOfInput]) =
          lines.map .line ++ (.line l :: events ++ [.endOfInput]) := by simp
      refine hscript ▸ ⟨p, fun look fuel s => ?_⟩
      rw [map_turns?_cons, hjoins look fuel s, ← hp look fuel s]
      exact congrFun Option.map_id _
    · have hscript : g.events ++ (events ++ [.endOfInput]) =
          lines.map .line ++ (event :: events ++ [.endOfInput]) := by simp [hevents]
      cases hstops : g.fate.stops with
      | true =>
        exact hscript ▸ ⟨g.plan _ hstops, g.followed_plan hstops hsettled events⟩
      | false =>
        obtain ⟨p, hp⟩ := ih Pending.nil
        exact hscript ▸ ⟨p.cons g hstops, hp.cons hstops hsettled⟩

/-- The prompt loses, repeats and reorders nothing. Whatever the user does, the events up to the end
of input fall into groups of consecutive lines, of which the last one alone stops the prompt, and a
rest, which is not read. The texts run are those of the groups whose fate it is to be run, in order,
each on the session that the one before it leaves. There is a result if and only if each of these
runs has one. The groups depend on the events alone. -/
theorem input_read_in_groups (events : List Event) :
    ∃ p : Plan (events ++ [.endOfInput]), ∀ look fuel s,
      (turns? look fuel { session := s } events).map toldByAll =
        (runAll? fuel s p.units).map fun x => (.ofReports p.units x.1, p.rest.dropLast) :=
  Pending.nil.exists_plan events

/-- An interrupt drops a pending brace, and `exit` counts only where nothing is pending. -/
example :
    (turns? ⟨utf8 "> ", false⟩ 50 { session := .fresh false 0 0 }
      [.line (utf8 "\x7b"), .interrupt, .line (utf8 " "), .line (utf8 "print \"a"),
        .line (utf8 "exit"), .line (utf8 "b\";"), .line (utf8 " exit "), .line (utf8 "1")]).map
      (fun x => (x.1.flatMap (·.unit.toList), x.2)) =
    some ([utf8 "print \"a\nexit\nb\";\n"], [.line (utf8 "1")]) := by
  decide +kernel

end Lox.Prompt
