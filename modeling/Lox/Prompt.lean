import Lox.Session
import Lox.Text.Blank

/-! The interactive prompt: lines are gathered until they make a complete unit, which is then run. -/
namespace Lox.Prompt

/-- The braces opened and not closed among tokens; it is negative where more are closed. -/
def openBraces (tokens : List Token) : Int :=
  tokens.foldl
    (fun depth t =>
      if t.kind = .leftBrace then depth + 1
      else if t.kind = .rightBrace then depth - 1
      else depth) 0

/-- A string or a block comment does not end within the source. -/
def endsInside (scan : Scan) : Bool :=
  scan.faults.any fun f => f.error = .unterminatedString || f.error = .unterminatedComment

/-- The source needs more lines. -/
def isUnfinished (source : Bytes) : Bool :=
  let scan := Scan.ofSource source
  endsInside scan || 0 < openBraces scan.tokens

/-- What the user does at a prompt. -/
inductive Event where
  | line (text : Bytes)
  | interrupt
  | endOfInput
  /-- The input cannot be read any more. -/
  | failure
  deriving DecidableEq

/-- What happens from one prompt to the next. -/
structure Turn where
  /-- The prompt shown. -/
  prompt : Bytes
  /-- The unit that is run, if there is one. -/
  unit : Option Bytes := none
  output : Bytes := []
  notices : List Notice := []

structure State where
  /-- The lines gathered so far, each with its line end. -/
  pending : Bytes := []
  session : Session

/-- How the prompt looks. -/
structure Look where
  prompt : Bytes
  colour : Bool

/-- The prompt for further lines has a dot for each byte of the prompt, without its spaces at the
end. -/
def Look.continuation (look : Look) : Bytes :=
  (Bytes.trimEnd (· == ascii ' ') look.prompt).map (fun _ => ascii '.') ++ utf8 " "

def Look.shown (look : Look) (pending : Bytes) : Bytes :=
  if pending.isEmpty then Text.paint look.colour .green look.prompt
  else Text.paint look.colour .gray look.continuation

def Look.reminder (look : Look) : Bytes :=
  Text.paint look.colour .gray (utf8 "(use 'exit' or Ctrl+D to quit)") ++ [newline]

/-- Runs a unit and adds what it gives to a turn. -/
def runUnit? (fuel : Nat) (s : Session) (unit : Bytes) (turn : Turn) :
    Option (Turn × Session) :=
  match s.runLine? fuel unit with
  | none => none
  | some (r, s) =>
    some ({ turn with
      unit := some unit
      output := turn.output ++ r.output
      notices := turn.notices ++ r.notices }, s)

/-- What follows from one event: the turn, and the state if the prompt is shown again. There is no
result if a unit does not end within `fuel`. -/
def step? (look : Look) (fuel : Nat) (st : State) (event : Event) :
    Option (Turn × Option State) :=
  let turn : Turn := { prompt := look.shown st.pending }
  match event with
  | .interrupt =>
    if st.pending.isEmpty then some ({ turn with output := look.reminder }, some st)
    else some (turn, some { st with pending := [] })
  | .failure => some (turn, none)
  | .endOfInput =>
    let turn := { turn with output := [newline] }
    if Text.isBlank st.pending then some (turn, none)
    else (runUnit? fuel st.session st.pending turn).map fun (turn, _) => (turn, none)
  | .line text =>
    if st.pending.isEmpty && Text.trim text == utf8 "exit" then some (turn, none)
    else
      let unit := st.pending ++ text ++ [newline]
      if isUnfinished unit then some (turn, some { st with pending := unit })
      else if Text.isBlank unit then some (turn, some { st with pending := [] })
      else (runUnit? fuel st.session unit turn).map fun (turn, s) => (turn, some ⟨[], s⟩)

/-- The turns of a sequence of events, which ends with the input, and the events left over. -/
def turns? (look : Look) (fuel : Nat) : State → List Event → Option (List Turn × List Event)
  | st, [] => (step? look fuel st .endOfInput).map fun (turn, _) => ([turn], [])
  | st, event :: events =>
    match step? look fuel st event with
    | none => none
    | some (turn, none) => some ([turn], events)
    | some (turn, some st) =>
      (turns? look fuel st events).map fun (turns, left) => (turn :: turns, left)

/-- The line shown when the prompt starts. -/
def greeting (colour : Bool) : Bytes :=
  Text.paint colour .boldCyan (utf8 "tlox REPL") ++ utf8 " " ++
    Text.paint colour .gray (utf8 "(type 'exit' or Ctrl+D to quit)") ++ [newline, newline]

end Lox.Prompt
