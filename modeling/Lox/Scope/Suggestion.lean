import Lox.Scope.Forest
import Lox.Text.EditDistance

/-! The visible name that a misspelt name may stand for. -/
namespace Lox.Suggestion

/-- How far a suggestion may be: a third of the length of the name, from 1 to 3. -/
def limit (name : Bytes) : Nat := min 3 (max 1 (Utf8.length name / 3))

def distance (name candidate : Bytes) : Nat :=
  Text.editDistance (Utf8.chars name) (Utf8.chars candidate)

/-- The first of the nearest candidates that are nearer than `bound`, or else `best`. -/
def nearest (name : Bytes) : (bound : Nat) → (best : Bytes) → List Bytes → Bytes
  | _, best, [] => best
  | bound, best, c :: candidates =>
    if c == name then nearest name bound best candidates
    else
      let d := distance name c
      if d < bound then nearest name d c candidates else nearest name bound best candidates

/-- The candidate to suggest for `name`, if one is near enough. -/
def closest? (name : Bytes) (candidates : List Bytes) : Option Bytes :=
  let best := nearest name (limit name + 1) [] candidates
  if best.isEmpty then none else some best

end Lox.Suggestion
