import Lox.Text.Utf8

/-! Edit distance where an insertion or deletion costs 1 and a substitution 2. -/
namespace Lox.Text

/-- The distances from a prefix that ends in `x` to the prefixes of a text. Before each of them
come the distance to its left, `left`, and those of the prefix without `x`, of which `diagonal`
is one place to the left. -/
def rowFrom (x : Char) (left diagonal : Nat) : (above : List Nat) → (text : List Char) → List Nat
  | up :: above, y :: text =>
    let d := min (min (up + 1) (left + 1)) (diagonal + if x = y then 0 else 2)
    d :: rowFrom x d up above text
  | _, _ => []

def nextRow (text : List Char) (row : List Nat) (x : Char) : List Nat :=
  match row with
  | [] => []
  | first :: above => (first + 1) :: rowFrom x (first + 1) first above text

/-- The least cost of changing `a` into `b`. -/
def editDistance (a b : List Char) : Nat :=
  ((a.foldl (nextRow b) (List.range (b.length + 1))).getLast?).getD 0

end Lox.Text
