/-! Sets of code points as tables of closed ranges. -/
namespace Lox.Text

/-- The first and last code point of each range. -/
abbrev Ranges := List (Nat × Nat)

/-- One of the ranges holds the code point `n`. -/
def Ranges.has (table : Ranges) (n : Nat) : Bool := table.any fun (lo, hi) => lo ≤ n && n ≤ hi

end Lox.Text
