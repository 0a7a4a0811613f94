import Lox.Text.Bytes

/-! Terminal colours. -/
namespace Lox.Text

/-- A way to show text on a terminal. -/
inductive Style where
  | boldRed | red | blue | cyan | boldCyan | green | gray
  deriving DecidableEq, Repr

def Style.code : Style → String
  | boldRed => "1;31"
  | red => "31"
  | blue => "34"
  | cyan => "36"
  | boldCyan => "1;36"
  | green => "32"
  | gray => "38;5;244"

/-- The sequence that starts the display attributes `code`. -/
def escape (code : String) : Bytes := 27 :: utf8 "[" ++ utf8 code ++ utf8 "m"

/-- The text in a style, or as it is without colour. -/
def paint (colour : Bool) (style : Style) (text : Bytes) : Bytes :=
  if colour then escape style.code ++ text ++ escape "0" else text

end Lox.Text
