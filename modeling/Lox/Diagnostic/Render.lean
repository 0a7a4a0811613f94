import Lox.Diagnostic.Basic
import Lox.Text.Blank
import Lox.Text.Style
import Lox.Text.Width

/-! A diagnostic as shown to the user: its line, the source line with a caret run under the
offending text, and a hint. -/
namespace Lox.Diagnostic
open Text

/-- Tabs are shown as four spaces. -/
def expandTabs (text : Bytes) : Bytes :=
  text.flatMap fun b => if b == ascii '\t' then Bytes.spaces 4 else [b]

/-- The cells of a text as shown. -/
def shownWidth (text : Bytes) : Nat := displayWidth (expandTabs text)

/-- The source line that the fault is on, unless there is none or it is blank. -/
def sourceLine? (d : Diagnostic) (lines : List Bytes) : Option Bytes :=
  if d.line < 1 then none
  else
    match lines[(d.line - 1).toNat]? with
    | none => none
    | some raw =>
      let line := Bytes.trimEnd (· == ascii '\r') raw
      if isBlank line then none else some line

/-- The cells before the caret run. -/
def caretIndent (d : Diagnostic) (line : Bytes) : Nat :=
  shownWidth (line.take (min (d.column - 1).toNat line.length))

/-- The length of the caret run: the cells of the first line of the lexeme, and one at least. -/
def caretLength (d : Diagnostic) : Nat :=
  if d.atEnd || d.lexeme.isEmpty then 1 else max 1 (shownWidth (Bytes.firstLine d.lexeme))

/-- The source line and the caret run below it. -/
def excerpt (d : Diagnostic) (colour : Bool) (line : Bytes) : Bytes :=
  let gutter := Bytes.ofInt d.line
  let bar := paint colour .blue (utf8 "| ")
  let carets := List.replicate d.caretLength (ascii '^')
  paint colour .blue gutter ++ utf8 " " ++ bar ++ expandTabs line ++ [newline] ++
    Bytes.spaces gutter.length ++ utf8 " " ++ bar ++ Bytes.spaces (d.caretIndent line) ++
    paint colour .red carets ++ [newline]

def hintLine (d : Diagnostic) (colour : Bool) : Bytes :=
  if d.hint.isEmpty then []
  else utf8 "  " ++ paint colour .cyan (utf8 "hint:") ++ utf8 " " ++ d.hint ++ [newline]

/-- The diagnostic against the lines of its source. -/
def renderLines (d : Diagnostic) (colour : Bool) (lines : List Bytes) : Bytes :=
  paint colour .boldRed d.text ++ [newline] ++
    ((d.sourceLine? lines).map (d.excerpt colour)).getD [] ++ d.hintLine colour

/-- Diagnostics in order, against their source. -/
def renderAll (colour : Bool) (source : Bytes) (ds : List Diagnostic) : Bytes :=
  let lines := Bytes.lines source
  ds.flatMap (·.renderLines colour lines)

end Lox.Diagnostic
