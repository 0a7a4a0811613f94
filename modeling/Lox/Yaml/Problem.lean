import Lox.Text.Bytes

/-! Why a YAML text cannot be read. -/
namespace Lox.Yaml

/-- Why a text is no document. Line 0 is not mentioned. -/
structure Problem where
  line : Nat := 0
  what : Bytes
  deriving DecidableEq, Repr

namespace Problem

/-- A problem within a token. Lines count from zero in `context` and `place`, and the place matters
where the context is the first line. The first line is not mentioned. -/
def ofToken (context place : Nat) (what : String) : Problem :=
  let before := if context = 0 then place else context
  ⟨if before = 0 then 0 else before + 1, utf8 what⟩

/-- A problem between tokens, which is mentioned at the line before. -/
def ofStructure (context place : Nat) (what : String) : Problem :=
  ⟨if context = 0 then place else context, utf8 what⟩

/-- The problem in one line. -/
def message (p : Problem) : Bytes :=
  if p.line = 0 then p.what
  else utf8 "line " ++ Bytes.ofNat p.line ++ utf8 ": " ++ p.what

end Problem
end Lox.Yaml
