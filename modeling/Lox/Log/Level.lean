import Lox.Text.Bytes

/-! Log levels: the greater, the more important. -/
namespace Lox.Log

/-- The importance of an entry, or the least importance that is logged. -/
structure Level where
  rank : Int
  deriving DecidableEq, Repr

namespace Level

def trace : Level := ⟨-1⟩
def debug : Level := ⟨0⟩
def info : Level := ⟨1⟩
def warn : Level := ⟨2⟩

/-- The levels that have a name. -/
def named : List (String × Level) :=
  [("trace", ⟨-1⟩), ("debug", ⟨0⟩), ("info", ⟨1⟩), ("warn", ⟨2⟩), ("error", ⟨3⟩), ("fatal", ⟨4⟩),
   ("panic", ⟨5⟩), ("disabled", ⟨7⟩), ("", ⟨6⟩)]

/-- Why a text is no level. -/
inductive ReadError where
  | unknown (text : Bytes)
  | outOfBounds (n : Int)
  deriving DecidableEq

def ReadError.message : ReadError → Bytes
  | unknown text =>
    utf8 "Unknown Level String: " ++ Bytes.apostrophes text ++ utf8 ", defaulting to NoLevel"
  | outOfBounds n =>
    utf8 "Out-Of-Bounds Level: " ++ Bytes.apostrophes (Bytes.ofInt n) ++
      utf8 ", defaulting to NoLevel"

/-- The text in lower case. The long s is a lower-case s too. -/
def foldCase : Bytes → Bytes
  | [] => []
  | 0xC5 :: 0xBF :: rest => ascii 's' :: foldCase rest
  | b :: rest => (if ascii 'A' ≤ b && b ≤ ascii 'Z' then b + 32 else b) :: foldCase rest

/-- A whole number with an optional sign, if it has 64 bits at most. -/
def integer? (text : Bytes) : Option Int :=
  let bounded (n : Int) : Option Int := if -Int.pow 2 63 ≤ n ∧ n < Int.pow 2 63 then some n else none
  match text with
  | [] => none
  | b :: rest =>
    if b == ascii '-' then
      if Bytes.isDigits rest then bounded (-(Bytes.digitsValue rest : Int)) else none
    else if b == ascii '+' then
      if Bytes.isDigits rest then bounded (Bytes.digitsValue rest) else none
    else if Bytes.isDigits text then bounded (Bytes.digitsValue text)
    else none

/-- Reads a level: a name in any case, or a number of eight bits. -/
def read (text : Bytes) : Except ReadError Level :=
  match named.find? fun (name, _) => utf8 name == foldCase text with
  | some (_, level) => .ok level
  | none =>
    match integer? text with
    | none => .error (.unknown text)
    | some n => if -128 ≤ n ∧ n ≤ 127 then .ok ⟨n⟩ else .error (.outOfBounds n)

/-- The name of a level, or its number if it has none. -/
def text (l : Level) : Bytes :=
  match named.find? fun (_, level) => level == l with
  | some (name, _) => utf8 name
  | none => Bytes.ofInt l.rank

end Level
end Lox.Log
