import Lox.Text.Bytes

/-! Reading bytes as UTF-8. A byte that starts no well-formed sequence stands for itself as an
invalid symbol, so every byte string has exactly one reading. -/
namespace Lox.Utf8

/-- One symbol of a text: a character or a byte that belongs to none. -/
inductive Symbol where
  | char (c : Char)
  | invalid (b : UInt8)
  deriving DecidableEq, Repr

/-- The character shown for a symbol; an invalid byte is shown as U+FFFD. -/
def Symbol.toChar : Symbol → Char
  | .char c => c
  | .invalid _ => Char.ofNat 0xFFFD

def Symbol.bytes : Symbol → Bytes
  | .char c => String.utf8EncodeChar c
  | .invalid b => [b]

/-- The bytes that may follow a leading byte, and how many continuation bytes come after that. -/
def follow (b : UInt8) : Option (UInt8 × UInt8 × Nat) :=
  if b < 0xC2 then none
  else if b < 0xE0 then some (0x80, 0xBF, 0)
  else if b < 0xF0 then
    some (if b == 0xE0 then 0xA0 else 0x80, if b == 0xED then 0x9F else 0xBF, 1)
  else if b < 0xF5 then
    some (if b == 0xF0 then 0x90 else 0x80, if b == 0xF4 then 0x8F else 0xBF, 2)
  else none

def isContinuation (b : UInt8) : Bool := 0x80 ≤ b && b ≤ 0xBF

def low (b : UInt8) : Nat := b.toNat % 64

/-- The symbol that starts with byte `b`, and how many bytes of `rest` belong to it. -/
def head (b : UInt8) (rest : Bytes) : Symbol × Nat :=
  if b < 0x80 then (.char (Char.ofNat b.toNat), 0)
  else match follow b, rest with
    | some (lo, hi, 0), b₁ :: _ =>
      if lo ≤ b₁ && b₁ ≤ hi then (.char (Char.ofNat (b.toNat % 32 * 64 + low b₁)), 1)
      else (.invalid b, 0)
    | some (lo, hi, 1), b₁ :: b₂ :: _ =>
      if lo ≤ b₁ && b₁ ≤ hi && isContinuation b₂ then
        (.char (Char.ofNat ((b.toNat % 16 * 64 + low b₁) * 64 + low b₂)), 2)
      else (.invalid b, 0)
    | some (lo, hi, 2), b₁ :: b₂ :: b₃ :: _ =>
      if lo ≤ b₁ && b₁ ≤ hi && isContinuation b₂ && isContinuation b₃ then
        (.char (Char.ofNat (((b.toNat % 8 * 64 + low b₁) * 64 + low b₂) * 64 + low b₃)), 3)
      else (.invalid b, 0)
    | _, _ => (.invalid b, 0)

/-- Reads a text from the left, where the first `skip` bytes belong to a symbol already read. -/
def decodeOnto (symbols : List Symbol) (skip : Nat) : Bytes → List Symbol
  | [] => symbols.reverse
  | b :: rest =>
    match skip with
    | skip + 1 => decodeOnto symbols skip rest
    | 0 => decodeOnto ((head b rest).1 :: symbols) (head b rest).2 rest

/-- The symbols of a text. -/
def decode (text : Bytes) : List Symbol := decodeOnto [] 0 text

/-- The characters of a text, with U+FFFD for each invalid byte. -/
def chars (text : Bytes) : List Char := (decode text).map Symbol.toChar

/-- How many symbols a text has. -/
def length (text : Bytes) : Nat := (decode text).length

def encode (symbols : List Symbol) : Bytes := symbols.flatMap Symbol.bytes

end Lox.Utf8
