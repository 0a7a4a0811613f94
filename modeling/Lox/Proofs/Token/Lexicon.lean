import Lox.Token.Scan

/-! The lexical grammar: the byte strings that are tokens, each with its kind, those that stand
between tokens, and those that are neither. -/
namespace Lox

/-- The kinds of operators and other signs. -/
def Kind.operators : List Kind :=
  [leftParen, rightParen, leftBrace, rightBrace, comma, dot, minus, plus, semicolon, slash, star,
   question, colon, bang, bangEqual, equal, equalEqual, greater, greaterEqual, less, lessEqual,
   plusPlus, minusMinus]

/-- What can stand between the quotes of a string. A backslash takes the byte after it along. -/
inductive StringBody : Bytes → Prop where
  | nil : StringBody []
  | plain {b : UInt8} {w : Bytes} (hq : b ≠ ascii '"') (hb : b ≠ ascii '\\') (h : StringBody w) :
      StringBody (b :: w)
  | escape {e : UInt8} {w : Bytes} (h : StringBody w) : StringBody (ascii '\\' :: e :: w)

/-- Digits, one at least. -/
def Digits (w : Bytes) : Prop := w ≠ [] ∧ ∀ b ∈ w, Piece.isDigit b = true

inductive Numeral : Bytes → Prop where
  | whole {w : Bytes} (h : Digits w) : Numeral w
  | fraction {v w : Bytes} (hv : Digits v) (hw : Digits w) : Numeral (v ++ ascii '.' :: w)

/-- A letter and the letters and digits after it. -/
inductive Word : Bytes → Prop where
  | mk {b : UInt8} {w : Bytes} (hb : Piece.isLetter b = true)
      (hw : ∀ c ∈ w, Piece.isWordByte c = true) : Word (b :: w)

/-- The tokens of the language, as kinds and texts. -/
inductive Lexeme : Kind → Bytes → Prop where
  | operator {k : Kind} (h : k ∈ Kind.operators) : Lexeme k (utf8 k.name)
  | keyword {k : Kind} (h : k ∈ Kind.reserved) : Lexeme k (utf8 k.name)
  | identifier {w : Bytes} (h : Word w) (hr : ∀ k ∈ Kind.reserved, utf8 k.name ≠ w) :
      Lexeme .identifier w
  | number {w : Bytes} (h : Numeral w) : Lexeme .number w
  | string {w : Bytes} (h : StringBody w) : Lexeme .string (ascii '"' :: (w ++ [ascii '"']))

/-- Of all tokens that `text ++ after` starts with, `text` is the longest, and it has no other kind
than the given one. -/
structure Longest (kind : Kind) (text after : Bytes) : Prop where
  lexeme : Lexeme kind text
  longest : ∀ kind' text', Lexeme kind' text' → text' <+: text ++ after →
    text' <+: text ∧ (text' = text → kind' = kind)

/-- The texts between tokens: a space, a comment up to the end of its line, or a comment up to the
first sign that closes it. -/
inductive Blank : (text after : Bytes) → Prop where
  | space {b : UInt8} {after : Bytes} (h : Piece.isSpace b = true) : Blank [b] after
  | line {body after : Bytes} (h : newline ∉ body)
      (hend : after = [] ∨ ∃ more, after = newline :: more) :
      Blank (ascii '/' :: ascii '/' :: body) after
  | block {body after : Bytes} (h : ¬ [ascii '*', ascii '/'] <:+: body ++ [ascii '*']) :
      Blank (ascii '/' :: ascii '*' :: (body ++ [ascii '*', ascii '/'])) after

/-- The texts that are not accepted: a string or a comment that is not closed up to the end, a
number that is too great, or a character that starts nothing. -/
inductive Faulty : LexicalError → (text after : Bytes) → Prop where
  | string {text : Bytes} (h : ∀ body, StringBody body → ¬ body ++ [ascii '"'] <+: text) :
      Faulty .unterminatedString (ascii '"' :: text) []
  | comment {text : Bytes} (h : ¬ [ascii '*', ascii '/'] <:+: text) :
      Faulty .unterminatedComment (ascii '/' :: ascii '*' :: text) []
  | number {text after : Bytes} (h : Longest .number text after) (hr : Decimal.read? text = none) :
      Faulty .numberOutOfRange text after
  | character {b : UInt8} {text after : Bytes} (hlen : text.length ≤ 3)
      (hs : Piece.isSpace b = false) (hq : b ≠ ascii '"')
      (h : ∀ kind w, Lexeme kind w → ¬ w <+: b :: text ++ after) :
      Faulty .unexpectedCharacter (b :: text) after

/-! Which tokens start with a byte. -/

/-- How the scanner proceeds at a byte. -/
inductive Opening where
  | space | slash | quote | digit | letter | other
  | single (kind : Kind)
  | double (second : UInt8) (two one : Kind)
  deriving DecidableEq

def Opening.ofByte (b : UInt8) : Opening :=
  if Piece.isSpace b then space
  else if let some kind := Piece.single? b then single kind
  else if let some (second, two, one) := Piece.double? b then double second two one
  else if b == ascii '/' then slash
  else if b == ascii '"' then quote
  else if Piece.isDigit b then digit
  else if Piece.isLetter b then letter
  else other

theorem Piece.head_eq (b : UInt8) (rest : Bytes) : Piece.head b rest =
    match Opening.ofByte b with
    | .space => ⟨.skipped, [b], rest, []⟩
    | .single kind => ⟨.token kind .nil, [b], rest, []⟩
    | .double second two one => Piece.operator b second two one rest
    | .slash => Piece.slash rest
    | .quote => Piece.string .opened rest
    | .digit => Piece.number b rest
    | .letter => Piece.word b rest
    | .other => Piece.unexpected b rest := by
  unfold Piece.head Opening.ofByte
  split
  · rfl
  · cases Piece.single? b with
    | some kind => rfl
    | none =>
      cases Piece.double? b with
      | some x => rfl
      | none =>
        dsimp only
        split
        · rfl
        · split
          · rfl
          · split
            · rfl
            · split <;> rfl

theorem Opening.ofByte_digit {b : UInt8} (h : Piece.isDigit b = true) : ofByte b = .digit := by
  have all : ∀ n : Fin 256, Piece.isDigit (.ofFin n) = true → ofByte (.ofFin n) = .digit := by
    decide +kernel
  exact all b.toFin h

theorem Opening.ofByte_letter {b : UInt8} (h : Piece.isLetter b = true) : ofByte b = .letter := by
  have all : ∀ n : Fin 256, Piece.isLetter (.ofFin n) = true → ofByte (.ofFin n) = .letter := by
    decide +kernel
  exact all b.toFin h

/-- The sign of kind `k` is written so. -/
def Kind.spells (k : Kind) (w : Bytes) : Bool := operators.contains k && utf8 k.name == w

/-- The byte is one at which the scanner may proceed so. -/
def Opening.fits (b : UInt8) : Opening → Bool
  | space => Piece.isSpace b
  | single k => k.spells [b]
  | double second two one => one.spells [b] && two.spells [b, second]
  | slash => b == ascii '/'
  | quote => b == ascii '"'
  | digit => Piece.isDigit b
  | letter => Piece.isLetter b
  | other => !Piece.isSpace b && b != ascii '"'

theorem Opening.ofByte_fits (b : UInt8) : (ofByte b).fits b = true := by
  have all : ∀ n : Fin 256, (ofByte (.ofFin n)).fits (.ofFin n) = true := by decide +kernel
  exact all b.toFin

theorem lexeme_of_spells {k : Kind} {w : Bytes} (h : k.spells w = true) : Lexeme k w := by
  simp only [Kind.spells, Bool.and_eq_true, List.contains_iff_mem, beq_iff_eq] at h
  rw [← h.2]
  exact .operator h.1

/-- The second byte of an operator is one of those that operators are written with. -/
theorem Opening.second_ne {b second c : UInt8} {two one : Kind}
    (h : ofByte b = .double second two one) (hc : ∀ k ∈ Kind.operators, c ∉ utf8 k.name) :
    c ≠ second := by
  have hfits := ofByte_fits b
  rw [h] at hfits
  simp only [fits, Kind.spells, Bool.and_eq_true, List.contains_iff_mem, beq_iff_eq] at hfits
  have hname := hc two hfits.2.1
  rw [hfits.2.2] at hname
  rintro rfl
  simp at hname

/-- What a token is that starts with `b` and goes on with `w`. -/
def Starts (b : UInt8) (kind : Kind) (w : Bytes) : Prop :=
  match Opening.ofByte b with
  | .space | .other => False
  | .single k => kind = k ∧ w = []
  | .double second two one => kind = one ∧ w = [] ∨ kind = two ∧ w = [second]
  | .slash => kind = .slash ∧ w = []
  | .quote => kind = .string ∧ ∃ body, StringBody body ∧ w = body ++ [ascii '"']
  | .digit => kind = .number ∧ Numeral (b :: w)
  | .letter => kind = Kind.ofWord (b :: w) ∧ ∀ c ∈ w, Piece.isWordByte c = true

theorem Numeral.starts {b : UInt8} {w : Bytes} (h : Numeral (b :: w)) : Piece.isDigit b = true := by
  generalize hu : b :: w = u at h
  cases h with
  | whole h => exact h.2 b (hu ▸ List.mem_cons_self)
  | @fraction v w' hv hw =>
    cases v with
    | nil => exact absurd rfl hv.1
    | cons c v =>
      cases hu
      exact hv.2 b List.mem_cons_self

theorem Numeral.ne_nil {w : Bytes} (h : Numeral w) : w ≠ [] := by
  cases h with
  | whole h => exact h.1
  | fraction => simp

/-- No token is empty. -/
theorem Lexeme.ne_nil {kind : Kind} {w : Bytes} (h : Lexeme kind w) : w ≠ [] := by
  cases h with
  | operator h => revert kind; decide
  | keyword h => revert kind; decide
  | identifier h => cases h; nofun
  | number h => exact h.ne_nil
  | string h => nofun

/-- The end of the input has no text of its own. -/
theorem Lexeme.not_end {kind : Kind} {w : Bytes} (h : Lexeme kind w) : kind ≠ .endOfInput := by
  cases h with
  | operator h => revert kind; decide
  | keyword h => revert kind; decide
  | identifier => nofun
  | number => nofun
  | string => nofun

theorem Kind.ofWord_reserved : ∀ k ∈ Kind.reserved, Kind.ofWord (utf8 k.name) = k := by decide

theorem Kind.ofWord_identifier {w : Bytes} (h : ∀ k ∈ Kind.reserved, utf8 k.name ≠ w) :
    Kind.ofWord w = .identifier := by
  have hnone : (Kind.reserved.find? fun k => utf8 k.name == w) = none := by
    simpa using h
  rw [Kind.ofWord, hnone]
  rfl

theorem lexeme_ofWord {b : UInt8} {w : Bytes} (hb : Piece.isLetter b = true)
    (hw : ∀ c ∈ w, Piece.isWordByte c = true) : Lexeme (Kind.ofWord (b :: w)) (b :: w) := by
  cases hfind : Kind.reserved.find? fun k => utf8 k.name == b :: w with
  | some k =>
    have hname : utf8 k.name = b :: w := by simpa using List.find?_some hfind
    rw [Kind.ofWord, hfind, ← hname]
    exact .keyword (List.mem_of_find?_eq_some hfind)
  | none =>
    have hr : ∀ k ∈ Kind.reserved, utf8 k.name ≠ b :: w := by simpa using hfind
    rw [Kind.ofWord_identifier hr]
    exact .identifier (.mk hb hw) hr

private theorem starts_operator {k : Kind} (h : k ∈ Kind.operators) :
    ∃ b w, utf8 k.name = b :: w ∧ Starts b k w := by
  simp only [Kind.operators, List.mem_cons, List.not_mem_nil, or_false] at h
  rcases h with rfl | rfl | rfl | rfl | rfl | rfl | rfl | rfl | rfl | rfl | rfl | rfl | rfl | rfl |
    rfl | rfl | rfl | rfl | rfl | rfl | rfl | rfl | rfl
  all_goals
    first
    | exact ⟨_, _, rfl, rfl, rfl⟩
    | exact ⟨_, _, rfl, .inl ⟨rfl, rfl⟩⟩
    | exact ⟨_, _, rfl, .inr ⟨rfl, rfl⟩⟩

private theorem starts_reserved : ∀ k ∈ Kind.reserved,
    (utf8 k.name).head?.all Piece.isLetter = true ∧ (utf8 k.name).all Piece.isWordByte = true := by
  decide

/-- The tokens that start with a byte are those that the scanner looks for there. -/
theorem lexeme_iff_starts {b : UInt8} {w : Bytes} {kind : Kind} :
    Lexeme kind (b :: w) ↔ Starts b kind w := by
  constructor
  · intro h
    generalize hu : b :: w = u at h
    cases h with
    | operator h =>
      obtain ⟨c, v, hname, hs⟩ := starts_operator h
      rw [hname] at hu
      cases hu
      exact hs
    | keyword h =>
      obtain ⟨hfirst, hall⟩ := starts_reserved _ h
      rw [← hu] at hfirst hall
      rw [Starts, Opening.ofByte_letter hfirst]
      refine ⟨?_, fun c hc => List.all_eq_true.1 hall c (List.mem_cons_of_mem b hc)⟩
      rw [hu, Kind.ofWord_reserved _ h]
    | identifier h hr =>
      cases h with
      | mk hb hw =>
        cases hu
        rw [Starts, Opening.ofByte_letter hb]
        exact ⟨(Kind.ofWord_identifier hr).symm, hw⟩
    | number h =>
      subst hu
      rw [Starts, Opening.ofByte_digit h.starts]
      exact ⟨rfl, h⟩
    | string h =>
      cases hu
      exact ⟨rfl, _, h, rfl⟩
  · intro h
    have hfits := Opening.ofByte_fits b
    unfold Starts at h
    cases ho : Opening.ofByte b with
    | space | other =>
      rw [ho] at h
      exact h.elim
    | single k =>
      rw [ho] at h hfits
      obtain ⟨rfl, rfl⟩ := h
      exact lexeme_of_spells hfits
    | double second two one =>
      rw [ho] at h hfits
      obtain ⟨hone, htwo⟩ := Bool.and_eq_true_iff.1 hfits
      obtain ⟨rfl, rfl⟩ | ⟨rfl, rfl⟩ := h
      · exact lexeme_of_spells hone
      · exact lexeme_of_spells htwo
    | slash =>
      rw [ho] at h hfits
      obtain ⟨rfl, rfl⟩ := h
      rw [beq_iff_eq.1 hfits]
      exact .operator (by decide)
    | quote =>
      rw [ho] at h hfits
      obtain ⟨rfl, body, hbody, rfl⟩ := h
      rw [beq_iff_eq.1 hfits]
      exact .string hbody
    | digit =>
      rw [ho] at h
      obtain ⟨rfl, hn⟩ := h
      exact .number hn
    | letter =>
      rw [ho] at h hfits
      obtain ⟨rfl, hw⟩ := h
      exact lexeme_ofWord hfits hw

end Lox
