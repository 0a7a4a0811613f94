import Lox.Proofs.Token.Scanning

/-! How strings are written. A byte stands for itself or has an escape sequence, and some bytes have
both; so every byte string can be written between quotes, and many can be written in several ways. -/
namespace Lox

/-- The bytes that stand after a backslash, each with the byte it is written for: line feed, tab,
carriage return, zero, backslash and quote. -/
def escapeTable : List (UInt8 × UInt8) :=
  [(ascii 'n', 10), (ascii 't', 9), (ascii 'r', 13), (ascii '0', 0), (ascii '\\', ascii '\\'),
   (ascii '"', ascii '"')]

/-- The ways to write a byte of a string. -/
inductive Spells : UInt8 → Bytes → Prop where
  | raw {b : UInt8} (hq : b ≠ ascii '"') (hb : b ≠ ascii '\\') : Spells b [b]
  | escape {e b : UInt8} (h : (e, b) ∈ escapeTable) : Spells b [ascii '\\', e]

/-- The ways to write a string between its quotes: each byte in one of the ways to write it. -/
inductive Writes : (value text : Bytes) → Prop where
  | nil : Writes [] []
  | cons {b : UInt8} {value spelling text : Bytes} (hb : Spells b spelling)
      (h : Writes value text) : Writes (b :: value) (spelling ++ text)

/-- The text with a quote on either side. -/
def Bytes.inQuotes (text : Bytes) : Bytes := ascii '"' :: (text ++ [ascii '"'])

/-- Every byte can be written. -/
theorem Spells.exists (b : UInt8) : ∃ spelling, Spells b spelling := by
  by_cases hq : b = ascii '"'
  · exact ⟨_, .escape (e := ascii '"') (by rw [hq]; decide)⟩
  by_cases hb : b = ascii '\\'
  · exact ⟨_, .escape (e := ascii '\\') (by rw [hb]; decide)⟩
  · exact ⟨_, .raw hq hb⟩

theorem Writes.exists (value : Bytes) : ∃ text, Writes value text := by
  induction value with
  | nil => exact ⟨[], .nil⟩
  | cons b value ih =>
    obtain ⟨spelling, hb⟩ := Spells.exists b
    obtain ⟨text, h⟩ := ih
    exact ⟨spelling ++ text, .cons hb h⟩

namespace Piece

theorem escaped?_of_mem : ∀ p ∈ escapeTable, escaped? p.1 = some p.2 := by
  simp only [escapeTable, List.forall_mem_cons]
  exact ⟨rfl, rfl, rfl, rfl, rfl, rfl, List.forall_mem_nil _⟩

theorem string_known (s : OpenString) {e v : UInt8} (he : escaped? e = some v) (rest : Bytes) :
    string s (ascii '\\' :: e :: rest) =
      string ⟨e :: ascii '\\' :: s.text, v :: s.value, s.escapes⟩ rest := by
  rw [string.eq_def]
  simp [show ascii '\\' ≠ ascii '"' by decide, he]

/-- A byte is read back from whatever it is written as. -/
theorem string_spelling {b : UInt8} {spelling : Bytes} (h : Spells b spelling) (s : OpenString)
    (rest : Bytes) : string s (spelling ++ rest) =
      string ⟨spelling.reverse ++ s.text, b :: s.value, s.escapes⟩ rest := by
  cases h with
  | raw hq hb => exact string_plain s hq hb rest
  | escape h => exact string_known s (escaped?_of_mem _ h) rest

/-- A string is read back up to its quote from whatever it is written as, without an unknown
escape. -/
theorem string_written {value text : Bytes} (h : Writes value text) (s : OpenString)
    (more : Bytes) : string s (text ++ ascii '"' :: more) =
      ⟨.token .string (.string (s.value.reverse ++ value)),
        s.text.reverse ++ (text ++ [ascii '"']), more, s.escapes.reverse⟩ := by
  induction h generalizing s with
  | nil =>
    rw [List.nil_append, string_quote, List.reverse_cons, List.append_nil, List.nil_append]
  | cons hb _ ih =>
    rw [List.append_assoc, string_spelling hb, ih]
    simp

end Piece

namespace Scan

theorem pieces_written {value text : Bytes} (h : Writes value text) :
    pieces text.inQuotes.length text.inQuotes =
      [⟨.token .string (.string value), text.inQuotes, [], []⟩] := by
  have hhead : Piece.head (ascii '"') (text ++ [ascii '"']) =
      ⟨.token .string (.string value), text.inQuotes, [], []⟩ := Piece.string_written h .opened []
  rw [Bytes.inQuotes, pieces_cons, hhead]
  rfl

/-- Every byte string can be written as a string; and in whatever way it is written, the text in
quotes is scanned as one token that stands for it, and without a fault. -/
theorem strings_express_all_bytes (value : Bytes) : (∃ text, Writes value text) ∧
    ∀ text, Writes value text → ofSource text.inQuotes =
      ⟨[⟨.string, text.inQuotes, .string value, .start⟩,
        ⟨.endOfInput, [], .nil, .after text.inQuotes⟩], []⟩ := by
  refine ⟨Writes.exists value, fun text h => ?_⟩
  have hstop : Position.start.advance text.inQuotes = .after text.inQuotes := by
    rw [Position.start_eq, Position.after_advance, List.nil_append]
  rw [ofSource_eq, pieces_written h, ← hstop]
  rfl

/-- A line end as it is and another one as an escape sequence, two bytes that are no text, and at the
end a quote and a backslash. -/
theorem strings_express_all_bytes_mixed :
    let value : Bytes := [10, 10, 0, 0xFF, ascii '"', ascii '\\']
    let text : Bytes := newline :: utf8 "\\n" ++ [0, 0xFF] ++ utf8 "\\\"\\\\"
    Writes value text ∧ ofSource text.inQuotes =
      ⟨[⟨.string, text.inQuotes, .string value, ⟨0, 1, 1⟩⟩,
        ⟨.endOfInput, [], .nil, ⟨11, 2, 10⟩⟩], []⟩ := by
  intro value text
  have hraw {b : UInt8} {value text : Bytes} (h : Writes value text)
      (hb : b ≠ ascii '"' ∧ b ≠ ascii '\\') : Writes (b :: value) (b :: text) :=
    .cons (.raw hb.1 hb.2) h
  have hescape (e : UInt8) {b : UInt8} {value text : Bytes} (h : Writes value text)
      (hb : (e, b) ∈ escapeTable) : Writes (b :: value) (ascii '\\' :: e :: text) :=
    .cons (.escape hb) h
  have hend : Writes [ascii '"', ascii '\\'] (utf8 "\\\"\\\\") :=
    hescape (ascii '"') (hescape (ascii '\\') .nil (by decide)) (by decide)
  have hwrites : Writes value text :=
    hraw (hescape (ascii 'n') (hraw (hraw hend (by decide)) (by decide)) (by decide)) (by decide)
  exact ⟨hwrites, (strings_express_all_bytes value).2 text hwrites⟩

end Scan
end Lox
