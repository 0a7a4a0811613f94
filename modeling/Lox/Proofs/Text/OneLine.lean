import Lox.Proofs.Text.Utf8
import Lox.Token.Basic

/-! Texts on one line: numbers and quoted strings have no line end in them. -/
namespace Lox

/-- An ASCII byte of a text is one of its characters. -/
theorem Utf8.mem_ofChars_ascii {cs : List Char} {b : UInt8} (hb : b.toNat < 128)
    (h : b ∈ ofChars cs) : Char.ofNat b.toNat ∈ cs := by
  obtain ⟨c, hc, hmem⟩ := List.mem_flatMap.1 h
  have hsame : String.utf8EncodeChar (Char.ofNat b.toNat) = String.utf8EncodeChar c := by
    rw [encode_charOfByte hb, mem_encode_ascii hb hmem]
  have hleads : String.utf8EncodeChar (Char.ofNat b.toNat) <+: String.utf8EncodeChar c ++ [] := by
    rw [hsame]
    exact List.prefix_append _ []
  rwa [encode_head_unique hleads]

theorem newline_not_mem_ofNat (n : Nat) : newline ∉ Bytes.ofNat n := by
  intro h
  rw [Bytes.ofNat, Utf8.utf8_eq, show toString n = n.repr from rfl, Nat.repr_eq_ofList_toDigits,
    String.toList_ofList] at h
  have hdigit := Nat.isDigit_of_mem_toDigits (by decide) (by decide)
    (Utf8.mem_ofChars_ascii (by decide) h)
  exact absurd hdigit (by decide)

namespace Text

theorem newline_ne_hexDigit {n : Nat} (h : n < 16) : newline ≠ hexDigit n := by
  have all : ∀ n : Fin 16, newline ≠ hexDigit n.val := by decide
  exact all ⟨n, h⟩

theorem newline_not_mem_hex (width n : Nat) : newline ∉ hex width n := by
  intro h
  obtain ⟨i, -, hi⟩ := List.mem_map.1 h
  exact newline_ne_hexDigit (Nat.mod_lt _ (by decide)) hi.symm

theorem newline_not_mem_shortEscape {c : Char} {escape : String}
    (h : shortEscape? c = some escape) : newline ∉ utf8 escape := by
  unfold shortEscape? at h
  repeat' split at h
  all_goals (cases h <;> decide)

theorem newline_not_mem_quoteSymbol (s : Utf8.Symbol) : newline ∉ quoteSymbol s := by
  cases s with
  | invalid b => exact List.not_mem_append (by decide) (newline_not_mem_hex _ _)
  | char c =>
    unfold quoteSymbol
    dsimp only
    cases hescape : shortEscape? c with
    | some escape => exact newline_not_mem_shortEscape hescape
    | none =>
      dsimp only
      split
      · intro h
        have hc : Char.ofNat newline.toNat ∈ [c] := Utf8.mem_ofChars_ascii (by decide)
          (List.mem_flatMap.2 ⟨c, List.mem_singleton_self c, h⟩)
        cases List.mem_singleton.1 hc
        cases hescape
      · split
        · exact List.not_mem_append (by decide) (newline_not_mem_hex _ _)
        · split
          · exact List.not_mem_append (by decide) (newline_not_mem_hex _ _)
          · exact List.not_mem_append (by decide) (newline_not_mem_hex _ _)

theorem newline_not_mem_quote (text : Bytes) : newline ∉ quote text := by
  refine List.not_mem_append (List.not_mem_append (by decide) fun h => ?_) (by decide)
  obtain ⟨s, -, hs⟩ := List.mem_flatMap.1 h
  exact newline_not_mem_quoteSymbol s hs

end Text

namespace Decimal

theorem newline_not_mem_zeros (n : Nat) : newline ∉ zeros n := by
  intro h
  exact absurd (List.mem_replicate.1 h).2 (by decide)

theorem newline_not_mem_positional (d : Scaled) : newline ∉ d.positional := by
  have hdigits := newline_not_mem_ofNat d.coefficient
  unfold Scaled.positional digitText
  dsimp only
  split
  · exact List.not_mem_append hdigits (newline_not_mem_zeros _)
  · split
    · refine List.not_mem_append (List.not_mem_append (fun h => ?_) (by decide)) fun h => ?_
      · exact hdigits (List.mem_of_mem_take h)
      · exact hdigits (List.mem_of_mem_drop h)
    · exact List.not_mem_append (List.not_mem_append (by decide) (newline_not_mem_zeros _)) hdigits

theorem newline_not_mem_signed (x : Float) {magnitude : Bytes} (h : newline ∉ magnitude) :
    newline ∉ signed x magnitude := by
  unfold signed
  split
  · exact List.not_mem_append (by decide) h
  · exact h

theorem newline_not_mem_text (x : Float) : newline ∉ text x := by
  unfold text
  split
  · decide
  · split
    · split <;> decide
    · split
      · exact newline_not_mem_signed x (by decide)
      · exact newline_not_mem_signed x (newline_not_mem_positional _)

end Decimal

/-- A literal is shown on one line. -/
theorem Literal.newline_not_mem_text (v : Literal) : newline ∉ v.text := by
  cases v with
  | nil => decide
  | bool b => cases b <;> decide
  | number x => exact Decimal.newline_not_mem_text x
  | string s => exact Text.newline_not_mem_quote s

end Lox
