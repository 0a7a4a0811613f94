import Lox.Proofs.Token.Lexicon
import Lox.Proofs.Token.Scanning

/-! The literals of tokens: a number that is read from a source is finite. -/
namespace Lox

/-- The literal is no number beyond the finite range. -/
def Literal.Finite : Literal → Prop
  | .number x => x.isFinite = true
  | .nil | .bool _ | .string _ => True

/-- If the piece is a token, its literal is finite. -/
def Piece.Content.Finite : Piece.Content → Prop
  | .token _ literal => literal.Finite
  | .skipped | .fault _ => True

namespace Piece

theorem finite_string (s : OpenString) (rest : Bytes) : (string s rest).content.Finite := by
  fun_induction string s rest
  case case4 ih | case5 ih | case6 ih => exact ih
  all_goals trivial

theorem finite_blockComment (text rest : Bytes) : (blockComment text rest).content.Finite := by
  fun_induction blockComment text rest
  case case4 ih | case5 ih => exact ih
  all_goals trivial

theorem finite_number (b : UInt8) (rest : Bytes) : (number b rest).content.Finite := by
  unfold number
  dsimp only
  split
  next x hx =>
    have hread : x.isFinite = true := by
      unfold Decimal.read? at hx
      dsimp only at hx
      split at hx
      next hfinite =>
        cases hx
        exact hfinite
      next => cases hx
    exact hread
  next => trivial

theorem finite_operator (b second : UInt8) (two one : Kind) (rest : Bytes) :
    (operator b second two one rest).content.Finite := by
  unfold operator
  split
  · trivial
  · split <;> trivial

theorem finite_slash (rest : Bytes) : (slash rest).content.Finite := by
  unfold slash
  split
  · trivial
  · split
    · trivial
    · split
      · exact finite_blockComment _ _
      · trivial

theorem finite_head (b : UInt8) (rest : Bytes) : (head b rest).content.Finite := by
  rw [head_eq]
  cases Opening.ofByte b with
  | double second two one => exact finite_operator b second two one rest
  | slash => exact finite_slash rest
  | quote => exact finite_string .opened rest
  | digit => exact finite_number b rest
  | space | single kind | letter | other => trivial

theorem finite_token? {p : Piece} (hp : p.content.Finite) (start : Position) :
    ∀ t ∈ p.token? start, t.literal.Finite := by
  intro t ht
  unfold token? at ht
  split at ht
  next kind literal hcontent =>
    rw [hcontent] at hp
    cases ht
    exact hp
  next => cases ht

end Piece

namespace Scan

theorem finite_pieces (fuel : Nat) (source : Bytes) :
    ∀ p ∈ pieces fuel source, p.content.Finite := by
  induction fuel generalizing source with
  | zero => cases source <;> exact List.forall_mem_nil _
  | succ fuel ih =>
    cases source with
    | nil => exact List.forall_mem_nil _
    | cons b rest => exact List.forall_mem_cons.2 ⟨Piece.finite_head b rest, ih _⟩

theorem finite_tokensOf {ps : List Piece} (h : ∀ p ∈ ps, p.content.Finite) (start : Position) :
    ∀ t ∈ tokensOf start ps, t.literal.Finite := by
  induction ps generalizing start with
  | nil => exact List.forall_mem_singleton.2 trivial
  | cons p ps ih =>
    obtain ⟨hp, hps⟩ := List.forall_mem_cons.1 h
    refine List.forall_mem_append.2 ⟨fun t ht => ?_, ih hps _⟩
    exact Piece.finite_token? hp start t (Option.mem_toList.1 ht)

/-- The literals of all tokens of a source are finite. -/
theorem finite_tokens (source : Bytes) : ∀ t ∈ (ofSource source).tokens, t.literal.Finite := by
  rw [ofSource_eq]
  exact finite_tokensOf (finite_pieces _ source) .start

end Scan
end Lox
