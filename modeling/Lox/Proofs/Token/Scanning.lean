import Lox.Proofs.Token.Pieces

/-! Scanning as a function of the pieces of a source, and the places of the pieces. -/
namespace Lox

/-- The place behind the bytes `before`: line and column are counted from 1. -/
def Position.after (before : Bytes) : Position where
  offset := before.length
  line := 1 + before.count newline
  column := 1 + (before.reverse.takeWhile (· != newline)).length

namespace Position

theorem after_step (before : Bytes) (b : UInt8) : (after before).step b = after (before ++ [b]) := by
  rw [step, after, after, List.reverse_append, List.count_append, List.length_append]
  by_cases hb : b = newline
  · subst hb
    simp [Nat.add_assoc]
  · simp [hb, Nat.add_assoc]

theorem after_advance (before text : Bytes) : (after before).advance text = after (before ++ text) := by
  induction text generalizing before with
  | nil => rw [List.append_nil, advance, List.foldl_nil]
  | cons b text ih =>
    have hstep : (after before).advance (b :: text) = ((after before).step b).advance text := rfl
    rw [hstep, after_step, ih, List.append_assoc, List.singleton_append]

theorem start_eq : start = after [] := rfl

theorem advance_append (p : Position) (v w : Bytes) : p.advance (v ++ w) = (p.advance v).advance w :=
  List.foldl_append

end Position

namespace Scan

/-- The pieces of a source, at most `fuel` of them. -/
def pieces : (fuel : Nat) → Bytes → List Piece
  | _, [] => []
  | 0, _ :: _ => []
  | fuel + 1, b :: rest => Piece.head b rest :: pieces fuel (Piece.head b rest).rest

/-- The tokens of pieces that stand one after the other from `start` on. -/
def tokensOf : Position → List Piece → List Token
  | start, [] => [⟨.endOfInput, [], .nil, start⟩]
  | start, p :: ps => (p.token? start).toList ++ tokensOf (start.advance p.text) ps

/-- The faults of pieces that stand one after the other from `start` on. -/
def faultsOf : Position → List Piece → List LexicalFault
  | _, [] => []
  | start, p :: ps => p.faults start ++ faultsOf (start.advance p.text) ps

theorem rest_length_lt (b : UInt8) (rest : Bytes) :
    (Piece.head b rest).rest.length < (b :: rest).length := by
  have h := Piece.head_heads b rest
  have hlen := congrArg List.length h.whole
  have hpos := List.length_pos_iff.2 h.proper
  rw [List.length_append] at hlen
  omega

theorem loop_eq (fuel : Nat) (found : Scan) (start : Position) (source : Bytes)
    (h : source.length ≤ fuel) : loop fuel found start source =
      ⟨found.tokens.reverse ++ tokensOf start (pieces fuel source),
        found.faults.reverse ++ faultsOf start (pieces fuel source)⟩ := by
  induction fuel generalizing found start source with
  | zero =>
    cases source with
    | nil => simp [loop, finish, pieces, tokensOf, faultsOf]
    | cons b rest => cases h
  | succ fuel ih =>
    cases source with
    | nil => simp [loop, finish, pieces, tokensOf, faultsOf]
    | cons b rest =>
      have hlen := rest_length_lt b rest
      rw [loop, ih _ _ _ (by simp only [List.length_cons] at h hlen; omega)]
      simp only [add, pieces, tokensOf, faultsOf, List.reverse_append, List.reverse_reverse,
        List.append_assoc]
      cases (Piece.head b rest).token? start <;> rfl

theorem pieces_fuel (m n : Nat) (source : Bytes) (hm : source.length ≤ m) (hn : source.length ≤ n) :
    pieces m source = pieces n source := by
  induction m generalizing n source with
  | zero =>
    cases source with
    | nil => cases n <;> rfl
    | cons b rest => cases hm
  | succ m ih =>
    cases source with
    | nil => cases n <;> rfl
    | cons b rest =>
      cases n with
      | zero => cases hn
      | succ n =>
        have hlen := rest_length_lt b rest
        simp only [List.length_cons] at hm hn hlen
        rw [pieces, pieces, ih n _ (by omega) (by omega)]

theorem pieces_cons (b : UInt8) (rest : Bytes) :
    pieces (b :: rest).length (b :: rest) = Piece.head b rest ::
      pieces (Piece.head b rest).rest.length (Piece.head b rest).rest := by
  have hlen := rest_length_lt b rest
  rw [List.length_cons, pieces]
  congr 1
  exact pieces_fuel _ _ _ (Nat.le_of_lt_succ hlen) (Nat.le_refl _)

theorem ofSource_eq (source : Bytes) : ofSource source =
    ⟨tokensOf .start (pieces source.length source),
      faultsOf .start (pieces source.length source)⟩ := by
  rw [ofSource, loop_eq _ _ _ _ (Nat.le_refl _)]
  rfl

end Scan

/-- The pieces, one after the other, are the whole source. -/
inductive Cuts : Bytes → List Piece → Prop
  | nil : Cuts [] []
  | cons {source : Bytes} {p : Piece} {ps : List Piece} :
      p.Heads source → Cuts p.rest ps → Cuts source (p :: ps)

namespace Cuts

theorem of_pieces (fuel : Nat) (source : Bytes) (h : source.length ≤ fuel) :
    Cuts source (Scan.pieces fuel source) := by
  induction fuel generalizing source with
  | zero =>
    cases source with
    | nil => exact .nil
    | cons b rest => cases h
  | succ fuel ih =>
    cases source with
    | nil => exact .nil
    | cons b rest =>
      have hlen := Scan.rest_length_lt b rest
      simp only [List.length_cons] at h hlen
      exact .cons (Piece.head_heads b rest) (ih _ (by omega))

variable {source : Bytes} {ps : List Piece}

theorem flatMap_text (h : Cuts source ps) : ps.flatMap Piece.text = source := by
  induction h with
  | nil => rfl
  | cons hp _ ih => rw [List.flatMap_cons, ih, hp.whole]

end Cuts
end Lox
