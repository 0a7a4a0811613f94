import Lox.Proofs.Token.Scanning

/-! Scanning loses nothing: a source is made of its tokens and of the texts between them, and every
token and fault is placed where its text stands. -/
namespace Lox

/-- A piece of a source, with the place where it starts. -/
structure Segment where
  start : Position
  content : Piece.Content
  text : Bytes

namespace Segment

def token? (s : Segment) : Option Token :=
  match s.content with
  | .token kind literal => some ⟨kind, s.text, literal, s.start⟩
  | _ => none

theorem token?_position (s : Segment) {t : Token} (h : s.token? = some t) :
    t.position = s.start := by
  unfold token? at h
  split at h
  · cases h
    rfl
  · cases h

theorem token?_lexeme (s : Segment) {t : Token} (h : s.token? = some t) : t.lexeme = s.text := by
  unfold token? at h
  split at h
  · cases h
    rfl
  · cases h

/-- What is wrong with the segment, and where. -/
def fault? (s : Segment) : Option (LexicalError × Position) :=
  match s.content with
  | .fault error => some (error, s.start)
  | _ => none

/-- The segments stand one after the other behind the bytes `before`, and each is what its content
says. -/
def Tile : (before : Bytes) → List Segment → Prop
  | _, [] => True
  | before, s :: segments => s.start = .after before ∧
      s.content.Describes s.text (segments.flatMap text) ∧ Tile (before ++ s.text) segments

/-- The segments that are pieces from `start` on. -/
def ofPieces : Position → List Piece → List Segment
  | _, [] => []
  | start, p :: ps => ⟨start, p.content, p.text⟩ :: ofPieces (start.advance p.text) ps

theorem flatMap_ofPieces (start : Position) (ps : List Piece) :
    (ofPieces start ps).flatMap text = ps.flatMap Piece.text := by
  induction ps generalizing start with
  | nil => rfl
  | cons p ps ih => rw [ofPieces, List.flatMap_cons, List.flatMap_cons, ih]

theorem tokensOf_eq (start : Position) (ps : List Piece) : Scan.tokensOf start ps =
    (ofPieces start ps).filterMap token? ++
      [⟨.endOfInput, [], .nil, start.advance (ps.flatMap Piece.text)⟩] := by
  induction ps generalizing start with
  | nil => rfl
  | cons p ps ih =>
    have htoken : p.token? start = token? ⟨start, p.content, p.text⟩ := by
      unfold Piece.token? token?
      cases p.content <;> rfl
    rw [Scan.tokensOf, ih, ofPieces, List.filterMap_cons, htoken, List.flatMap_cons,
      Position.advance_append]
    cases token? ⟨start, p.content, p.text⟩ <;> rfl

theorem Tile.place {before : Bytes} {segments : List Segment} {s : Segment}
    (h : Tile before segments) (hs : s ∈ segments) :
    ∃ v w, segments.flatMap text = v ++ (s.text ++ w) ∧ s.start = .after (before ++ v) := by
  induction segments generalizing before with
  | nil => cases hs
  | cons first segments ih =>
    rw [List.flatMap_cons]
    cases hs with
    | head => exact ⟨[], _, rfl, h.1.trans (by rw [List.append_nil])⟩
    | tail _ hs =>
      obtain ⟨v, w, hwhole, hstart⟩ := ih h.2.2 hs
      refine ⟨first.text ++ v, w, ?_, ?_⟩
      · rw [hwhole, List.append_assoc]
      · rw [hstart, List.append_assoc]

theorem Tile.describes {before : Bytes} {segments : List Segment} {s : Segment}
    (h : Tile before segments) (hs : s ∈ segments) :
    ∃ after, s.content.Describes s.text after := by
  induction segments generalizing before with
  | nil => cases hs
  | cons first segments ih =>
    cases hs with
    | head => exact ⟨_, h.2.1⟩
    | tail _ hs => exact ih h.2.2 hs

/-- No segment is the end of the input. -/
theorem Tile.token_kind {before : Bytes} {segments : List Segment} {s : Segment} {t : Token}
    (h : Tile before segments) (hs : s ∈ segments) (ht : s.token? = some t) :
    t.kind ≠ .endOfInput := by
  obtain ⟨after, hdescribes⟩ := h.describes hs
  unfold token? at ht
  split at ht
  · next kind literal hcontent =>
    rw [hcontent] at hdescribes
    cases ht
    exact hdescribes.lexeme.not_end
  · cases ht

end Segment

namespace Cuts
variable {source : Bytes} {ps : List Piece}

theorem tile (h : Cuts source ps) (before : Bytes) :
    Segment.Tile before (Segment.ofPieces (.after before) ps) := by
  induction h generalizing before with
  | nil => trivial
  | cons hp hps ih =>
    rw [Segment.ofPieces, Position.after_advance]
    refine ⟨rfl, ?_, ih _⟩
    rw [Segment.flatMap_ofPieces, hps.flatMap_text]
    exact hp.correct

end Cuts

namespace Scan

/-- The segments that a source is cut into. -/
def segments (source : Bytes) : List Segment :=
  Segment.ofPieces (.after []) (pieces source.length source)

theorem segments_tile (source : Bytes) : Segment.Tile [] (segments source) :=
  (Cuts.of_pieces source.length source (Nat.le_refl _)).tile []

theorem segments_whole (source : Bytes) : (segments source).flatMap Segment.text = source := by
  rw [segments, Segment.flatMap_ofPieces,
    (Cuts.of_pieces source.length source (Nat.le_refl _)).flatMap_text]

theorem tokens_eq (source : Bytes) : (ofSource source).tokens =
    (segments source).filterMap Segment.token? ++
      [⟨.endOfInput, [], .nil, .after source⟩] := by
  have hcuts := Cuts.of_pieces source.length source (Nat.le_refl _)
  rw [ofSource_eq, Position.start_eq, Segment.tokensOf_eq, hcuts.flatMap_text,
    Position.after_advance, List.nil_append]
  rfl

/-- Only the last token is an end of the input. -/
theorem segments_not_end (source : Bytes) :
    ∀ t ∈ (segments source).filterMap Segment.token?, t.kind ≠ .endOfInput := by
  intro t ht
  obtain ⟨s, hs, htoken⟩ := List.mem_filterMap.1 ht
  exact (segments_tile source).token_kind hs htoken

/-- The lexeme of a token stands in the source at the place of the token. -/
theorem token_placed {source : Bytes} {t : Token} (h : t ∈ (ofSource source).tokens) :
    ∃ v w, source = v ++ (t.lexeme ++ w) ∧ t.position = .after v := by
  rw [tokens_eq, List.mem_append, List.mem_filterMap, List.mem_singleton] at h
  obtain ⟨s, hs, htoken⟩ | rfl := h
  · obtain ⟨v, w, hplace, hstart⟩ := (segments_tile source).place hs
    rw [segments_whole] at hplace
    exact ⟨v, w, by rw [s.token?_lexeme htoken, hplace], (s.token?_position htoken).trans hstart⟩
  · exact ⟨source, [], (List.append_nil source).symm, rfl⟩

/-- A token other than the end of the input has a lexeme of its kind. -/
theorem token_lexeme {source : Bytes} {t : Token} (h : t ∈ (ofSource source).tokens)
    (hk : t.kind ≠ .endOfInput) : Lexeme t.kind t.lexeme := by
  rw [tokens_eq, List.mem_append, List.mem_filterMap, List.mem_singleton] at h
  obtain ⟨s, hs, htoken⟩ | rfl := h
  · obtain ⟨after, hdescribes⟩ := (segments_tile source).describes hs
    rw [s.token?_lexeme htoken]
    unfold Segment.token? at htoken
    split at htoken
    · next kind literal hcontent =>
      rw [hcontent] at hdescribes
      cases htoken
      exact hdescribes.lexeme
    · cases htoken
  · exact absurd rfl hk

end Scan
end Lox
