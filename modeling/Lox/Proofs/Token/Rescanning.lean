import Lox.Proofs.Token.Lossless

/-! Scanning the lexemes of a source again. With a space between them they are found as they were:
nothing that stood after a lexeme in the source was needed to end it there. -/
namespace Lox

namespace Piece

/-- A space follows, or nothing. -/
def Spaced (after : Bytes) : Prop := ∀ c ∈ after.head?, c = ascii ' '

/-- The piece where `after` follows in place of what did. -/
def followedBy (p : Piece) (after : Bytes) : Piece := { p with rest := after }

/-- The piece is found where its text stands before a space or before nothing. -/
def Stands (p : Piece) : Prop :=
  ∃ b w, p.text = b :: w ∧ ∀ after, Spaced after → head b (w ++ after) = p.followedBy after

theorem Spaced.stop {after : Bytes} (h : Spaced after) {p : UInt8 → Bool}
    (hp : p (ascii ' ') = false) : ∀ c ∈ after.head?, p c = false := by
  intro c hc
  rw [h c hc, hp]

theorem takeWhile_stop {p : UInt8 → Bool} {w after : Bytes} (hw : ∀ c ∈ w, p c = true)
    (hafter : ∀ c ∈ after.head?, p c = false) : (w ++ after).takeWhile p = w := by
  have hnone : after.takeWhile p = [] := by
    cases after with
    | nil => rfl
    | cons c after => rw [List.takeWhile_cons_of_neg (by simp [hafter c rfl])]
  rw [List.takeWhile_append_of_pos hw, hnone, List.append_nil]

theorem dropWhile_stop {p : UInt8 → Bool} {w after : Bytes} (hw : ∀ c ∈ w, p c = true)
    (hafter : ∀ c ∈ after.head?, p c = false) : (w ++ after).dropWhile p = after := by
  rw [List.dropWhile_append_of_pos hw]
  cases after with
  | nil => rfl
  | cons c after => rw [List.dropWhile_cons_of_neg (by simp [hafter c rfl])]

/-! Each kind of token stands. -/

theorem operator_stands {b second : UInt8} {two one : Kind}
    (h : Opening.ofByte b = .double second two one) (rest : Bytes) :
    (operator b second two one rest).Stands := by
  have hhead (after : Bytes) : head b after = operator b second two one after := by
    rw [head_eq, h]
  have hone : Stands ⟨.token one .nil, [b], rest, []⟩ := by
    refine ⟨b, [], rfl, fun after hafter => ?_⟩
    rw [List.nil_append, hhead]
    cases after with
    | nil => rfl
    | cons c after =>
      have hc : c ≠ second := hafter c rfl ▸ Opening.second_ne h (by decide)
      rw [operator, if_neg (by simpa using hc)]
      rfl
  cases rest with
  | nil => exact hone
  | cons c more =>
    rw [operator]
    split
    · refine ⟨b, [c], rfl, fun after _ => ?_⟩
      rw [hhead, List.singleton_append, operator, if_pos ‹_›]
      rfl
    · exact hone

theorem blockComment_not_token (text rest : Bytes) (kind : Kind) (literal : Literal) :
    (blockComment text rest).content ≠ .token kind literal := by
  by_cases hclose : [ascii '*', ascii '/'] <:+: rest
  · obtain ⟨w, after, rfl, hw⟩ := exists_first_close hclose
    rw [blockComment_closed hw]
    simp
  · rw [blockComment_open hclose]
    simp

theorem slash_stands {rest : Bytes} {kind : Kind} {literal : Literal}
    (h : (slash rest).content = .token kind literal) : (slash rest).Stands := by
  have hslash (rest : Bytes) : Stands ⟨.token .slash .nil, [ascii '/'], rest, []⟩ := by
    refine ⟨ascii '/', [], rfl, fun after hafter => ?_⟩
    cases after with
    | nil => rfl
    | cons c after =>
      cases hafter c rfl
      rfl
  cases rest with
  | nil => exact hslash []
  | cons c more =>
    rw [slash] at h ⊢
    split at h
    · cases h
    · next hline =>
      rw [if_neg hline]
      split at h
      · exact absurd h (blockComment_not_token _ _ _ _)
      · next hblock =>
        rw [if_neg hblock]
        exact hslash _

theorem string_stands {rest : Bytes} {kind : Kind} {literal : Literal}
    (h : (string .opened rest).content = .token kind literal) : (string .opened rest).Stands := by
  by_cases hw : ∃ w, StringBody w ∧ w ++ [ascii '"'] <+: rest
  · obtain ⟨w, hw, more, rfl⟩ := hw
    obtain ⟨literal, escapes, hs⟩ := string_closed hw .opened
    rw [List.append_assoc, List.singleton_append, hs]
    refine ⟨ascii '"', w ++ [ascii '"'], rfl, fun after _ => ?_⟩
    rw [List.append_assoc, List.singleton_append]
    exact hs after
  · obtain ⟨escapes, hs⟩ := string_open rest (fun w hbody hp => hw ⟨w, hbody, hp⟩) .opened
    rw [hs] at h
    cases h

/-- A numeral before a space is the same numeral. -/
theorem numeral_stands (b : UInt8) (rest : Bytes) : ∃ w, (numeral b rest).1 = b :: w ∧
    ∀ after, Spaced after → numeral b (w ++ after) = (b :: w, after) := by
  have hpoint (tail : Bytes) : ∀ c ∈ (ascii '.' :: tail).head?, isDigit c = false := by
    intro c hc
    cases hc
    decide
  obtain ⟨heq, -⟩ | ⟨d, more, -, hd, heq⟩ := numeral_cases b rest
  · refine ⟨rest.takeWhile isDigit, by rw [heq], fun after hafter => ?_⟩
    have hdigits : ∀ c ∈ rest.takeWhile isDigit, isDigit c = true := fun c => of_mem_takeWhile
    have hstop := hafter.stop (p := isDigit) (by decide)
    have htake := takeWhile_stop hdigits hstop
    have hdrop := dropWhile_stop hdigits hstop
    obtain ⟨hagain, -⟩ | ⟨d, more, hrest, -, -⟩ := numeral_cases b (rest.takeWhile isDigit ++ after)
    · rw [hagain, htake, hdrop]
    · rw [hdrop] at hrest
      exact absurd (hafter (ascii '.') (by rw [hrest]; rfl)) (by decide)
  · refine ⟨_, by rw [heq], fun after hafter => ?_⟩
    have hwhole : ∀ c ∈ rest.takeWhile isDigit, isDigit c = true := fun c => of_mem_takeWhile
    have hfraction : ∀ c ∈ more.takeWhile isDigit, isDigit c = true := fun c => of_mem_takeWhile
    have hstop := hafter.stop (p := isDigit) (by decide)
    rw [List.append_assoc, List.cons_append, List.cons_append]
    obtain ⟨-, hno⟩ | ⟨d', more', hrest, -, hagain⟩ := numeral_cases b
      (rest.takeWhile isDigit ++ ascii '.' :: d :: (more.takeWhile isDigit ++ after))
    · have hd' := hno _ _ (dropWhile_stop hwhole (hpoint _))
      rw [hd] at hd'
      cases hd'
    · rw [dropWhile_stop hwhole (hpoint _)] at hrest
      cases hrest
      rw [hagain, takeWhile_stop hwhole (hpoint _), takeWhile_stop hfraction hstop,
        dropWhile_stop hfraction hstop]

/-- What a numeral is. -/
def Content.ofNumeral (text : Bytes) : Content :=
  match Decimal.read? text with
  | some x => .token .number (.number x)
  | none => .fault .numberOutOfRange

theorem number_eq {b : UInt8} {rest text after : Bytes} (h : numeral b rest = (text, after)) :
    number b rest = ⟨.ofNumeral text, text, after, []⟩ := by
  unfold number Content.ofNumeral
  rw [h]
  cases hx : Decimal.read? text <;> simp only [hx]

theorem number_stands {b : UInt8} (rest : Bytes) (hb : isDigit b = true) :
    (number b rest).Stands := by
  obtain ⟨w, htext, hw⟩ := numeral_stands b rest
  have hnumber : number b rest = ⟨.ofNumeral (b :: w), b :: w, (numeral b rest).2, []⟩ :=
    number_eq (by rw [← htext])
  rw [hnumber]
  refine ⟨b, w, rfl, fun after hafter => ?_⟩
  rw [head_eq, Opening.ofByte_digit hb]
  exact number_eq (hw after hafter)

theorem word_stands {b : UInt8} (rest : Bytes) (hb : isLetter b = true) :
    (word b rest).Stands := by
  have hword : ∀ c ∈ rest.takeWhile isWordByte, isWordByte c = true := fun c => of_mem_takeWhile
  refine ⟨b, rest.takeWhile isWordByte, rfl, fun after hafter => ?_⟩
  have hstop := hafter.stop (p := isWordByte) (by decide)
  rw [head_eq, Opening.ofByte_letter hb]
  simp only [word, run, takeWhile_stop hword hstop, dropWhile_stop hword hstop]
  rfl

/-- Every token stands. -/
theorem head_stands {b : UInt8} {rest : Bytes} {kind : Kind} {literal : Literal}
    (h : (head b rest).content = .token kind literal) : (head b rest).Stands := by
  have hfits := Opening.ofByte_fits b
  rw [head_eq] at h ⊢
  cases ho : Opening.ofByte b with
  | space =>
    rw [ho] at h
    cases h
  | single k =>
    refine ⟨b, [], rfl, fun after _ => ?_⟩
    rw [head_eq, ho]
    rfl
  | double second two one => exact operator_stands ho rest
  | slash =>
    rw [ho] at h
    exact slash_stands h
  | quote =>
    rw [ho] at h
    exact string_stands h
  | digit =>
    rw [ho] at hfits
    exact number_stands rest hfits
  | letter =>
    rw [ho] at hfits
    exact word_stands rest hfits
  | other =>
    rw [ho] at h
    cases h

end Piece

/-- The token without its place. -/
def Token.bare (t : Token) : Kind × Bytes × Literal := (t.kind, t.lexeme, t.literal)

namespace Scan

/-- The token of a piece without its place. -/
def bare? (p : Piece) : Option (Kind × Bytes × Literal) :=
  match p.content with
  | .token kind literal => some (kind, p.text, literal)
  | .skipped | .fault _ => none

theorem bare_segments (start : Position) (ps : List Piece) :
    ((Segment.ofPieces start ps).filterMap Segment.token?).map Token.bare =
      ps.filterMap bare? := by
  induction ps generalizing start with
  | nil => rfl
  | cons p ps ih =>
    have hfirst : (Segment.token? ⟨start, p.content, p.text⟩).map Token.bare = bare? p := by
      unfold Segment.token? bare?
      cases p.content <;> rfl
    rw [Segment.ofPieces, List.filterMap_cons, List.filterMap_cons, ← hfirst,
      ← ih (start.advance p.text)]
    cases Segment.token? ⟨start, p.content, p.text⟩ <;> rfl

theorem bare_tokens (source : Bytes) : (ofSource source).tokens.map Token.bare =
    (pieces source.length source).filterMap bare? ++ [(.endOfInput, [], .nil)] := by
  rw [tokens_eq, List.map_append, segments, bare_segments]
  rfl

/-- The tokens but for the end of the input. -/
theorem filter_tokens (source : Bytes) : (ofSource source).tokens.filter (·.kind ≠ .endOfInput) =
    (segments source).filterMap Segment.token? := by
  have hkept : ((segments source).filterMap Segment.token?).filter (·.kind ≠ .endOfInput) =
      (segments source).filterMap Segment.token? :=
    List.filter_eq_self.2 fun t ht => decide_eq_true (segments_not_end source t ht)
  rw [tokens_eq, List.filter_append, hkept]
  simp

theorem unknownEscape_of_faultsOf {start : Position} {ps : List Piece}
    (h : ∀ p ∈ ps, ∀ error, p.content ≠ .fault error) :
    ∀ f ∈ faultsOf start ps, f.error = .unknownEscape := by
  induction ps generalizing start with
  | nil => exact List.forall_mem_nil _
  | cons p ps ih =>
    obtain ⟨hp, hps⟩ := List.forall_mem_cons.1 h
    rw [faultsOf, Piece.faults]
    refine List.forall_mem_append.2 ⟨List.forall_mem_append.2 ⟨?_, ?_⟩, ih hps⟩
    · exact List.forall_mem_map.2 fun _ _ => rfl
    · split
      next error herror => exact absurd herror (hp error)
      next => exact List.forall_mem_nil _

/-- The texts with a space between them. -/
def spaced (texts : List Bytes) : Bytes := [ascii ' '].intercalate texts

/-- A piece that stands is the first one, and there is nothing but a space before the next. -/
theorem pieces_spaced {p : Piece} (hp : p.Stands) (texts : List Bytes) :
    ∃ after between, (∀ q ∈ between, q.content = .skipped) ∧
      pieces (spaced (p.text :: texts)).length (spaced (p.text :: texts)) =
        p.followedBy after :: (between ++ pieces (spaced texts).length (spaced texts)) := by
  obtain ⟨b, w, htext, hw⟩ := hp
  have hfirst {after : Bytes} (hafter : Piece.Spaced after) :
      pieces (p.text ++ after).length (p.text ++ after) =
        p.followedBy after :: pieces after.length after := by
    rw [htext, List.cons_append, pieces_cons, hw after hafter]
    rfl
  cases texts with
  | nil =>
    have hlast : spaced [p.text] = p.text ++ [] := by simp [spaced, List.intercalate]
    refine ⟨[], [], List.forall_mem_nil _, ?_⟩
    rw [hlast, hfirst (by simp [Piece.Spaced])]
    rfl
  | cons text texts =>
    have hnext : spaced (p.text :: text :: texts) =
        p.text ++ ascii ' ' :: spaced (text :: texts) := by
      simp [spaced, List.intercalate]
    refine ⟨ascii ' ' :: spaced (text :: texts),
      [⟨.skipped, [ascii ' '], spaced (text :: texts), []⟩], by simp, ?_⟩
    rw [hnext, hfirst (by simp [Piece.Spaced]), pieces_cons]
    rfl

/-- The tokens among pieces are found again where only their texts stand, and there is no piece then
that is a fault. -/
theorem pieces_again {ps : List Piece} (h : ∀ p ∈ ps, (bare? p).isSome = true → p.Stands) :
    let again := spaced ((ps.filterMap bare?).map (·.2.1))
    (pieces again.length again).filterMap bare? = ps.filterMap bare? ∧
      ∀ q ∈ pieces again.length again, ∀ error, q.content ≠ .fault error := by
  induction ps with
  | nil => exact ⟨rfl, List.forall_mem_nil _⟩
  | cons p ps ih =>
    obtain ⟨hp, hps⟩ := List.forall_mem_cons.1 h
    obtain ⟨hbare, hfault⟩ := ih hps
    rw [List.filterMap_cons]
    cases hcontent : p.content with
    | token kind literal =>
      have hthis : bare? p = some (kind, p.text, literal) := by rw [bare?, hcontent]
      obtain ⟨after, between, hbetween, hpieces⟩ :=
        pieces_spaced (hp (by rw [hthis]; rfl)) ((ps.filterMap bare?).map (·.2.1))
      have hfollowed : bare? (p.followedBy after) = some (kind, p.text, literal) := hthis
      have hnone : between.filterMap bare? = [] := by
        refine List.filterMap_eq_nil_iff.2 fun q hq => ?_
        rw [bare?, hbetween q hq]
      simp only [hthis, List.map_cons]
      rw [hpieces, List.filterMap_cons, hfollowed, List.filterMap_append, hnone, hbare]
      refine ⟨rfl, List.forall_mem_cons.2 ⟨?_, List.forall_mem_append.2 ⟨?_, hfault⟩⟩⟩
      · intro error herror
        rw [Piece.followedBy, hcontent] at herror
        cases herror
      · intro q hq error herror
        rw [hbetween q hq] at herror
        cases herror
    | skipped | fault error =>
      have hthis : bare? p = none := by rw [bare?, hcontent]
      simp only [hthis]
      exact ⟨hbare, hfault⟩

theorem pieces_stand (fuel : Nat) (source : Bytes) :
    ∀ p ∈ pieces fuel source, (bare? p).isSome = true → p.Stands := by
  induction fuel generalizing source with
  | zero => cases source <;> exact List.forall_mem_nil _
  | succ fuel ih =>
    cases source with
    | nil => exact List.forall_mem_nil _
    | cons b rest =>
      refine List.forall_mem_cons.2 ⟨fun hbare => ?_, ih _⟩
      unfold bare? at hbare
      split at hbare
      next kind literal hcontent => exact Piece.head_stands hcontent
      next => cases hbare
      next => cases hbare

/-- Scanning the lexemes of a source again, with a single space between them, gives the same kinds,
lexemes and literals in the same order, and no faults but for the unknown escape sequences of its
strings; whatever the source is, and whether it has faults or not. -/
theorem lexemes_scanned_again (source : Bytes) :
    let tokens := (ofSource source).tokens.filter (·.kind ≠ .endOfInput)
    let again := ofSource ([ascii ' '].intercalate (tokens.map Token.lexeme))
    again.tokens.map Token.bare = tokens.map Token.bare ++ [(.endOfInput, [], .nil)] ∧
      ∀ f ∈ again.faults, f.code = "E1002" := by
  intro tokens again
  have htokens : tokens = (segments source).filterMap Segment.token? := filter_tokens source
  have hbares : tokens.map Token.bare = (pieces source.length source).filterMap bare? := by
    rw [htokens, segments, bare_segments]
  have hlexemes : tokens.map Token.lexeme = (tokens.map Token.bare).map (·.2.1) := by
    rw [List.map_map]
    rfl
  obtain ⟨hbare, hfault⟩ := pieces_again (pieces_stand source.length source)
  have hagain : again =
      ofSource (spaced (((pieces source.length source).filterMap bare?).map (·.2.1))) := by
    rw [spaced, ← hbares, ← hlexemes]
  rw [hagain, bare_tokens, hbare, hbares, ofSource_eq]
  refine ⟨rfl, fun f hf => ?_⟩
  rw [LexicalFault.code, unknownEscape_of_faultsOf hfault f hf]

end Scan
end Lox
