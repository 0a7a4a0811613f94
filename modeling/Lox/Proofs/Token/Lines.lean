import Lox.Proofs.Token.Lossless

/-! Scanning is local to lines: where no string or comment is left open, what stands above a line
does not change its tokens and faults but for their places. -/
namespace Lox

namespace Piece

/-- The piece ends before the source does, unless it is complete. -/
structure Closed (p : Piece) : Prop where
  string : p.content ≠ .fault .unterminatedString
  comment : p.content ≠ .fault .unterminatedComment

/-- The piece where more follows. -/
def before (p : Piece) (more : Bytes) : Piece := { p with rest := p.rest ++ more }

/-! A line end that follows is no part of the piece. -/

theorem takeWhile_line {p : UInt8 → Bool} (h : p newline = false) (l more : Bytes) :
    (l ++ newline :: more).takeWhile p = l.takeWhile p := by
  induction l with
  | nil => rw [List.nil_append, List.takeWhile_cons_of_neg (by simpa using h), List.takeWhile_nil]
  | cons b l ih => rw [List.cons_append, List.takeWhile_cons, List.takeWhile_cons, ih]

theorem dropWhile_line {p : UInt8 → Bool} (h : p newline = false) (l more : Bytes) :
    (l ++ newline :: more).dropWhile p = l.dropWhile p ++ newline :: more := by
  induction l with
  | nil => rw [List.nil_append, List.dropWhile_cons_of_neg (by simpa using h), List.dropWhile_nil,
      List.nil_append]
  | cons b l ih =>
    rw [List.cons_append, List.dropWhile_cons, List.dropWhile_cons, ih]
    split <;> rfl

theorem run_line {p : UInt8 → Bool} (h : p newline = false) (text rest more : Bytes) :
    run p text (rest ++ newline :: more) =
      ((run p text rest).1, (run p text rest).2 ++ newline :: more) := by
  simp only [run, takeWhile_line h, dropWhile_line h]

theorem operator_line {b second : UInt8} {two one : Kind} (h : newline ≠ second)
    (rest more : Bytes) : operator b second two one (rest ++ newline :: more) =
      (operator b second two one rest).before (newline :: more) := by
  cases rest with
  | nil =>
    have hline : operator b second two one (newline :: more) =
        ⟨.token one .nil, [b], newline :: more, []⟩ := by
      rw [operator, if_neg (by simpa using h)]
    exact hline
  | cons c rest =>
    rw [List.cons_append, operator, operator]
    split <;> rfl

theorem string_line {rest : Bytes} (h : (string .opened rest).Closed) (more : Bytes) :
    string .opened (rest ++ newline :: more) =
      (string .opened rest).before (newline :: more) := by
  by_cases hw : ∃ w, StringBody w ∧ w ++ [ascii '"'] <+: rest
  · obtain ⟨w, hw, after, rfl⟩ := hw
    obtain ⟨literal, escapes, hs⟩ := string_closed hw .opened
    have hrest : w ++ [ascii '"'] ++ after = w ++ ascii '"' :: after := by
      rw [List.append_assoc, List.singleton_append]
    rw [hrest, List.append_assoc, List.cons_append, hs, hs]
    rfl
  · obtain ⟨escapes, hs⟩ := string_open rest (fun w hbody hp => hw ⟨w, hbody, hp⟩) .opened
    rw [hs] at h
    exact absurd rfl h.string

theorem blockComment_line {text rest : Bytes} (h : (blockComment text rest).Closed) (more : Bytes) :
    blockComment text (rest ++ newline :: more) =
      (blockComment text rest).before (newline :: more) := by
  by_cases hclose : [ascii '*', ascii '/'] <:+: rest
  · obtain ⟨w, after, rfl, hw⟩ := exists_first_close hclose
    rw [List.append_assoc, List.cons_append, List.cons_append, blockComment_closed hw,
      blockComment_closed hw]
    rfl
  · rw [blockComment_open hclose] at h
    exact absurd rfl h.comment

theorem slash_line {rest : Bytes} (h : (slash rest).Closed) (more : Bytes) :
    slash (rest ++ newline :: more) = (slash rest).before (newline :: more) := by
  cases rest with
  | nil => rfl
  | cons c rest =>
    rw [slash.eq_def] at h
    rw [List.cons_append, slash.eq_def, slash.eq_def]
    dsimp only at h ⊢
    split
    · rw [run_line (by decide)]
      rfl
    · next hs =>
      rw [if_neg hs] at h
      split
      · next hb =>
        rw [if_pos hb] at h
        exact blockComment_line h more
      · rfl

theorem numeral_line (b : UInt8) (rest more : Bytes) : numeral b (rest ++ newline :: more) =
    ((numeral b rest).1, (numeral b rest).2 ++ newline :: more) := by
  unfold numeral
  rw [run_line (by decide)]
  generalize run isDigit [b] rest = whole
  obtain ⟨text, after⟩ := whole
  match after with
  | [] => cases more <;> rfl
  | [p] =>
    have hpoint : (p == ascii '.' && isDigit newline) = false := by
      rw [show isDigit newline = false by decide, Bool.and_false]
    simp [hpoint]
  | p :: d :: after =>
    dsimp only [List.cons_append]
    split
    · exact run_line (by decide) ..
    · rfl

theorem number_line (b : UInt8) (rest more : Bytes) : number b (rest ++ newline :: more) =
    (number b rest).before (newline :: more) := by
  unfold number
  rw [numeral_line]
  dsimp only
  cases Decimal.read? (numeral b rest).1 <;> rfl

theorem word_line (b : UInt8) (rest more : Bytes) : word b (rest ++ newline :: more) =
    (word b rest).before (newline :: more) := by
  unfold word
  rw [run_line (by decide)]
  rfl

/-- A line end belongs to no longer character. -/
theorem utf8Head_line (b : UInt8) (rest more : Bytes) :
    Utf8.head b (rest ++ newline :: more) = Utf8.head b rest := by
  have hlow {lo hi : UInt8} {k : Nat} (h : Utf8.follow b = some (lo, hi, k)) :
      (lo ≤ newline) = False := by
    have all : ∀ n : Fin 256, ∀ x ∈ Utf8.follow (.ofFin n), ¬ x.1 ≤ newline := by decide +kernel
    exact eq_false (all b.toFin _ h)
  have hcontinuation : Utf8.isContinuation newline = false := by decide
  unfold Utf8.head
  split
  · rfl
  cases hfollow : Utf8.follow b with
  | none => rfl
  | some x =>
    obtain ⟨lo, hi, k⟩ := x
    have hlo := hlow hfollow
    match k, rest with
    | 0, [] => simp [hlo]
    | 0, b₁ :: rest => rfl
    | 1, [] => cases more <;> simp [hlo]
    | 1, [b₁] => simp [hcontinuation]
    | 1, b₁ :: b₂ :: rest => rfl
    | 2, [] =>
      match more with
      | [] | [_] => rfl
      | _ :: _ :: _ => simp [hlo]
    | 2, [b₁] => cases more <;> simp [hcontinuation]
    | 2, [b₁, b₂] => simp [hcontinuation]
    | 2, b₁ :: b₂ :: b₃ :: rest => rfl
    | k + 3, rest => rfl

theorem utf8Head_within (b : UInt8) (rest : Bytes) : (Utf8.head b rest).2 ≤ rest.length := by
  unfold Utf8.head
  split
  · exact Nat.zero_le _
  · split
    all_goals first
      | exact Nat.zero_le _
      | split <;> simp

theorem unexpected_line (b : UInt8) (rest more : Bytes) : unexpected b (rest ++ newline :: more) =
    (unexpected b rest).before (newline :: more) := by
  have hwithin := utf8Head_within b rest
  unfold unexpected before
  rw [utf8Head_line]
  dsimp only
  rw [List.take_append_of_le_length hwithin, List.drop_append_of_le_length hwithin]

theorem head_line {b : UInt8} {rest : Bytes} (h : (head b rest).Closed) (more : Bytes) :
    head b (rest ++ newline :: more) = (head b rest).before (newline :: more) := by
  have hsecond {second : UInt8} {two one : Kind} (h : Opening.ofByte b = .double second two one) :
      newline ≠ second := Opening.second_ne h (by decide)
  rw [head_eq] at h
  rw [head_eq, head_eq]
  cases hopening : Opening.ofByte b with
  | space => rfl
  | single kind => rfl
  | double second two one => exact operator_line (hsecond hopening) ..
  | slash =>
    rw [hopening] at h
    exact slash_line h more
  | quote =>
    rw [hopening] at h
    exact string_line h more
  | digit => exact number_line ..
  | letter => exact word_line ..
  | other => exact unexpected_line ..

end Piece

/-- The place `p` of a text, where the text stands below the lines `above`. -/
def Position.below (above : Bytes) (p : Position) : Position where
  offset := p.offset + (above.length + 1)
  line := p.line + (1 + above.count newline)
  column := p.column

namespace Position

theorem below_step (above : Bytes) (p : Position) (b : UInt8) :
    (p.below above).step b = (p.step b).below above := by
  unfold step below
  split <;> simp <;> omega

theorem below_advance (above text : Bytes) (p : Position) :
    (p.below above).advance text = (p.advance text).below above := by
  induction text generalizing p with
  | nil => rfl
  | cons b text ih =>
    have hcons (q : Position) : q.advance (b :: text) = (q.step b).advance text := rfl
    rw [hcons, hcons, below_step, ih]

theorem start_below (above : Bytes) : start.advance (above ++ [newline]) = start.below above := by
  rw [start_eq, after_advance, List.nil_append, after, below]
  simp [after]
  omega

end Position

def Token.below (above : Bytes) (t : Token) : Token := { t with position := t.position.below above }

def LexicalFault.below (above : Bytes) (f : LexicalFault) : LexicalFault :=
  { f with position := f.position.below above }

namespace Scan

theorem pieces_line {fuel : Nat} {u : Bytes} (more : Bytes) (hfuel : u.length ≤ fuel)
    (h : ∀ p ∈ pieces fuel u, p.Closed) :
    pieces (u ++ newline :: more).length (u ++ newline :: more) =
      (pieces fuel u).map (·.before (newline :: more)) ++
        ⟨.skipped, [newline], more, []⟩ :: pieces more.length more := by
  have hline : pieces (newline :: more).length (newline :: more) =
      ⟨.skipped, [newline], more, []⟩ :: pieces more.length more := rfl
  induction fuel generalizing u with
  | zero =>
    rw [List.length_eq_zero_iff.1 (Nat.le_zero.1 hfuel)]
    exact hline
  | succ fuel ih =>
    cases u with
    | nil => exact hline
    | cons b rest =>
      rw [pieces, List.forall_mem_cons] at h
      have hlen := rest_length_lt b rest
      simp only [List.length_cons] at hfuel hlen
      have hrest := ih (by omega) h.2
      rw [List.cons_append, List.length_cons, pieces, pieces, Piece.head_line h.1, List.map_cons,
        List.cons_append, ← hrest]
      congr 1
      apply pieces_fuel
      · simp only [Piece.before, List.length_append]
        omega
      · exact Nat.le_refl _

theorem tokensOf_ne_nil (start : Position) (ps : List Piece) : tokensOf start ps ≠ [] := by
  induction ps generalizing start with
  | nil => nofun
  | cons p ps ih => exact List.append_ne_nil_of_right_ne_nil _ (ih _)

/-- Pieces give the same tokens whatever follows them. -/
theorem tokensOf_append (start : Position) (more : Bytes) (ps qs : List Piece) :
    tokensOf start (ps.map (·.before more) ++ qs) =
      (tokensOf start ps).dropLast ++ tokensOf (start.advance (ps.flatMap Piece.text)) qs := by
  induction ps generalizing start with
  | nil => rfl
  | cons p ps ih =>
    have hpiece : tokensOf start ((p :: ps).map (·.before more) ++ qs) =
        (p.token? start).toList ++
          tokensOf (start.advance p.text) (ps.map (·.before more) ++ qs) := rfl
    rw [hpiece, ih, tokensOf, List.dropLast_append_of_ne_nil (tokensOf_ne_nil _ _), List.flatMap_cons,
      Position.advance_append, List.append_assoc]

theorem faultsOf_append (start : Position) (more : Bytes) (ps qs : List Piece) :
    faultsOf start (ps.map (·.before more) ++ qs) =
      faultsOf start ps ++ faultsOf (start.advance (ps.flatMap Piece.text)) qs := by
  induction ps generalizing start with
  | nil => rfl
  | cons p ps ih =>
    rw [List.map_cons, List.cons_append, faultsOf, faultsOf, ih, List.flatMap_cons,
      Position.advance_append, List.append_assoc]
    rfl

theorem tokensOf_below (above : Bytes) (start : Position) (ps : List Piece) :
    tokensOf (start.below above) ps = (tokensOf start ps).map (Token.below above) := by
  induction ps generalizing start with
  | nil => rfl
  | cons p ps ih =>
    have htoken : p.token? (start.below above) = (p.token? start).map (Token.below above) := by
      unfold Piece.token?
      cases p.content <;> rfl
    rw [tokensOf, tokensOf, Position.below_advance, ih, List.map_append, htoken]
    cases p.token? start <;> rfl

theorem faultsOf_below (above : Bytes) (start : Position) (ps : List Piece) :
    faultsOf (start.below above) ps = (faultsOf start ps).map (LexicalFault.below above) := by
  induction ps generalizing start with
  | nil => rfl
  | cons p ps ih =>
    have hfaults : p.faults (start.below above) =
        (p.faults start).map (LexicalFault.below above) := by
      unfold Piece.faults
      rw [List.map_append, List.map_map]
      congr 1
      · refine List.map_congr_left fun escape _ => ?_
        simp only [Piece.escapeFault, Function.comp, Position.below_advance, LexicalFault.below]
      · cases p.content <;> rfl
    rw [faultsOf, faultsOf, Position.below_advance, ih, List.map_append, hfaults]

/-- Pieces without an open string or comment are told by the faults. -/
theorem closed_of_faultsOf {start : Position} {ps : List Piece} (h : ∀ f ∈ faultsOf start ps,
      f.error ≠ .unterminatedString ∧ f.error ≠ .unterminatedComment) : ∀ p ∈ ps, p.Closed := by
  induction ps generalizing start with
  | nil => exact fun p hp => nomatch hp
  | cons p ps ih =>
    rw [faultsOf, List.forall_mem_append, Piece.faults, List.forall_mem_append] at h
    have herror (error : LexicalError) (hcontent : p.content = .fault error) :
        error ≠ .unterminatedString ∧ error ≠ .unterminatedComment := by
      have hfault := h.1.2
      rw [hcontent] at hfault
      exact hfault _ List.mem_cons_self
    refine List.forall_mem_cons.2 ⟨⟨fun hs => ?_, fun hc => ?_⟩, ih h.2⟩
    · exact (herror _ hs).1 rfl
    · exact (herror _ hc).2 rfl

/-- A source whose strings and comments are closed, with more lines below it, is scanned as both are
alone, but for the places in the lines below. -/
theorem ofSource_lines {above : Bytes} (h : ∀ f ∈ (ofSource above).faults,
      f.error ≠ .unterminatedString ∧ f.error ≠ .unterminatedComment) (source : Bytes) :
    ofSource (above ++ newline :: source) =
      ⟨(ofSource above).tokens.dropLast ++ (ofSource source).tokens.map (Token.below above),
        (ofSource above).faults ++ (ofSource source).faults.map (LexicalFault.below above)⟩ := by
  rw [ofSource_eq above] at h
  have hcuts := Cuts.of_pieces above.length above (Nat.le_refl _)
  have hpieces := pieces_line source (Nat.le_refl _) (closed_of_faultsOf h)
  have hplace : (Position.start.advance above).advance [newline] = Position.start.below above := by
    rw [← Position.advance_append, Position.start_below]
  have hskip : tokensOf (Position.start.advance above)
        (⟨.skipped, [newline], source, []⟩ :: pieces source.length source) =
      tokensOf (Position.start.below above) (pieces source.length source) := by
    rw [← hplace]
    rfl
  have hskip' : faultsOf (Position.start.advance above)
        (⟨.skipped, [newline], source, []⟩ :: pieces source.length source) =
      faultsOf (Position.start.below above) (pieces source.length source) := by
    rw [← hplace]
    rfl
  rw [ofSource_eq, ofSource_eq above, ofSource_eq source, hpieces, tokensOf_append,
    faultsOf_append, hcuts.flatMap_text, hskip, hskip', tokensOf_below, faultsOf_below]

/-- Where the last string and the last comment of the lines above are closed, lines are scanned apart:
the tokens and the faults are those of the lines above, and then those of the lines below, further on
in the text. Only the end of the lines above is no token any more. -/
theorem lines_scanned_apart {above : Bytes}
    (h : ∀ f ∈ (ofSource above).faults, f.code ≠ "E1001" ∧ f.code ≠ "E1004") (source : Bytes) :
    ∃ tokens, (ofSource above).tokens = tokens ++ [⟨.endOfInput, [], .nil, .after above⟩] ∧
      (∀ t ∈ tokens, t.kind ≠ .endOfInput) ∧
      ofSource (above ++ newline :: source) =
        ⟨tokens ++ (ofSource source).tokens.map (Token.below above),
          (ofSource above).faults ++ (ofSource source).faults.map (LexicalFault.below above)⟩ := by
  have hclosed : ∀ f ∈ (ofSource above).faults,
      f.error ≠ .unterminatedString ∧ f.error ≠ .unterminatedComment := by
    intro f hf
    obtain ⟨hstring, hcomment⟩ := h f hf
    constructor
    · intro he
      exact hstring (by rw [LexicalFault.code, he])
    · intro he
      exact hcomment (by rw [LexicalFault.code, he])
  refine ⟨_, tokens_eq above, segments_not_end above, ?_⟩
  rw [ofSource_lines hclosed, tokens_eq above, List.dropLast_concat]

/-- A character that is no token and half of an operator, above the other half and an open string. -/
theorem lines_scanned_apart_operator :
    ofSource (utf8 "@!\n= \"") =
      ⟨[⟨.bang, utf8 "!", .nil, ⟨1, 1, 2⟩⟩, ⟨.equal, utf8 "=", .nil, ⟨3, 2, 1⟩⟩,
          ⟨.endOfInput, [], .nil, ⟨6, 2, 4⟩⟩],
        [⟨.unexpectedCharacter, ⟨0, 1, 1⟩, utf8 "@"⟩, ⟨.unterminatedString, ⟨5, 2, 3⟩, utf8 "\""⟩]⟩ := by
  have habove : ofSource (utf8 "@!") =
      ⟨[⟨.bang, utf8 "!", .nil, ⟨1, 1, 2⟩⟩] ++ [⟨.endOfInput, [], .nil, ⟨2, 1, 3⟩⟩],
        [⟨.unexpectedCharacter, ⟨0, 1, 1⟩, utf8 "@"⟩]⟩ := by decide +kernel
  have hsource : ofSource (utf8 "= \"") =
      ⟨[⟨.equal, utf8 "=", .nil, ⟨0, 1, 1⟩⟩, ⟨.endOfInput, [], .nil, ⟨3, 1, 4⟩⟩],
        [⟨.unterminatedString, ⟨2, 1, 3⟩, utf8 "\""⟩]⟩ := by decide +kernel
  have hcodes : ∀ f ∈ (ofSource (utf8 "@!")).faults, f.code ≠ "E1001" ∧ f.code ≠ "E1004" := by
    rw [habove]
    decide
  obtain ⟨tokens, htokens, -, hscan⟩ := lines_scanned_apart hcodes (utf8 "= \"")
  rw [habove] at htokens
  obtain ⟨rfl, -⟩ := List.append_inj' htokens rfl
  rw [habove, hsource] at hscan
  exact hscan

end Scan
end Lox
