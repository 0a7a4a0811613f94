import Lox.Proofs.Text.Utf8
import Lox.Proofs.Token.Lossless

/-! What the faults of a source quote. A source in UTF-8 is cut into pieces between its characters,
so a fault at the head of a piece quotes what stands there. The byte after the backslash of an
unknown escape sequence is shown as the character with its number, which is another one than that of
the source where the byte is only a part of a character. -/
namespace Lox

open Utf8 (Valid)

/-! Where pieces end. -/

theorem Piece.ascii_of_isWordByte {b : UInt8} (h : isWordByte b = true) : b.toNat < 128 := by
  have all : ∀ n : Fin 256, isWordByte (.ofFin n) = true → n.val < 128 := by decide +kernel
  exact all b.toFin h

theorem Piece.ascii_of_isDigit {b : UInt8} (h : isDigit b = true) : b.toNat < 128 :=
  ascii_of_isWordByte (by rw [isWordByte, h, Bool.or_true])

theorem Numeral.ascii {w : Bytes} (h : Numeral w) : ∀ b ∈ w, b.toNat < 128 := by
  cases h with
  | whole h => exact fun b hb => Piece.ascii_of_isDigit (h.2 b hb)
  | fraction hv hw =>
    refine List.forall_mem_append.2 ⟨fun b hb => Piece.ascii_of_isDigit (hv.2 b hb), ?_⟩
    exact List.forall_mem_cons.2 ⟨by decide, fun b hb => Piece.ascii_of_isDigit (hw.2 b hb)⟩

theorem Kind.ascii_name : ∀ k ∈ operators ++ reserved,
    ((utf8 k.name).all fun b => decide (b.toNat < 128)) = true := by decide

/-- The last byte of a token is an ASCII byte. -/
theorem Lexeme.ends {kind : Kind} {w : Bytes} (h : Lexeme kind w) :
    ∃ u b, w = u ++ [b] ∧ b.toNat < 128 := by
  have hlast {w : Bytes} (hne : w ≠ []) (hw : ∀ b ∈ w, b.toNat < 128) :
      ∃ u b, w = u ++ [b] ∧ b.toNat < 128 :=
    ⟨w.dropLast, w.getLast hne, (List.dropLast_concat_getLast hne).symm,
      hw _ (List.getLast_mem hne)⟩
  have hname {k : Kind} (hk : k ∈ Kind.operators ++ Kind.reserved) (hne : utf8 k.name ≠ []) :
      ∃ u b, utf8 k.name = u ++ [b] ∧ b.toNat < 128 :=
    hlast hne fun b hb => of_decide_eq_true (List.all_eq_true.1 (Kind.ascii_name k hk) b hb)
  have hne := h.ne_nil
  cases h with
  | operator h => exact hname (List.mem_append_left _ h) hne
  | keyword h => exact hname (List.mem_append_right _ h) hne
  | identifier h =>
    cases h with
    | @mk b w hb hw =>
      have hletter : Piece.isWordByte b = true := by rw [Piece.isWordByte, hb, Bool.true_or]
      exact hlast hne (List.forall_mem_cons.2 ⟨Piece.ascii_of_isWordByte hletter,
        fun c hc => Piece.ascii_of_isWordByte (hw c hc)⟩)
  | number h => exact hlast hne h.ascii
  | @string body h => exact ⟨ascii '"' :: body, ascii '"', rfl, by decide⟩

namespace Piece

section
variable {b : UInt8} {rest : Bytes}

/-- What follows a text that ends in an ASCII byte is whole characters. -/
theorem valid_after {u after : Bytes} {a : UInt8} (h : Valid (u ++ [a] ++ after))
    (ha : a.toNat < 128) : Valid after := by
  rw [List.append_assoc] at h
  exact (h.split ha).2.2

theorem ascii_of_isSpace {b : UInt8} (h : isSpace b = true) : b.toNat < 128 := by
  have all : ∀ n : Fin 256, isSpace (.ofFin n) = true → n.val < 128 := by decide +kernel
  exact all b.toFin h

theorem valid_after_blank {text after : Bytes} (h : Blank text after)
    (hvalid : Valid (text ++ after)) : Valid after := by
  cases h with
  | @space b _ hb => exact valid_after (u := []) hvalid (ascii_of_isSpace hb)
  | line _ hend =>
    obtain rfl | ⟨more, rfl⟩ := hend
    · exact ⟨[], rfl⟩
    · exact (hvalid.split (by decide)).2.1
  | @block body _ _ =>
    refine valid_after (u := ascii '/' :: ascii '*' :: (body ++ [ascii '*'])) (a := ascii '/') ?_
      (by decide)
    simpa using hvalid

/-- A character that starts nothing is taken as a whole. -/
theorem unexpected_eq {c : Char} {tail more : Bytes} (hc : String.utf8EncodeChar c = b :: tail) :
    unexpected b (tail ++ more) =
      ⟨.fault .unexpectedCharacter, String.utf8EncodeChar c, more, []⟩ := by
  obtain ⟨b', tail', hencode, hhead⟩ := Utf8.exists_encode c
  cases hencode.symm.trans hc
  rw [unexpected, hhead]
  simp [hc]

theorem valid_cons (h : Valid (b :: rest)) : ∃ c tail more,
    String.utf8EncodeChar c = b :: tail ∧ rest = tail ++ more ∧ Valid more := by
  obtain ⟨cs, hcs⟩ := h
  cases cs with
  | nil => cases hcs
  | cons c cs =>
    obtain ⟨b', tail, hencode, -⟩ := Utf8.exists_encode c
    rw [Utf8.ofChars_cons, hencode] at hcs
    cases hcs
    exact ⟨c, tail, _, hencode, rfl, cs, rfl⟩

/-- A byte that starts no token, and neither white space nor a string, starts nothing. -/
theorem ofByte_other {text after : Bytes} (h : Faulty .unexpectedCharacter (b :: text) after) :
    Opening.ofByte b = .other := by
  cases h with
  | character _ hs hq h =>
    have hnone (kind : Kind) (hkind : Starts b kind []) : False :=
      h kind [b] (lexeme_iff_starts.2 hkind) (List.prefix_append [b] _)
    have hfits := Opening.ofByte_fits b
    cases ho : Opening.ofByte b with
    | other => rfl
    | space =>
      rw [ho] at hfits
      exact absurd hfits (by rw [Opening.fits, hs]; exact Bool.false_ne_true)
    | quote =>
      rw [ho] at hfits
      exact absurd (beq_iff_eq.1 hfits) hq
    | single k => exact (hnone k (by rw [Starts, ho]; exact ⟨rfl, rfl⟩)).elim
    | double second two one => exact (hnone one (by rw [Starts, ho]; exact .inl ⟨rfl, rfl⟩)).elim
    | slash => exact (hnone .slash (by rw [Starts, ho]; exact ⟨rfl, rfl⟩)).elim
    | digit =>
      rw [ho] at hfits
      have hdigit : Numeral [b] := .whole ⟨List.cons_ne_nil _ _, List.forall_mem_singleton.2 hfits⟩
      exact (hnone .number (by rw [Starts, ho]; exact ⟨rfl, hdigit⟩)).elim
    | letter =>
      exact (hnone _ (by rw [Starts, ho]; exact ⟨rfl, List.forall_mem_nil _⟩)).elim

/-- A source of whole characters is cut between characters. -/
theorem valid_rest (h : Valid (b :: rest)) : Valid (head b rest).rest := by
  by_cases ho : Opening.ofByte b = .other
  · obtain ⟨c, tail, more, hc, rfl, hmore⟩ := valid_cons h
    rw [head_eq, ho]
    dsimp only
    rw [unexpected_eq hc]
    exact hmore
  obtain ⟨hwhole, -, hcorrect⟩ := head_heads b rest
  rw [← hwhole] at h
  generalize head b rest = p at h hwhole hcorrect ⊢
  obtain ⟨content, text, after, escapes⟩ := p
  have hlexeme {kind : Kind} (hlongest : Longest kind text after) : Valid after := by
    obtain ⟨u, a, rfl, ha⟩ := hlongest.lexeme.ends
    exact valid_after h ha
  cases content with
  | token kind literal => exact hlexeme hcorrect
  | skipped => exact valid_after_blank hcorrect h
  | fault error =>
    cases hcorrect with
    | string | comment => exact ⟨[], rfl⟩
    | number hlongest _ => exact hlexeme hlongest
    | character hlen hs hq hnone =>
      obtain ⟨rfl, -⟩ := List.cons.inj hwhole
      exact absurd (ofByte_other (.character hlen hs hq hnone)) ho

end

/-! Unknown escape sequences. -/

theorem reverse_prefix_cons (text : Bytes) (b : UInt8) : text.reverse <+: (b :: text).reverse := by
  rw [List.reverse_cons]
  exact List.prefix_append _ _

theorem string_text (s : OpenString) (rest : Bytes) : s.text.reverse <+: (string s rest).text := by
  have htwo (text : Bytes) (e b : UInt8) : text.reverse <+: (e :: b :: text).reverse :=
    (reverse_prefix_cons text b).trans (reverse_prefix_cons _ e)
  fun_induction string s rest
  case case1 => exact List.prefix_rfl
  case case2 | case3 => exact reverse_prefix_cons _ _
  case case4 ih | case5 ih => exact (htwo _ _ _).trans ih
  case case6 ih => exact (reverse_prefix_cons _ _).trans ih

/-- Each unknown escape sequence that is found stands in the string. -/
theorem string_escapes (s : OpenString) (rest : Bytes) : ∀ x ∈ (string s rest).escapes,
    x ∈ s.escapes ∨ [ascii '\\', x.2] <+: (string s rest).text.drop x.1 := by
  fun_induction string s rest
  case case1 | case2 | case3 => exact fun x hx => .inl (List.mem_reverse.1 hx)
  case case4 ih | case6 ih => exact ih
  case case5 s b hq hb e rest he ih =>
    intro x hx
    refine (ih x hx).elim (fun hx => ?_) .inr
    obtain rfl | hx := List.mem_cons.1 hx
    · right
      obtain ⟨more, hmore⟩ := string_text
        ⟨e :: b :: s.text, e :: s.value, (s.text.length, e) :: s.escapes⟩ rest
      rw [← hmore, beq_iff_eq.1 hb]
      simp
    · exact .inl hx

theorem blockComment_escapes (text rest : Bytes) : (blockComment text rest).escapes = [] := by
  fun_induction blockComment text rest
  case case4 ih | case5 ih => exact ih
  all_goals rfl

theorem operator_escapes (b second : UInt8) (two one : Kind) (rest : Bytes) :
    (operator b second two one rest).escapes = [] := by
  unfold operator
  split
  · rfl
  · split <;> rfl

theorem slash_escapes (rest : Bytes) : (slash rest).escapes = [] := by
  unfold slash
  split
  · rfl
  · split
    · rfl
    · split
      · exact blockComment_escapes _ _
      · rfl

theorem number_escapes (b : UInt8) (rest : Bytes) : (number b rest).escapes = [] := by
  unfold number
  dsimp only
  split <;> rfl

/-- Each unknown escape sequence of a piece stands in it. -/
theorem head_escapes (b : UInt8) (rest : Bytes) : ∀ x ∈ (head b rest).escapes,
    [ascii '\\', x.2] <+: (head b rest).text.drop x.1 := by
  have hnone {p : Piece} (h : p.escapes = []) :
      ∀ x ∈ p.escapes, [ascii '\\', x.2] <+: p.text.drop x.1 := by
    rw [h]
    exact List.forall_mem_nil _
  rw [head_eq]
  cases Opening.ofByte b with
  | quote => exact fun x hx => (string_escapes .opened rest x hx).elim (fun h => by cases h) id
  | space | single k | letter | other => exact hnone rfl
  | double second two one => exact hnone (operator_escapes b second two one rest)
  | slash => exact hnone (slash_escapes rest)
  | digit => exact hnone (number_escapes b rest)

end Piece

/-! What faults quote. -/

/-- What a fault shows where `rest` follows: the text there, or the backslash of an unknown escape
sequence and the character that has the byte after it as its number. -/
inductive LexicalFault.Reports (f : LexicalFault) (rest : Bytes) : Prop where
  | quote {b : UInt8} {more : Bytes} (herror : f.error ≠ .unknownEscape)
      (hlexeme : f.lexeme = b :: more) (hstart : Piece.isSpace b = false) (h : f.lexeme <+: rest)
  | escape {e : UInt8} {more : Bytes} (herror : f.error = .unknownEscape)
      (hrest : rest = ascii '\\' :: e :: more)
      (h : f.lexeme = ascii '\\' :: String.utf8EncodeChar (Char.ofNat e.toNat))

namespace Piece
variable {b : UInt8} {rest : Bytes}

theorem chars_encode (c : Char) : Utf8.chars (String.utf8EncodeChar c) = [c] := by
  have hdecode := Utf8.decode_encode c []
  rw [List.append_nil] at hdecode
  rw [Utf8.chars, hdecode]
  rfl

theorem not_space {error : LexicalError} (h : (head b rest).content = .fault error) :
    isSpace b = false := by
  refine Bool.eq_false_iff.2 fun hs => ?_
  rw [head_eq, show Opening.ofByte b = .space from if_pos hs] at h
  cases h

/-- What is reported for a faulty piece is the text at its head. -/
theorem reported_leads (h : Valid (b :: rest)) {error : LexicalError}
    (herror : (head b rest).content = .fault error) :
    error ≠ .unknownEscape ∧ reported error (head b rest).text ≠ [] ∧
      reported error (head b rest).text <+: b :: rest := by
  obtain ⟨hwhole, hproper, hcorrect⟩ := head_heads b rest
  have hleads : (head b rest).text <+: b :: rest := ⟨_, hwhole⟩
  rw [herror] at hcorrect
  generalize htext : (head b rest).text = text, (head b rest).rest = after
    at hwhole hproper hcorrect hleads
  cases hcorrect with
  | @string text _ =>
    refine ⟨by decide, ?_, (List.takeWhile_prefix _).trans hleads⟩
    rw [reported, Bytes.firstLine, List.takeWhile_cons_of_pos (by decide)]
    exact List.cons_ne_nil _ _
  | @comment text _ =>
    refine ⟨by decide, (by decide : utf8 "/*" ≠ []), List.IsPrefix.trans ?_ hleads⟩
    exact List.prefix_append (utf8 "/*") text
  | number _ _ => exact ⟨by decide, hproper, hleads⟩
  | @character b' text _ hlen hs hq hnone =>
    obtain ⟨rfl, -⟩ := List.cons.inj hwhole
    have ho := ofByte_other (.character hlen hs hq hnone)
    obtain ⟨c, tail, more, hc, rfl, -⟩ := valid_cons h
    rw [head_eq, ho] at htext
    dsimp only at htext
    rw [unexpected_eq hc] at htext
    have hreported : reported .unexpectedCharacter (b' :: text) = b' :: text := by
      rw [← htext, reported, chars_encode]
      exact List.append_nil _
    rw [hreported]
    exact ⟨by decide, hproper, hleads⟩

/-- The faults of a piece at the head of a source report what stands at their places. -/
theorem faults_report (h : Valid (b :: rest)) (start : Position) {f : LexicalFault}
    (hf : f ∈ (head b rest).faults start) :
    ∃ v w, b :: rest = v ++ w ∧ f.position = start.advance v ∧ Valid w ∧ f.Reports w := by
  rw [faults, List.mem_append] at hf
  obtain hf | hf := hf
  · obtain ⟨x, hx, rfl⟩ := List.mem_map.1 hf
    obtain ⟨more, hmore⟩ := head_escapes b rest x hx
    have hsource : b :: rest = (head b rest).text.take x.1 ++
        ascii '\\' :: x.2 :: (more ++ (head b rest).rest) := by
      calc b :: rest
        _ = (head b rest).text ++ (head b rest).rest := (head_heads b rest).whole.symm
        _ = (head b rest).text.take x.1 ++ ([ascii '\\', x.2] ++ more) ++ (head b rest).rest := by
          rw [hmore, List.take_append_drop]
        _ = _ := by simp
    refine ⟨_, _, hsource, rfl, ?_, .escape rfl rfl rfl⟩
    rw [hsource] at h
    exact (h.split (by decide)).2.1
  · cases hcontent : (head b rest).content with
    | fault error =>
      rw [hcontent] at hf
      cases List.mem_singleton.1 hf
      obtain ⟨herror, hne, hleads⟩ := reported_leads h hcontent
      obtain hnil | ⟨more, hmore, -⟩ := List.prefix_cons_iff.1 hleads
      · exact absurd hnil hne
      · exact ⟨[], b :: rest, rfl, rfl, h, .quote herror hmore (not_space hcontent) hleads⟩
    | token kind literal | skipped =>
      rw [hcontent] at hf
      cases hf

end Piece

namespace Scan

theorem faultsOf_report (fuel : Nat) {source : Bytes} (h : Valid source) (before : Bytes)
    {f : LexicalFault} (hf : f ∈ faultsOf (.after before) (pieces fuel source)) :
    ∃ v w, before ++ source = v ++ w ∧ f.position = .after v ∧ Valid w ∧ f.Reports w := by
  induction fuel generalizing source before with
  | zero => cases source <;> cases hf
  | succ fuel ih =>
    cases source with
    | nil => cases hf
    | cons b rest =>
      rw [pieces, faultsOf, List.mem_append, Position.after_advance] at hf
      obtain hf | hf := hf
      · obtain ⟨v, w, hsource, hposition, hw⟩ := Piece.faults_report h _ hf
        refine ⟨before ++ v, w, by rw [hsource, List.append_assoc], ?_, hw⟩
        rw [hposition, Position.after_advance]
      · obtain ⟨v, w, hsource, hw⟩ := ih (Piece.valid_rest h) _ hf
        refine ⟨v, w, ?_, hw⟩
        rw [← hsource, List.append_assoc, (Piece.head_heads b rest).whole]

/-- Every fault of a source in UTF-8 reports what stands at its place. -/
theorem faults_report {source : Bytes} (h : Valid source) {f : LexicalFault}
    (hf : f ∈ (ofSource source).faults) :
    ∃ v w, source = v ++ w ∧ f.position = .after v ∧ Valid w ∧ f.Reports w := by
  rw [ofSource_eq, Position.start_eq] at hf
  exact faultsOf_report _ h [] hf

/-- Every fault of a source in UTF-8 quotes the source from its place on, but for an unknown escape
sequence of a character beyond ASCII: there a character is shown that has the number of the first of
its bytes, which happens to be right for one character only. -/
theorem faults_quote_source_but_for_escapes (source : String) :
    ∀ f ∈ (ofSource (utf8 source)).faults, f.lexeme ≠ [] ∧
      (f.lexeme <+: (utf8 source).drop f.position.offset ↔
        ¬ (f.code = "E1002" ∧ ∃ c more, 128 ≤ c.toNat ∧ c ≠ 'Ã' ∧
          (utf8 source).drop f.position.offset =
            ascii '\\' :: (String.utf8EncodeChar c ++ more))) := by
  intro f hf
  obtain ⟨v, w, hsource, hposition, hvalid, hreports⟩ := faults_report (Utf8.valid_utf8 source) hf
  have hrest : (utf8 source).drop f.position.offset = w := by
    rw [hposition, hsource]
    exact List.drop_left
  rw [hrest]
  cases hreports with
  | quote herror hlexeme _ hleads =>
    have hcode : f.code ≠ "E1002" := by
      unfold LexicalFault.code
      cases herror' : f.error with
      | unknownEscape => exact absurd herror' herror
      | _ => decide
    refine ⟨?_, fun _ h => hcode h.1, fun _ => hleads⟩
    rw [hlexeme]
    exact List.cons_ne_nil _ _
  | @escape e more herror hw hlexeme =>
    subst hw
    obtain ⟨c, tail, more, hc, rfl, -⟩ :=
      Piece.valid_cons (Valid.split (u := []) (by decide) hvalid).2.2
    have hcode : f.code = "E1002" := by rw [LexicalFault.code, herror]
    have htext : e :: (tail ++ more) = String.utf8EncodeChar c ++ more := by rw [hc]; rfl
    have hshown : f.lexeme <+: ascii '\\' :: e :: (tail ++ more) ↔ Char.ofNat e.toNat = c := by
      rw [hlexeme, htext, List.cons_prefix_cons, and_iff_right rfl]
      refine ⟨Utf8.encode_head_unique, fun h => ?_⟩
      rw [h]
      exact List.prefix_append _ _
    rw [hshown, Utf8.ofNat_first_byte hc]
    refine ⟨by rw [hlexeme]; exact List.cons_ne_nil _ _, ?_, fun h => ?_⟩
    · rintro hright ⟨-, c', more', hbeyond, hne, htext'⟩
      rw [htext] at htext'
      have hleads : String.utf8EncodeChar c' <+: String.utf8EncodeChar c ++ more :=
        ⟨more', (List.cons.inj htext').2.symm⟩
      cases Utf8.encode_head_unique hleads
      exact hright.elim (Nat.not_lt_of_le hbeyond) hne
    · refine Decidable.byContradiction fun hwrong => ?_
      obtain ⟨hbeyond, hne⟩ := not_or.1 hwrong
      exact h ⟨hcode, c, more, Nat.le_of_not_lt hbeyond, hne, by rw [htext]⟩

theorem faults_quote_source_but_for_escapes_mixed :
    let source := "é\"\\é\\q"
    let f : LexicalFault := ⟨.unknownEscape, ⟨6, 1, 7⟩, utf8 "\\q"⟩
    (ofSource (utf8 source)).faults.map (·.lexeme) =
        [utf8 "é", utf8 "\\Ã", utf8 "\\q", utf8 "\"\\é\\q"] ∧
      f ∈ (ofSource (utf8 source)).faults ∧ f.lexeme ≠ [] ∧
      (f.lexeme <+: (utf8 source).drop f.position.offset ↔
        ¬ (f.code = "E1002" ∧ ∃ c more, 128 ≤ c.toNat ∧ c ≠ 'Ã' ∧
          (utf8 source).drop f.position.offset =
            ascii '\\' :: (String.utf8EncodeChar c ++ more))) :=
  ⟨by decide +kernel, by decide +kernel,
    faults_quote_source_but_for_escapes _ _ (by decide +kernel)⟩

/-- The escape sequence of one character is shown as that of another one. -/
theorem escape_shown_as_other_character :
    let source := utf8 "\"\\é\""
    (ofSource source).faults = [⟨.unknownEscape, ⟨1, 1, 2⟩, utf8 "\\Ã"⟩] ∧
      ¬ utf8 "\\Ã" <+: source.drop 1 ∧ utf8 "\\é" <+: source.drop 1 := by
  decide +kernel

end Scan
end Lox
