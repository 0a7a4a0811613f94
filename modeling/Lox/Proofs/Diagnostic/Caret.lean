import Lox.Proofs.Syntax.Agreement
import Lox.Proofs.Text.Plain
import Lox.Proofs.Token.Quotation

/-! Where the caret run stands. A fault is placed by the bytes before it; in a plain source the
bytes of its line are shown as cells one by one, so the carets are as far to the right as the text
that they point at. -/
namespace Lox

open Text (isPlainByte)

/-! The tokens that faults are at. -/

/-- Tokens of a list, each like itself. -/
def Likeness.within (ts : List Token) : Likeness where
  like t u := t = u ∧ t ∈ ts
  kind h := congrArg Token.kind h.1

namespace Likeness
variable {ts : List Token}

theorem within_all (ts : List Token) : List.Forall₂ (within ts).like ts ts :=
  List.forall₂_same.2 fun _ ht => ⟨rfl, ht⟩

theorem token_within {fs gs : List SyntaxFault}
    (h : List.Forall₂ (SyntaxFault.Like (within ts)) fs gs) : ∀ f ∈ fs, f.token ∈ ts := by
  induction h with
  | nil => exact List.forall_mem_nil _
  | cons hf _ ih => exact List.forall_mem_cons.2 ⟨hf.token.2, ih⟩

end Likeness

open Likeness in
/-- The faults of a program are at its tokens. -/
theorem Program.fault_token {ts : List Token} (hend : ∃ t ∈ ts, t.kind = .endOfInput) {p : Program}
    (h : parse? ts = some p) : ∀ f ∈ p.faults, f.token ∈ ts := by
  have hlike := parse?_like (within_all ts) hend
  rw [h] at hlike
  cases hlike with
  | some hp => exact token_within hp.2

open Likeness in
theorem LoneExpression.fault_token {ts : List Token} (hend : ∃ t ∈ ts, t.kind = .endOfInput) :
    ∀ f ∈ (parse ts).faults, f.token ∈ ts :=
  token_within (parse_like (within_all ts) hend).2

namespace Scan

theorem exists_end (source : Bytes) : ∃ t ∈ (ofSource source).tokens, t.kind = .endOfInput := by
  rw [tokens_eq]
  exact ⟨_, List.mem_append_right _ List.mem_cons_self, rfl⟩

theorem token_end {source : Bytes} {t : Token} (h : t ∈ (ofSource source).tokens)
    (hk : t.kind = .endOfInput) : t.position = .after source := by
  rw [tokens_eq, List.mem_append, List.mem_singleton] at h
  obtain ht | rfl := h
  · exact absurd hk (segments_not_end source t ht)
  · rfl

/-- A token other than the end of the input starts with a byte that is no white space. -/
theorem token_starts {source : Bytes} {t : Token} (h : t ∈ (ofSource source).tokens)
    (hk : t.kind ≠ .endOfInput) : ∃ b more, t.lexeme = b :: more ∧ Piece.isSpace b = false := by
  have hlexeme := token_lexeme h hk
  cases htext : t.lexeme with
  | nil => exact absurd htext hlexeme.ne_nil
  | cons b more =>
    refine ⟨b, more, rfl, Bool.eq_false_iff.2 fun hspace => ?_⟩
    rw [htext, lexeme_iff_starts, Starts, show Opening.ofByte b = .space from if_pos hspace]
      at hlexeme
    exact hlexeme

end Scan

namespace Diagnostic

/-- The faults of a source, scanned and then parsed as a program or as an expression. -/
inductive ReportedFor (source : Bytes) : Diagnostic → Prop where
  | scan {f : LexicalFault} (h : f ∈ (Scan.ofSource source).faults) :
      ReportedFor source f.diagnostic
  | program {p : Program} {f : SyntaxFault}
      (hparse : Program.parse? (Scan.ofSource source).tokens = some p) (h : f ∈ p.faults) :
      ReportedFor source f.diagnostic
  | expression {f : SyntaxFault}
      (h : f ∈ (LoneExpression.parse (Scan.ofSource source).tokens).faults) :
      ReportedFor source f.diagnostic

/-- The fault is at the place behind `before`. -/
structure Behind (before : Bytes) (d : Diagnostic) : Prop where
  line : d.line = (Position.after before).line
  column : d.column = (Position.after before).column
  hint : d.hint = []

/-- A fault is at a text of the source, or at its end. -/
inductive Marks (source : Bytes) (d : Diagnostic) : Prop where
  | text {v w more : Bytes} {b : UInt8} (hsource : source = v ++ w) (hplace : d.Behind v)
      (hend : d.atEnd = false) (hlexeme : d.lexeme = b :: more) (hstart : Piece.isSpace b = false)
      (hleads : d.lexeme <+: w)
  | ending (hplace : d.Behind source) (hend : d.atEnd = true)

section
variable {source : Bytes}

theorem marks_token {f : SyntaxFault} (h : f.token ∈ (Scan.ofSource source).tokens) :
    f.diagnostic.Marks source := by
  have hplace {v : Bytes} (hposition : f.token.position = .after v) : f.diagnostic.Behind v :=
    ⟨congrArg (fun p => (p.line : Int)) hposition,
      congrArg (fun p => (p.column : Int)) hposition, rfl⟩
  by_cases hk : f.token.kind = .endOfInput
  · exact .ending (hplace (Scan.token_end h hk)) (decide_eq_true hk)
  · obtain ⟨v, w, hsource, hposition⟩ := Scan.token_placed h
    obtain ⟨b, more, hlexeme, hstart⟩ := Scan.token_starts h hk
    exact .text hsource (hplace hposition) (decide_eq_false hk) hlexeme hstart
      (List.prefix_append _ w)

theorem marks_fault (hplain : ∀ b ∈ source, isPlainByte b = true) {f : LexicalFault}
    (h : f ∈ (Scan.ofSource source).faults) : f.diagnostic.Marks source := by
  have hascii : ∀ b ∈ source, b.toNat < 128 := fun b hb => Text.ascii_of_isPlainByte (hplain b hb)
  obtain ⟨v, w, hsource, hposition, -, hreports⟩ :=
    Scan.faults_report (Text.valid_of_ascii hascii) h
  have hplace : f.diagnostic.Behind v :=
    ⟨congrArg (fun p => (p.line : Int)) hposition,
      congrArg (fun p => (p.column : Int)) hposition, rfl⟩
  cases hreports with
  | quote _ hlexeme hstart hleads => exact .text hsource hplace rfl hlexeme hstart hleads
  | @escape e more _ hrest hlexeme =>
    have he : e.toNat < 128 := hascii e (by simp [hsource, hrest])
    rw [Utf8.encode_charOfByte he] at hlexeme
    refine .text hsource hplace rfl hlexeme (by decide) ⟨more, ?_⟩
    rw [hrest]
    exact congrArg (· ++ more) hlexeme

theorem ReportedFor.marks (hplain : ∀ b ∈ source, isPlainByte b = true) {d : Diagnostic}
    (h : d.ReportedFor source) : d.Marks source := by
  cases h with
  | scan h => exact marks_fault hplain h
  | program hparse h => exact marks_token (Program.fault_token (Scan.exists_end source) hparse _ h)
  | expression h => exact marks_token (LoneExpression.fault_token (Scan.exists_end source) _ h)

end

/-- The fault with a source line, and `count` carets below it behind `indent` blanks. -/
def withCarets (d : Diagnostic) (line : Bytes) (indent count : Nat) : Bytes :=
  let gutter := Bytes.ofInt d.line
  d.text ++ [newline] ++
    (gutter ++ utf8 " | " ++ expandTabs line ++ [newline]) ++
    (Bytes.spaces gutter.length ++ utf8 " | " ++ Bytes.spaces indent ++
      List.replicate count (ascii '^') ++ [newline])

section
variable {d : Diagnostic} {v w : Bytes}

theorem Behind.line_pos (h : d.Behind v) : 1 ≤ d.line ∧ (d.line - 1).toNat = v.count newline := by
  have hline := h.line
  simp only [Position.after] at hline
  omega

theorem Behind.column_eq (h : d.Behind v) : (d.column - 1).toNat = (Bytes.lastLine v).length := by
  have hcolumn := h.column
  simp only [Position.after] at hcolumn
  rw [Bytes.lastLine, List.length_reverse]
  omega

/-- The line of a fault, which is shown unless it is blank. -/
theorem Behind.source_line (h : d.Behind v) :
    (Bytes.lines (v ++ w))[(d.line - 1).toNat]? = some (Bytes.lastLine v ++ Bytes.firstLine w) := by
  rw [h.line_pos.2, Bytes.line_between]

theorem plain_line (hplain : ∀ b ∈ v ++ w, isPlainByte b = true) :
    ∀ b ∈ Bytes.lastLine v ++ Bytes.firstLine w, isPlainByte b = true ∧ b ≠ newline := by
  intro b hb
  obtain hb | hb := List.mem_append.1 hb
  · obtain ⟨hmem, hline⟩ := Bytes.mem_lastLine hb
    exact ⟨hplain b (List.mem_append_left w hmem), hline⟩
  · obtain ⟨hmem, hline⟩ := Bytes.mem_firstLine hb
    exact ⟨hplain b (List.mem_append_right v hmem), hline⟩

/-- Without colour, the line of a fault is shown with carets as far to the right as the text before
the fault is wide. -/
theorem Behind.shown (h : d.Behind v) (hplain : ∀ b ∈ v ++ w, isPlainByte b = true)
    (hblank : ∃ b ∈ Bytes.lastLine v ++ Bytes.firstLine w, b ≠ ascii ' ' ∧ b ≠ ascii '\t') :
    d.renderLines false (Bytes.lines (v ++ w)) =
      d.withCarets (Bytes.lastLine v ++ Bytes.firstLine w)
        (expandTabs (Bytes.lastLine v)).length d.caretLength := by
  obtain ⟨b, hb, hspace, htab⟩ := hblank
  have hline := plain_line hplain
  have htrim : Bytes.trimEnd (· == ascii '\r') (Bytes.lastLine v ++ Bytes.firstLine w) =
      Bytes.lastLine v ++ Bytes.firstLine w := by
    refine Bytes.trimEnd_eq fun c hc => beq_eq_false_iff_ne.2 ?_
    rintro rfl
    exact absurd (hline _ hc).1 (by decide)
  have hshown : d.sourceLine? (Bytes.lines (v ++ w)) =
      some (Bytes.lastLine v ++ Bytes.firstLine w) := by
    rw [sourceLine?, if_neg (by have := h.line_pos; omega), h.source_line]
    dsimp only
    rw [htrim, Text.not_isBlank hline hb hspace htab, if_neg Bool.false_ne_true]
  have hindent : d.caretIndent (Bytes.lastLine v ++ Bytes.firstLine w) =
      (expandTabs (Bytes.lastLine v)).length := by
    rw [caretIndent, h.column_eq, List.length_append, Nat.min_eq_left (Nat.le_add_right ..),
      List.take_left]
    exact shownWidth_plain fun c hc => hline c (List.mem_append_left _ hc)
  rw [renderLines, hshown, Option.map_some, Option.getD_some, excerpt, hindent, hintLine, h.hint]
  have hbar : utf8 " | " = utf8 " " ++ utf8 "| " := by decide
  simp [Text.paint, withCarets, hbar]

/-- A caret stands below each cell of the first line of the text. -/
theorem caretLength_text (hend : d.atEnd = false) (hlexeme : d.lexeme ≠ [])
    (hne : expandTabs (Bytes.firstLine d.lexeme) ≠ [])
    (hplain : ∀ b ∈ Bytes.firstLine d.lexeme, isPlainByte b = true ∧ b ≠ newline) :
    d.caretLength = (expandTabs (Bytes.firstLine d.lexeme)).length := by
  have hlength := List.length_pos_iff.2 hne
  rw [caretLength, hend, Bool.false_or, if_neg (by simpa using hlexeme), shownWidth_plain hplain]
  omega

end

theorem not_blank_byte {b : UInt8} (h : Piece.isSpace b = false) :
    b ≠ ascii ' ' ∧ b ≠ ascii '\t' ∧ b ≠ newline := by
  refine ⟨?_, ?_, ?_⟩
  all_goals
    rintro rfl
    exact absurd h (by decide)

/-- For every fault of a plain source, the line of the source that it is on is shown, with tabs
expanded. If the fault is about a text, the carets stand right below the first line of that text; if
it is about the end of the input and the line is not blank, one caret stands behind the line. -/
theorem carets_stand_under_text {source : Bytes} (hplain : ∀ b ∈ source, isPlainByte b = true)
    {d : Diagnostic} (h : d.ReportedFor source) :
    1 ≤ d.line ∧ ∃ line, (Bytes.lines source)[(d.line - 1).toNat]? = some line ∧
      (d.atEnd = false → ∃ indent, let offending := expandTabs (Bytes.firstLine d.lexeme)
        offending ≠ [] ∧ ((expandTabs line).drop indent).take offending.length = offending ∧
        d.renderLines false (Bytes.lines source) = d.withCarets line indent offending.length) ∧
      (d.atEnd = true → (∃ b ∈ line, b ≠ ascii ' ' ∧ b ≠ ascii '\t') →
        d.renderLines false (Bytes.lines source) =
          d.withCarets line (expandTabs line).length 1) := by
  cases h.marks hplain with
  | @text v w more b hsource hplace hend hlexeme hstart hleads =>
    subst hsource
    refine ⟨hplace.line_pos.1, _, hplace.source_line, fun _ => ?_, fun h => ?_⟩
    · obtain ⟨hspace, htab, hline⟩ := not_blank_byte hstart
      obtain ⟨rest, hrest⟩ := Bytes.firstLine_mono hleads
      have hb : b ∈ Bytes.firstLine d.lexeme := by
        rw [hlexeme, Bytes.firstLine, List.takeWhile_cons_of_pos (by simpa using hline)]
        exact List.mem_cons_self
      have hmem {c : UInt8} (hc : c ∈ Bytes.firstLine d.lexeme) :
          c ∈ Bytes.lastLine v ++ Bytes.firstLine w := by
        rw [← hrest]
        exact List.mem_append_right _ (List.mem_append_left rest hc)
      have hne := List.ne_nil_of_mem (mem_expandTabs hb htab)
      have hcount : d.caretLength = (expandTabs (Bytes.firstLine d.lexeme)).length :=
        caretLength_text hend (by rw [hlexeme]; exact List.cons_ne_nil b more) hne
          fun c hc => plain_line hplain c (hmem hc)
      refine ⟨(expandTabs (Bytes.lastLine v)).length, hne, ?_, ?_⟩
      · rw [expandTabs_append, List.drop_left, ← hrest, expandTabs_append, List.take_left]
      · rw [hplace.shown hplain ⟨b, hmem hb, hspace, htab⟩, hcount]
    · rw [hend] at h
      cases h
  | ending hplace hend =>
    have hline : Bytes.lastLine source ++ Bytes.firstLine [] = Bytes.lastLine source :=
      List.append_nil _
    have hcount : d.caretLength = 1 := by rw [caretLength, hend, Bool.true_or, if_pos rfl]
    have hfound := hplace.source_line (w := [])
    have hshown := hplace.shown (w := [])
    rw [List.append_nil, hline] at hfound hshown
    rw [hcount] at hshown
    refine ⟨hplace.line_pos.1, _, hfound, fun h => ?_, fun _ hblank => hshown hplain hblank⟩
    rw [hend] at h
    cases h

/-- A string of two lines, with tabs before it and in it, stands where a semicolon should. -/
theorem carets_stand_under_text_multiline :
    let source := utf8 "\n\t1 \"a\tb\nc\";"
    ∃ (d : Diagnostic) (line : Bytes) (indent : Nat), d.ReportedFor source ∧ d.atEnd = false ∧
      expandTabs (Bytes.firstLine d.lexeme) = utf8 "\"a    b" ∧
      ((expandTabs line).drop indent).take 7 = utf8 "\"a    b" ∧
      d.renderLines false (Bytes.lines source) = d.withCarets line indent 7 := by
  intro source
  have hparse : (Program.parse? (Scan.ofSource source).tokens).map
      (fun p => p.faults.map fun f => (f.diagnostic.atEnd, f.token.lexeme)) =
      some [(false, utf8 "\"a\tb\nc\"")] := by decide +kernel
  obtain ⟨p, hp, hfaults⟩ := Option.map_eq_some_iff.1 hparse
  obtain ⟨f, hf, hends⟩ := List.map_eq_singleton_iff.1 hfaults
  obtain ⟨hend, hlexeme⟩ := Prod.mk.inj hends
  have hreported : ReportedFor source f.diagnostic := .program hp (hf ▸ List.mem_singleton_self f)
  have hoffending : expandTabs (Bytes.firstLine f.diagnostic.lexeme) = utf8 "\"a    b" := by
    rw [show f.diagnostic.lexeme = _ from hlexeme]
    decide +kernel
  obtain ⟨-, line, -, htext, -⟩ := carets_stand_under_text (by decide +kernel) hreported
  obtain ⟨indent, -, habove, hrendered⟩ := htext hend
  rw [hoffending] at habove hrendered
  exact ⟨f.diagnostic, line, indent, hreported, hend, hoffending, habove, hrendered⟩

end Diagnostic
end Lox
