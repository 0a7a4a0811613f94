import Lox.Diagnostic.Render
import Lox.Proofs.Text.Utf8

/-! Plain text: printable ASCII characters, tabs and line ends. Shown with its tabs expanded, each
of its bytes is one cell of a terminal. -/
namespace Lox

namespace Bytes

/-! Lines. -/

/-- What stands behind the last line end. -/
def lastLine (text : Bytes) : Bytes := (text.reverse.takeWhile (· != newline)).reverse

theorem mem_firstLine {text : Bytes} {b : UInt8} (h : b ∈ firstLine text) :
    b ∈ text ∧ b ≠ newline :=
  ⟨List.takeWhile_subset _ h, bne_iff_ne.1 (List.all_eq_true.1 List.all_takeWhile b h)⟩

theorem mem_lastLine {text : Bytes} {b : UInt8} (h : b ∈ lastLine text) :
    b ∈ text ∧ b ≠ newline := by
  have hrev := List.mem_reverse.1 h
  exact ⟨List.mem_reverse.1 (List.takeWhile_subset _ hrev),
    bne_iff_ne.1 (List.all_eq_true.1 List.all_takeWhile b hrev)⟩

theorem firstLine_append {u : Bytes} (h : newline ∉ u) (v : Bytes) :
    firstLine (u ++ v) = u ++ firstLine v := by
  refine List.takeWhile_append_of_pos fun b hb => ?_
  refine bne_iff_ne.2 ?_
  rintro rfl
  exact h hb

theorem firstLine_line (u v : Bytes) : firstLine (u ++ newline :: v) = firstLine u := by
  induction u with
  | nil => rfl
  | cons b u ih => rw [firstLine, firstLine, List.cons_append, List.takeWhile_cons,
      List.takeWhile_cons, ← firstLine, ← firstLine, ih]

theorem firstLine_mono {u v : Bytes} (h : u <+: v) : firstLine u <+: firstLine v := by
  obtain ⟨w, rfl⟩ := h
  by_cases hu : newline ∈ u
  · obtain ⟨x, y, rfl⟩ := List.append_of_mem hu
    refine ⟨[], ?_⟩
    rw [List.append_nil, List.append_assoc, List.cons_append, firstLine_line, firstLine_line]
  · rw [firstLine_append hu]
    exact (List.takeWhile_prefix _).trans (List.prefix_append u _)

/-- A text is its last line, or its last line behind a line end. -/
theorem lastLine_cases (v : Bytes) :
    (lastLine v = v ∧ newline ∉ v) ∨ ∃ u, v = u ++ newline :: lastLine v := by
  have hwhole := List.takeWhile_append_dropWhile (p := (· != newline)) (l := v.reverse)
  cases hrest : v.reverse.dropWhile (· != newline) with
  | nil =>
    left
    rw [hrest, List.append_nil] at hwhole
    have hlast : lastLine v = v := by rw [lastLine, hwhole, List.reverse_reverse]
    refine ⟨hlast, fun h => ?_⟩
    rw [← hlast] at h
    exact (mem_lastLine h).2 rfl
  | cons b rest =>
    right
    have hb : b = newline := by
      have hhead := List.head?_dropWhile_not (· != newline) v.reverse
      rw [hrest] at hhead
      simpa using hhead
    refine ⟨rest.reverse, ?_⟩
    rw [hrest, hb] at hwhole
    calc v
      _ = v.reverse.reverse := (List.reverse_reverse v).symm
      _ = (v.reverse.takeWhile (· != newline) ++ newline :: rest).reverse := by rw [hwhole]
      _ = rest.reverse ++ newline :: lastLine v := by simp [lastLine]

theorem lines_line (u v : Bytes) : lines (u ++ newline :: v) = lines u ++ lines v :=
  List.splitOn_append_cons_self u v

theorem length_lines (text : Bytes) : (lines text).length = text.count newline + 1 := by
  induction text with
  | nil => rfl
  | cons b text ih =>
    rw [lines, List.splitOn_cons_eq_if_modifyHead, ← lines, List.count_cons]
    split <;> simp [ih]

theorem head_lines (text : Bytes) : (lines text)[0]? = some (firstLine text) := by
  induction text with
  | nil => rfl
  | cons b text ih =>
    rw [lines, List.splitOn_cons_eq_if_modifyHead, ← lines, firstLine, List.takeWhile_cons,
      ← firstLine]
    by_cases hb : b = newline
    · simp [hb]
    · rw [if_neg (by simpa using hb), if_pos (by simpa using hb)]
      cases hlines : lines text with
      | nil =>
        rw [hlines] at ih
        cases ih
      | cons line more =>
        rw [hlines] at ih
        cases ih
        rfl

/-- The line that goes on where `v` ends and `w` starts. -/
theorem line_between (v w : Bytes) :
    (lines (v ++ w))[v.count newline]? = some (lastLine v ++ firstLine w) := by
  obtain ⟨hlast, hnone⟩ | ⟨u, hu⟩ := lastLine_cases v
  · rw [List.count_eq_zero_of_not_mem hnone, head_lines, firstLine_append hnone, hlast]
  · have hline : newline ∉ lastLine v := fun h => (mem_lastLine h).2 rfl
    have hcount : v.count newline = (lines u).length := by
      rw [hu, length_lines, List.count_append, List.count_cons_self,
        List.count_eq_zero_of_not_mem hline]
    have htext : v ++ w = u ++ newline :: (lastLine v ++ w) := by
      conv => lhs; rw [hu]
      rw [List.append_assoc, List.cons_append]
    rw [htext, lines_line, hcount, List.getElem?_append_right (Nat.le_refl _), Nat.sub_self,
      head_lines, firstLine_append hline]

theorem trimEnd_eq {p : UInt8 → Bool} {text : Bytes} (h : ∀ b ∈ text, p b = false) :
    trimEnd p text = text := by
  have hnone : text.reverse.dropWhile p = text.reverse := by
    cases hrev : text.reverse with
    | nil => rfl
    | cons b more =>
      have hb : b ∈ text := List.mem_reverse.1 (hrev ▸ List.mem_cons_self)
      rw [List.dropWhile_cons_of_neg (by rw [h b hb]; exact Bool.false_ne_true)]
  rw [trimEnd, hnone, List.reverse_reverse]

end Bytes

namespace Text

/-- A printable ASCII character. -/
def isPrintableByte (b : UInt8) : Bool := ascii ' ' ≤ b && b ≤ ascii '~'

/-- A printable ASCII character, a tab or a line end. -/
def isPlainByte (b : UInt8) : Bool := isPrintableByte b || b == ascii '\t' || b == newline

theorem isPrintableByte_iff {b : UInt8} :
    isPrintableByte b = true ↔ 32 ≤ b.toNat ∧ b.toNat ≤ 126 := Utf8.between_iff

theorem ascii_of_isPlainByte {b : UInt8} (h : isPlainByte b = true) : b.toNat < 128 := by
  have all : ∀ n : Fin 256, isPlainByte (.ofFin n) = true → n.val < 128 := by decide +kernel
  exact all b.toFin h

theorem decode_of_ascii {text : Bytes} (h : ∀ b ∈ text, b.toNat < 128) :
    Utf8.decode text = text.map fun b => .char (Char.ofNat b.toNat) := by
  induction text with
  | nil => rfl
  | cons b text ih =>
    obtain ⟨hb, htext⟩ := List.forall_mem_cons.1 h
    rw [Utf8.decode_cons, Utf8.head_ascii hb, List.map_cons, ← ih htext]
    rfl

theorem valid_of_ascii {text : Bytes} (h : ∀ b ∈ text, b.toNat < 128) : Utf8.Valid text := by
  refine ⟨text.map fun b => Char.ofNat b.toNat, ?_⟩
  induction text with
  | nil => rfl
  | cons b text ih =>
    obtain ⟨hb, htext⟩ := List.forall_mem_cons.1 h
    rw [List.map_cons, Utf8.ofChars_cons, Utf8.encode_charOfByte hb, ← ih htext]
    rfl

/-! Cells. -/

theorem ofChar_printable {c : Char} (h : 32 ≤ c.toNat ∧ c.toNat ≤ 126) :
    Grapheme.ofChar c = .other := by
  unfold Grapheme.ofChar
  have h13 : ¬ c.toNat = 13 := by omega
  have h10 : ¬ c.toNat = 10 := by omega
  have h32 : ¬ c.toNat < 32 := by omega
  have h127 : ¬ 127 ≤ c.toNat := by omega
  have h160 : c.toNat < 160 := by omega
  simp [h13, h10, h32, h127, h160]

theorem charWidth_printable {c : Char} (h : 32 ≤ c.toNat ∧ c.toNat ≤ 126) :
    charWidth .other c = 1 :=
  if_pos (Nat.lt_of_le_of_lt h.2 (by decide))

/-- Each printable character behind another one is a cell of its own. -/
theorem widthFrom_printable {cs : List Char} (h : ∀ c ∈ cs, 32 ≤ c.toNat ∧ c.toNat ≤ 126)
    (done : Nat) (k : Cluster) (hk : k.trail.last = .other) :
    widthFrom done (some k) cs = done + k.cells + cs.length := by
  induction cs generalizing done k with
  | nil => rfl
  | cons c cs ih =>
    obtain ⟨hc, hcs⟩ := List.forall_mem_cons.1 h
    have hjoins : k.trail.joins .other = false := by
      unfold Grapheme.Trail.joins
      rw [hk]
    rw [widthFrom, ofChar_printable hc, hjoins, if_neg Bool.false_ne_true, ih hcs _ _ rfl,
      Cluster.start, charWidth_printable hc, List.length_cons]
    dsimp only
    omega

theorem displayWidth_printable {text : Bytes} (h : ∀ b ∈ text, isPrintableByte b = true) :
    displayWidth text = text.length := by
  have hascii : ∀ b ∈ text, b.toNat < 128 := fun b hb => by
    have := isPrintableByte_iff.1 (h b hb)
    omega
  have hchars : Utf8.chars text = text.map fun b => Char.ofNat b.toNat := by
    rw [Utf8.chars, decode_of_ascii hascii, List.map_map]
    rfl
  have hprintable : ∀ c ∈ Utf8.chars text, 32 ≤ c.toNat ∧ c.toNat ≤ 126 := by
    rw [hchars]
    intro c hc
    obtain ⟨b, hb, rfl⟩ := List.mem_map.1 hc
    rw [Utf8.toNat_charOfByte]
    exact isPrintableByte_iff.1 (h b hb)
  have hlength : (Utf8.chars text).length = text.length := by rw [hchars, List.length_map]
  rw [displayWidth, ← hlength]
  cases hcs : Utf8.chars text with
  | nil => rfl
  | cons c cs =>
    rw [hcs] at hprintable
    obtain ⟨hc, hcs⟩ := List.forall_mem_cons.1 hprintable
    rw [widthFrom, ofChar_printable hc, widthFrom_printable hcs _ _ rfl, Cluster.start,
      charWidth_printable hc, List.length_cons]
    dsimp only
    omega

/-- A plain line with more than spaces and tabs is not blank. -/
theorem not_isBlank {line : Bytes} (h : ∀ b ∈ line, isPlainByte b = true ∧ b ≠ newline) {b : UInt8}
    (hb : b ∈ line) (hspace : b ≠ ascii ' ') (htab : b ≠ ascii '\t') : isBlank line = false := by
  have all : ∀ n : Fin 256, isPlainByte (.ofFin n) = true → UInt8.ofFin n ≠ newline →
      UInt8.ofFin n ≠ ascii ' ' → UInt8.ofFin n ≠ ascii '\t' →
      isBlankChar (Char.ofNat n.val) = false := by decide +kernel
  have hblank := all b.toFin (h b hb).1 (h b hb).2 hspace htab
  rw [isBlank, decode_of_ascii fun b hb => ascii_of_isPlainByte (h b hb).1]
  refine List.all_eq_false.2 ⟨_, List.mem_map_of_mem hb, ?_⟩
  exact Bool.eq_false_iff.1 hblank

end Text

namespace Diagnostic
open Text

theorem expandTabs_append (u v : Bytes) : expandTabs (u ++ v) = expandTabs u ++ expandTabs v :=
  List.flatMap_append

theorem mem_expandTabs {text : Bytes} {b : UInt8} (hb : b ∈ text) (htab : b ≠ ascii '\t') :
    b ∈ expandTabs text := by
  refine List.mem_flatMap.2 ⟨b, hb, ?_⟩
  rw [if_neg (by simpa using htab)]
  exact List.mem_singleton_self b

/-- A plain line is shown as printable characters, each in a cell. -/
theorem shownWidth_plain {line : Bytes} (h : ∀ b ∈ line, isPlainByte b = true ∧ b ≠ newline) :
    shownWidth line = (expandTabs line).length := by
  refine displayWidth_printable fun c hc => ?_
  obtain ⟨b, hb, hc⟩ := List.mem_flatMap.1 hc
  obtain ⟨hplain, hline⟩ := h b hb
  split at hc
  · rw [(List.mem_replicate.1 hc).2]
    decide
  · next htab =>
    rw [List.mem_singleton.1 hc]
    rw [isPlainByte, Bool.eq_false_iff.2 htab, beq_eq_false_iff_ne.2 hline, Bool.or_false,
      Bool.or_false] at hplain
    exact hplain

end Diagnostic
end Lox
