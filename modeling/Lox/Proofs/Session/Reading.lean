import Lox.Proofs.Machine.Likeness
import Lox.Proofs.Syntax.Agreement
import Lox.Proofs.Syntax.Concatenation
import Lox.Proofs.Token.Lines
import Lox.Proofs.Token.Lossless

/-! Sources on consecutive lines are read as they are read alone. -/
namespace Lox

open Likeness (unplaced)

/-- The source has no fault, and these are its statements. -/
structure Reads (source : Bytes) (statements : List Stmt) : Prop where
  scan : (Scan.ofSource source).faults = []
  parse : Program.parse? (Scan.ofSource source).tokens = some ⟨statements, []⟩

namespace Likeness.unplaced

theorem refl (t : Token) : unplaced.like t t := ⟨rfl, rfl, rfl⟩

theorem refl_all (ts : List Token) : List.Forall₂ unplaced.like ts ts :=
  List.forall₂_same.2 fun t _ => refl t

theorem trans {t u v : Token} (h : unplaced.like t u) (h' : unplaced.like u v) :
    unplaced.like t v := ⟨h.1.trans h'.1, h.2.1.trans h'.2.1, h.2.2.trans h'.2.2⟩

theorem trans_all {ts us vs : List Token} (h : List.Forall₂ unplaced.like ts us)
    (h' : List.Forall₂ unplaced.like us vs) : List.Forall₂ unplaced.like ts vs := by
  induction h generalizing vs with
  | nil => exact h'
  | cons ht _ ih =>
    cases h' with
    | cons hu hus => exact .cons (trans ht hu) (ih hus)

end Likeness.unplaced

/-- The tokens of a source but for the end of the input. -/
def Scan.words (source : Bytes) : List Token := (segments source).filterMap Segment.token?

theorem Reads.accepted {source : Bytes} {ss : List Stmt} (h : Reads source ss) :
    Parse.Accepted ss (Scan.words source) := by
  have hparse := h.parse
  rw [Scan.tokens_eq] at hparse
  exact Program.accepted_of_parse? rfl (Scan.segments_not_end source) hparse

theorem Reads.like_self {source : Bytes} {ss : List Stmt} (h : Reads source ss) :
    List.Forall₂ (Stmt.Like unplaced) ss ss := by
  have hend : ∃ t ∈ (Scan.ofSource source).tokens, t.kind = .endOfInput := by
    rw [Scan.tokens_eq]
    exact ⟨_, List.mem_append_right _ List.mem_cons_self, rfl⟩
  have hparse := Program.parse?_like (unplaced.refl_all _) hend
  rw [h.parse] at hparse
  cases hparse with
  | some h => exact h.1

theorem intercalate_cons (u v : Bytes) (us : List Bytes) :
    [newline].intercalate (u :: v :: us) = u ++ newline :: [newline].intercalate (v :: us) := rfl

/-- The tokens of sources on consecutive lines are those of each, but for their places. -/
theorem Scan.tokens_lines {units : List Bytes} (h : ∀ u ∈ units, (ofSource u).faults = []) :
    (ofSource ([newline].intercalate units)).faults = [] ∧
    ∃ stop : Token, stop.kind = .endOfInput ∧
      List.Forall₂ unplaced.like (units.flatMap words ++ [stop])
        (ofSource ([newline].intercalate units)).tokens := by
  induction units with
  | nil => exact ⟨rfl, ⟨.endOfInput, [], .nil, .start⟩, rfl, unplaced.refl_all _⟩
  | cons u us ih =>
    rw [List.forall_mem_cons] at h
    cases us with
    | nil =>
      have hone : [newline].intercalate [u] = u := List.append_nil u
      rw [hone, List.flatMap_cons, List.flatMap_nil, List.append_nil]
      refine ⟨h.1, ⟨.endOfInput, [], .nil, .after u⟩, rfl, ?_⟩
      rw [tokens_eq]
      exact unplaced.refl_all _
    | cons v us =>
      obtain ⟨hfaults, stop, hstop, hlike⟩ := ih h.2
      have hwords : (ofSource u).tokens.dropLast = words u := by
        rw [tokens_eq, List.dropLast_concat]
        rfl
      rw [intercalate_cons, ofSource_lines (by rw [h.1]; nofun), hwords, h.1, hfaults]
      refine ⟨rfl, stop, hstop, ?_⟩
      rw [List.flatMap_cons, List.append_assoc]
      refine List.rel_append (unplaced.refl_all _) (unplaced.trans_all hlike ?_)
      exact List.forall₂_map_right_iff.2 (List.forall₂_same.2 fun t _ => ⟨rfl, rfl, rfl⟩)

/-- Sources on consecutive lines have the statements of each, one after the other. -/
theorem Reads.join {units : List Bytes} {sss : List (List Stmt)} (h : List.Forall₂ Reads units sss) :
    ∃ ss, Reads ([newline].intercalate units) ss ∧
      List.Forall₂ (Stmt.Like unplaced) sss.flatten ss := by
  have hscan : ∀ u ∈ units, (Scan.ofSource u).faults = [] := by
    induction h with
    | nil => exact fun u hu => nomatch hu
    | cons hu _ ih => exact List.forall_mem_cons.2 ⟨hu.scan, ih⟩
  have haccepted : Parse.Accepted sss.flatten (units.flatMap Scan.words) := by
    induction h with
    | nil => exact .nil
    | cons hu _ ih => exact hu.accepted.append (ih fun u hu => hscan u (List.mem_cons_of_mem _ hu))
  obtain ⟨hfaults, stop, hstop, hlike⟩ := Scan.tokens_lines hscan
  have halone : Program.parse? (units.flatMap Scan.words ++ [stop]) = some ⟨sss.flatten, []⟩ :=
    Program.parse?_of_accepted hstop haccepted
  have hparse := Program.parse?_like hlike ⟨stop, List.mem_append_right _ List.mem_cons_self, hstop⟩
  rw [halone] at hparse
  generalize hjoined : Program.parse? _ = joined at hparse
  cases hparse with
  | @some _ program h =>
    obtain ⟨statements, faults⟩ := program
    have hnone : faults = [] := List.forall₂_nil_left_iff.1 h.2
    rw [hnone] at hjoined
    exact ⟨statements, ⟨hfaults, hjoined⟩, h.1⟩

end Lox
