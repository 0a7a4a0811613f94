import Lox.Proofs.Syntax.Masking
import Lox.Proofs.Text.OneLine
import Lox.Syntax.Outline

/-! The lines of an outline. They can be told from its text, since no label holds a line end or
starts with a blank; and the lines of a node can be told from those that follow it by their
depths. -/
namespace Lox

/-- Two texts that go on up to the first byte that does not satisfy `p`. -/
theorem append_inj_of_stop {p : UInt8 → Bool} {u u' x x' : Bytes} (hu : ∀ c ∈ u, p c = true)
    (hu' : ∀ c ∈ u', p c = true) (hx : ∀ c ∈ x.head?, p c = false)
    (hx' : ∀ c ∈ x'.head?, p c = false) (h : u ++ x = u' ++ x') : u = u' ∧ x = x' := by
  have htake := congrArg (List.takeWhile p) h
  have hdrop := congrArg (List.dropWhile p) h
  rw [Piece.takeWhile_stop hu hx, Piece.takeWhile_stop hu' hx'] at htake
  rw [Piece.dropWhile_stop hu hx, Piece.dropWhile_stop hu' hx'] at hdrop
  exact ⟨htake, hdrop⟩

theorem utf8_inj {s t : String} (h : utf8 s = utf8 t) : s = t := by
  have hdata : s.toByteArray.data = t.toByteArray.data := Array.toList_inj.1 h
  exact String.toByteArray_inj.1 (ByteArray.ext hdata)

namespace OutlineLine

/-- The label starts with a bracket and has no line end. -/
structure Proper (l : OutlineLine) : Prop where
  bracket : l.label.head? = some (ascii '[')
  oneLine : newline ∉ l.label

/-- The first line of a text can be told. -/
theorem Proper.text_inj {l l' : OutlineLine} (h : l.Proper) (h' : l'.Proper) {x x' : Bytes}
    (heq : l.text ++ x = l'.text ++ x') : l = l' ∧ x = x' := by
  have hline {l : OutlineLine} (h : l.Proper) :
      ∀ c ∈ Bytes.spaces (2 * l.depth) ++ l.label, (c != newline) = true := by
    intro c hc
    obtain hc | hc := List.mem_append.1 hc
    · rw [(List.mem_replicate.1 hc).2]
      decide
    · refine bne_iff_ne.2 ?_
      rintro rfl
      exact h.oneLine hc
  have hblank {n : Nat} : ∀ c ∈ Bytes.spaces n, (c == ascii ' ') = true := fun c hc =>
    beq_iff_eq.2 (List.mem_replicate.1 hc).2
  have hbracket {l : OutlineLine} (h : l.Proper) :
      ∀ c ∈ l.label.head?, (c == ascii ' ') = false := by
    rw [h.bracket]
    rintro c ⟨⟩
    decide
  have hstop {x : Bytes} : ∀ c ∈ (newline :: x).head?, (c != newline) = false := by
    rintro c ⟨⟩
    decide
  have hcut : (Bytes.spaces (2 * l.depth) ++ l.label) ++ newline :: x =
      (Bytes.spaces (2 * l'.depth) ++ l'.label) ++ newline :: x' := by
    simpa [OutlineLine.text] using heq
  obtain ⟨hlines, hrest⟩ := append_inj_of_stop (hline h) (hline h') hstop hstop hcut
  obtain ⟨hspaces, hlabel⟩ := append_inj_of_stop hblank hblank (hbracket h) (hbracket h') hlines
  have hdepth : l.depth = l'.depth := by
    have hlength := congrArg List.length hspaces
    simp only [Bytes.spaces, List.length_replicate] at hlength
    omega
  obtain ⟨d, label⟩ := l
  obtain ⟨d', label'⟩ := l'
  exact ⟨(OutlineLine.mk.injEq ..).mpr ⟨hdepth, hlabel⟩, (List.cons.inj hrest).2⟩

/-- The lines can be told from the text. -/
theorem text_flatMap_inj {ls ls' : List OutlineLine} (h : ∀ l ∈ ls, l.Proper)
    (h' : ∀ l ∈ ls', l.Proper) (heq : ls.flatMap text = ls'.flatMap text) : ls = ls' := by
  have hne (l : OutlineLine) (x : Bytes) : l.text ++ x ≠ [] := by simp [text]
  induction ls generalizing ls' with
  | nil =>
    cases ls' with
    | nil => rfl
    | cons l' ls' => exact absurd heq.symm (hne l' _)
  | cons l ls ih =>
    cases ls' with
    | nil => exact absurd heq (hne l _)
    | cons l' ls' =>
      obtain ⟨hl, hls⟩ := List.forall_mem_cons.1 h
      obtain ⟨hl', hls'⟩ := List.forall_mem_cons.1 h'
      rw [List.flatMap_cons, List.flatMap_cons] at heq
      obtain ⟨rfl, hrest⟩ := hl.text_inj hl' heq
      rw [ih hls hls' hrest]

/-- What stands between the brackets of the label. -/
def name (l : OutlineLine) : Bytes := (l.label.drop 1).takeWhile (· != ascii ']')

end OutlineLine

namespace Outline
open OutlineLine (Proper)

section
variable {d : Nat} {name : String}

theorem name_of_label {label x : Bytes} (h : ascii ']' ∉ utf8 name)
    (hlabel : label = utf8 "[" ++ utf8 name ++ (ascii ']' :: x)) :
    OutlineLine.name ⟨d, label⟩ = utf8 name := by
  have hbracket : utf8 "[" = [ascii '['] := by decide
  have hname : label.drop 1 = utf8 name ++ ascii ']' :: x := by
    rw [hlabel, hbracket, List.append_assoc]
    rfl
  have hinside : ∀ c ∈ utf8 name, (c != ascii ']') = true := by
    intro c hc
    refine bne_iff_ne.2 ?_
    rintro rfl
    exact h hc
  rw [OutlineLine.name, hname]
  refine Piece.takeWhile_stop hinside ?_
  rintro c ⟨⟩
  decide

theorem name_plain (h : ascii ']' ∉ utf8 name) : (plain d name).name = utf8 name :=
  name_of_label h rfl

theorem name_labelled (h : ascii ']' ∉ utf8 name) (text : Bytes) :
    (labelled d name text).name = utf8 name := by
  have hopen : utf8 "] (" = ascii ']' :: utf8 " (" := by decide
  refine name_of_label (x := utf8 " (" ++ text ++ utf8 ")") h ?_
  rw [hopen]
  simp

theorem labelled_inj {text text' : Bytes} (h : labelled d name text = labelled d name text') :
    text = text' := by
  have hlabel := congrArg OutlineLine.label h
  exact List.append_cancel_left (List.append_cancel_right hlabel)

theorem proper_plain (h : newline ∉ utf8 name) : (plain d name).Proper where
  bracket := by
    have hbracket : utf8 "[" = [ascii '['] := by decide
    rw [plain, hbracket]
    rfl
  oneLine := List.not_mem_append (List.not_mem_append (by decide) h) (by decide)

theorem proper_labelled (h : newline ∉ utf8 name) {text : Bytes} (htext : newline ∉ text) :
    (labelled d name text).Proper where
  bracket := by
    have hbracket : utf8 "[" = [ascii '['] := by decide
    rw [labelled, hbracket]
    rfl
  oneLine := by
    refine List.not_mem_append (List.not_mem_append (List.not_mem_append ?_ (by decide)) htext)
      (by decide)
    exact List.not_mem_append (by decide) h

end

/-! Lines by their depths. -/

/-- The first of the lines is above the depth `d`. -/
def Above (d : Nat) (ls : List OutlineLine) : Prop := ∀ l ∈ ls.head?, l.depth < d

section
variable {d : Nat} {ls ls' ms ms' : List OutlineLine} {P Q : Prop}

theorem Above.mono (h : Above d ls) : Above (d + 1) ls := fun l hl => Nat.lt_succ_of_lt (h l hl)

theorem above_cons {l : OutlineLine} (h : l.depth < d) : Above d (l :: ls) := by
  rintro l' ⟨⟩
  exact h

theorem Above.append (h : Above d ls) (h' : Above d ms) : Above d (ls ++ ms) := by
  cases ls with
  | nil => exact h'
  | cons l ls => exact above_cons (h l rfl)

/-- Where such lines agree up to the next line above the depth `d`, `P` holds, and what follows
agrees too. -/
def Settles (d : Nat) (ls ls' : List OutlineLine) (P : Prop) : Prop :=
  ∀ rest rest', Above d rest → Above d rest' → ls ++ rest = ls' ++ rest' → P ∧ rest = rest'

theorem Settles.imp (h : Settles d ls ls' P) (hPQ : P → Q) : Settles d ls ls' Q := by
  intro rest rest' hrest hrest' heq
  obtain ⟨hP, hrests⟩ := h rest rest' hrest hrest' heq
  exact ⟨hPQ hP, hrests⟩

theorem settles_nil : Settles d [] [] True := fun _ _ _ _ h => ⟨trivial, h⟩

theorem Settles.cons {l l' : OutlineLine} (hl : l = l' → P) (h : Settles d ls ls' Q) :
    Settles d (l :: ls) (l' :: ls') (P ∧ Q) := by
  intro rest rest' hrest hrest' heq
  obtain ⟨hline, hlines⟩ := List.cons.inj heq
  obtain ⟨hQ, hrests⟩ := h rest rest' hrest hrest' hlines
  exact ⟨⟨hl hline, hQ⟩, hrests⟩

/-- Parts that follow each other. -/
theorem Settles.append (h : Settles (d + 1) ls ls' P) (hm : Settles d ms ms' Q)
    (hms : Above (d + 1) ms) (hms' : Above (d + 1) ms') :
    Settles d (ls ++ ms) (ls' ++ ms') (P ∧ Q) := by
  intro rest rest' hrest hrest' heq
  rw [List.append_assoc, List.append_assoc] at heq
  obtain ⟨hP, hlater⟩ := h _ _ (hms.append hrest.mono) (hms'.append hrest'.mono) heq
  obtain ⟨hQ, hrests⟩ := hm rest rest' hrest hrest' hlater
  exact ⟨⟨hP, hQ⟩, hrests⟩

theorem Settles.last (h : Settles (d + 1) ls ls' P) : Settles d ls ls' P :=
  fun rest rest' hrest hrest' heq => h rest rest' hrest.mono hrest'.mono heq

theorem Settles.pair (h : Settles (d + 1) ls ls' P) (hm : Settles (d + 1) ms ms' Q)
    (hms : Above (d + 1) ms) (hms' : Above (d + 1) ms') :
    Settles d (ls ++ ms) (ls' ++ ms') (P ∧ Q) := h.append hm.last hms hms'

/-- The first of the lines is at the depth `d` and has the name of a node. -/
def Headed (d : Nat) (name : String) (ls : List OutlineLine) : Prop :=
  ∃ l more, ls = l :: more ∧ l.depth = d ∧ l.name = utf8 name

section
variable {name name' : String}

theorem headed_plain (h : ascii ']' ∉ utf8 name) : Headed d name (plain d name :: ls) :=
  ⟨_, _, rfl, rfl, name_plain h⟩

theorem headed_labelled (h : ascii ']' ∉ utf8 name) {text : Bytes} :
    Headed d name (labelled d name text :: ls) := ⟨_, _, rfl, rfl, name_labelled h text⟩

theorem Headed.append (h : Headed d name ls) : Headed d name (ls ++ ms) := by
  obtain ⟨l, more, rfl, hl⟩ := h
  exact ⟨l, more ++ ms, rfl, hl⟩

theorem Headed.above (h : Headed d name ls) : Above (d + 1) ls := by
  obtain ⟨l, more, rfl, hdepth, -⟩ := h
  exact above_cons (by omega)

theorem Headed.not_above (h : Headed d name ls) : ¬ Above d ls := by
  obtain ⟨l, more, rfl, hdepth, -⟩ := h
  intro habove
  exact Nat.lt_irrefl d (hdepth ▸ habove l rfl)

/-- Nodes with different names do not agree. -/
theorem Headed.settles {d' : Nat} (h : Headed d name ls) (h' : Headed d name' ls')
    (hsettles : name = name' → Settles d' ls ls' P) : Settles d' ls ls' P := by
  obtain ⟨l, more, rfl, -, hl⟩ := h
  obtain ⟨l', more', rfl, -, hl'⟩ := h'
  intro rest rest' hrest hrest' heq
  have hname : utf8 name = utf8 name' := by rw [← hl, ← hl', (List.cons.inj heq).1]
  exact hsettles (utf8_inj hname) rest rest' hrest hrest' heq

end

end

section
variable {α β : Type} {d : Nat} {heading : α → String} {f : α → List OutlineLine} {g : α → β}
  {xs ys : List α}

theorem above_flatMap (hf : ∀ x, Headed d (heading x) (f x)) (xs : List α) :
    Above (d + 1) (xs.flatMap f) := by
  cases xs with
  | nil => rintro l ⟨⟩
  | cons x xs => exact (hf x).append.above

/-- The parts of a node, any number of them. -/
theorem settles_flatMap (hf : ∀ x, Headed d (heading x) (f x))
    (h : ∀ x ∈ xs, ∀ y ∈ ys, Settles (d + 1) (f x) (f y) (g x = g y)) :
    Settles d (xs.flatMap f) (ys.flatMap f) (xs.map g = ys.map g) := by
  have hlow {x : α} {more rest : List OutlineLine} (hrest : Above d rest) :
      f x ++ more ≠ rest := by
    rintro rfl
    exact (hf x).append.not_above hrest
  induction xs generalizing ys with
  | nil =>
    cases ys with
    | nil => exact settles_nil.imp fun _ => rfl
    | cons y ys =>
      intro rest rest' hrest _ heq
      rw [List.flatMap_cons, List.append_assoc] at heq
      exact absurd heq.symm (hlow hrest)
  | cons x xs ih =>
    cases ys with
    | nil =>
      intro rest rest' _ hrest' heq
      rw [List.flatMap_cons, List.append_assoc] at heq
      exact absurd heq (hlow hrest')
    | cons y ys =>
      have hxs := ih fun x hx y hy => h x (List.mem_cons_of_mem _ hx) y (List.mem_cons_of_mem _ hy)
      have hx := h x List.mem_cons_self y List.mem_cons_self
      rw [List.flatMap_cons, List.flatMap_cons]
      refine (hx.append hxs (above_flatMap hf xs) (above_flatMap hf ys)).imp ?_
      rintro ⟨hx, hxs⟩
      rw [List.map_cons, List.map_cons, hx, hxs]

/-- A part of a node that may be missing. -/
theorem settles_option (hf : ∀ x, Headed d (heading x) (f x)) {o o' : Option α}
    (h : ∀ x ∈ o.toList, ∀ y ∈ o'.toList, Settles (d + 1) (f x) (f y) (g x = g y)) :
    Settles d (o.toList.flatMap f) (o'.toList.flatMap f) (o.map g = o'.map g) := by
  refine (settles_flatMap hf h).imp fun heq => ?_
  cases o with
  | none =>
    cases o' with
    | none => rfl
    | some y => cases heq
  | some x =>
    cases o' with
    | none => cases heq
    | some y => exact congrArg some (List.cons.inj heq).1

end

end Outline
end Lox
