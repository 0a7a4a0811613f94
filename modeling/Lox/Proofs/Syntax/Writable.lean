import Lox.Json.Pretty
import Lox.Proofs.Machine.Safety
import Lox.Syntax.Encode

/-! Parsed trees can be written as JSON: their numbers are finite. -/
namespace Lox

namespace Json

/-- All numbers in the value are finite. -/
def Writable (j : Json) : Prop := j.unwritable? = none

theorem encode_of_writable {j : Json} (h : j.Writable) (colour : Bool) :
    encode colour j = .ok (document colour j) := by
  rw [encode, show j.unwritable? = none from h]

@[simp] theorem writable_null : null.Writable := rfl
@[simp] theorem writable_bool (b : Bool) : (bool b).Writable := rfl
@[simp] theorem writable_integer (n : Int) : (integer n).Writable := rfl
@[simp] theorem writable_string (s : Bytes) : (string s).Writable := rfl

@[simp] theorem writable_array {items : List Json} :
    (array items).Writable ↔ ∀ j ∈ items, j.Writable := by
  change unwritableItem? items = none ↔ _
  induction items with
  | nil => exact ⟨fun _ => List.forall_mem_nil _, fun _ => rfl⟩
  | cons j items ih =>
    rw [unwritableItem?, Option.or_eq_none_iff, ih, List.forall_mem_cons]
    rfl

theorem writable_object {fields : List (Bytes × Json)} :
    (object fields).Writable ↔ ∀ f ∈ fields, f.2.Writable := by
  change unwritableField? fields = none ↔ _
  induction fields with
  | nil => exact ⟨fun _ => List.forall_mem_nil _, fun _ => rfl⟩
  | cons f fields ih =>
    rw [unwritableField?, Option.or_eq_none_iff, ih, List.forall_mem_cons]
    rfl

theorem mem_insertField {key : Bytes} {value : Json} {fields : List (Bytes × Json)}
    {f : Bytes × Json} : f ∈ insertField key value fields ↔ f = (key, value) ∨ f ∈ fields := by
  induction fields with
  | nil => exact List.mem_cons
  | cons g fields ih =>
    unfold insertField
    split
    · exact List.mem_cons
    · rw [List.mem_cons, ih, List.mem_cons, or_left_comm]

/-- Sorting the fields of an object changes none of their values. -/
theorem writable_ofFields {fields : List (String × Json)} :
    (ofFields fields).Writable ↔ ∀ f ∈ fields, f.2.Writable := by
  have sorted (fields : List (String × Json)) (before : List (Bytes × Json)) :
      (∀ f ∈ fields.foldl (fun sorted f => insertField (utf8 f.1) f.2 sorted) before,
        f.2.Writable) ↔ (∀ f ∈ fields, f.2.Writable) ∧ ∀ f ∈ before, f.2.Writable := by
    induction fields generalizing before with
    | nil => exact ⟨fun h => ⟨List.forall_mem_nil _, h⟩, And.right⟩
    | cons f fields ih =>
      rw [List.foldl_cons, ih, List.forall_mem_cons, and_assoc, and_left_comm]
      simp only [mem_insertField, forall_eq_or_imp]
  exact writable_object.trans ((sorted fields []).trans (and_iff_left (List.forall_mem_nil _)))

@[simp] theorem writable_node {kind : String} {fields : List (String × Json)} :
    (node kind fields).Writable ↔ ∀ j ∈ fields.map Prod.snd, j.Writable := by
  rw [node, writable_ofFields, List.forall_mem_cons, List.forall_mem_map]
  exact and_iff_right rfl

@[simp] theorem map_snd_field? (key : String) (value : Option Json) :
    (field? key value).map Prod.snd = value.toList := by
  cases value <;> rfl

end Json

@[simp] theorem Token.writable_toJson (t : Token) : t.toJson.Writable := by
  simp [toJson, Json.writable_ofFields]

theorem Literal.Finite.writable {v : Literal} (h : v.Finite) : v.toJson.Writable := by
  cases v with
  | number x => exact if_pos h
  | _ => rfl

@[simp] theorem mem_exprsToJson {es : List Expr} {j : Json} :
    j ∈ exprsToJson es ↔ ∃ e ∈ es, e.toJson = j := by
  induction es with
  | nil => simp [exprsToJson]
  | cons e es ih => simp [exprsToJson, ih, eq_comm]

@[simp] theorem mem_stmtsToJson {ss : List Stmt} {j : Json} :
    j ∈ stmtsToJson ss ↔ ∃ s ∈ ss, s.toJson = j := by
  induction ss with
  | nil => simp [stmtsToJson]
  | cons s ss ih => simp [stmtsToJson, ih, eq_comm]

theorem elseToJson_eq_map (no : Option Stmt) : elseToJson no = no.map Stmt.toJson := by
  cases no <;> simp [elseToJson]

theorem Expr.Every.writable {e : Expr} (h : e.Every Expr.WellFormed) : e.toJson.Writable := by
  induction h with
  | @node e here _ ih =>
    cases e with
    | literal v =>
      have hv : v.toJson.Writable := Literal.Finite.writable here
      simp [Expr.toJson, hv]
    | _ => simp_all [Expr.parts, Expr.toJson]

theorem Stmt.Every.writable {s : Stmt} (h : s.Every Expr.WellFormed fun _ => True) :
    s.toJson.Writable := by
  induction h with
  | @node s _ expressions _ ih =>
    replace expressions : ∀ e ∈ s.expressions, e.toJson.Writable := fun e he =>
      (expressions e he).writable
    cases s <;> simp_all [Stmt.parts, Stmt.expressions, Stmt.toJson, elseToJson_eq_map]

theorem Program.Parsed.writable {ss : List Stmt} (h : Parsed ss) :
    (Json.array (stmtsToJson ss)).Writable := by
  simp only [Json.writable_array, mem_stmtsToJson]
  rintro _ ⟨s, hs, rfl⟩
  exact (h.wellFormed s hs).writable

end Lox
