import Lox.Machine.Run
import Mathlib.Data.List.Forall2

/-! Bindings of the same names, in the same order, to values that are related. -/
namespace Lox.Bindings
variable {R : Value → Value → Prop} {as bs : List (Bytes × Value)}

/-- The same names in the same order, with related values. -/
abbrev Rel (R : Value → Value → Prop) : List (Bytes × Value) → List (Bytes × Value) → Prop :=
  List.Forall₂ fun a b => a.1 = b.1 ∧ R a.2 b.2

namespace Rel

theorem lookup (h : Rel R as bs) (name : Bytes) :
    Option.Rel R (as.lookup name) (bs.lookup name) := by
  induction h with
  | nil => exact .none
  | @cons a b as bs hab _ ih =>
    obtain ⟨n, v⟩ := a
    obtain ⟨m, w⟩ := b
    obtain ⟨rfl, hv⟩ := hab
    rw [List.lookup_cons, List.lookup_cons]
    dsimp only
    cases name == n with
    | true => exact .some hv
    | false => exact ih

/-- A name is bound on both sides or on neither. -/
theorem isSome_lookup (h : Rel R as bs) (name : Bytes) :
    (as.lookup name).isSome = (bs.lookup name).isSome := by
  have hlookup := h.lookup name
  generalize as.lookup name = x, bs.lookup name = y at hlookup ⊢
  cases hlookup <;> rfl

theorem names (h : Rel R as bs) : as.map (·.1) = bs.map (·.1) := by
  induction h with
  | nil => rfl
  | cons hab _ ih => rw [List.map_cons, List.map_cons, hab.1, ih]

theorem insert {v w : Value} (h : Rel R as bs) (name : Bytes) (hv : R v w) :
    Rel R (Scope.insert name v as) (Scope.insert name w bs) := by
  induction h with
  | nil => exact .cons ⟨rfl, hv⟩ .nil
  | @cons a b as bs hab hrest ih =>
    obtain ⟨n, x⟩ := a
    obtain ⟨m, y⟩ := b
    obtain ⟨rfl, hx⟩ := hab
    unfold Scope.insert
    split
    · exact .cons ⟨rfl, hv⟩ hrest
    · exact .cons ⟨rfl, hx⟩ ih

end Rel
end Lox.Bindings
