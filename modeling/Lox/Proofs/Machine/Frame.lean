import Lox.Proofs.Machine.Congruence

/-! What running code leaves as it was. However a computation ends, the machine is then in the scope
and has the calls in progress that it had before, and nothing printed is taken back. -/
namespace Lox

/-- The machine as a computation leaves it. -/
def Exec.final {α : Type} : EStateM.Result Halt Machine α → Machine
  | .ok _ m => m
  | .error _ m => m

/-- The machine at a later time and at the same place. -/
structure Machine.Continues (m m' : Machine) : Prop where
  current : m'.current = m.current
  depth : m'.depth = m.depth
  printed : m.printed.toList <+: m'.printed.toList

namespace Machine.Continues
variable {m m₁ m₂ : Machine}

theorem refl (m : Machine) : m.Continues m := ⟨rfl, rfl, List.prefix_rfl⟩

theorem trans (h : m.Continues m₁) (h' : m₁.Continues m₂) : m.Continues m₂ :=
  ⟨h'.current.trans h.current, h'.depth.trans h.depth, h.printed.trans h'.printed⟩

end Machine.Continues

namespace Exec
variable {α β : Type}

/-- However the computation ends, it leaves the machine where it was. -/
def Returns (x : Exec α) : Prop := ∀ m : Machine, m.Continues (final (x m))

theorem returns_elementary {x : Exec α} (h : Elementary x) : Returns x := by
  intro m
  cases h with
  | pure a => exact .refl m
  | throw h => exact .refl m
  | get => exact .refl m
  | lookUp name =>
    unfold lookUp
    split
    · exact .refl m
    · exact .refl m
  | assign name v =>
    unfold assign
    split
    · exact ⟨rfl, rfl, List.prefix_rfl⟩
    · exact .refl m
  | declare name v => exact ⟨rfl, rfl, List.prefix_rfl⟩
  | print text =>
    refine ⟨rfl, rfl, ?_⟩
    change m.printed.toList <+: (m.printed.push text).toList
    rw [Array.toList_push]
    exact List.prefix_append _ _
  | close name params body => exact ⟨rfl, rfl, List.prefix_rfl⟩
  | runNative paren action args =>
    unfold runNative
    split
    · exact ⟨rfl, rfl, List.prefix_rfl⟩
    · exact .refl m
    · exact .refl m
    · exact .refl m

theorem Returns.bind {x : Exec α} {f : α → Exec β} (hx : Returns x) (hf : ∀ a, Returns (f a)) :
    Returns (x >>= f) := by
  intro m
  have hfirst := hx m
  change m.Continues (final (EStateM.bind x f m))
  unfold EStateM.bind
  generalize x m = r at hfirst ⊢
  cases r with
  | ok a m' => exact hfirst.trans (hf a m')
  | error e m' => exact hfirst

theorem Returns.inScope (parent : ScopeId) (bindings : List (Bytes × Value)) {x : Exec α}
    (h : Returns x) : Returns (inScope parent bindings x) := by
  intro m
  have hinner := h { m with
    scopes := m.scopes.push ⟨bindings, some parent⟩, current := m.scopes.size }
  unfold Exec.inScope
  dsimp only
  generalize x _ = r at hinner ⊢
  cases r with
  | ok a m' => exact ⟨rfl, hinner.depth, hinner.printed⟩
  | error e m' => exact ⟨rfl, hinner.depth, hinner.printed⟩

theorem Returns.asCall (limit : Nat) (paren : Token) {x : Exec α} (h : Returns x) :
    Returns (asCall limit paren x) := by
  intro m
  have hinner := h { m with depth := m.depth + 1 }
  unfold Exec.asCall
  split
  · exact .refl m
  · generalize x _ = r at hinner ⊢
    cases r with
    | ok a m' => exact ⟨hinner.current, Nat.sub_eq_of_eq_add hinner.depth, hinner.printed⟩
    | error e m' => exact ⟨hinner.current, Nat.sub_eq_of_eq_add hinner.depth, hinner.printed⟩

/-- All that runs code leaves the machine where it was. -/
def frame (limit : Nat) : Congruence limit limit where
  rel x _ := Returns x
  elementary := returns_elementary
  bind hx hf := hx.bind hf
  inScope parent bindings _ _ h := h.inScope parent bindings
  asCall paren _ _ h := h.asCall limit paren

end Exec
end Lox
