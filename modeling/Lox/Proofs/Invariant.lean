/-! Computations that keep an invariant of the state, whichever way they end. -/
namespace Lox

variable {ε σ α β : Type} {I : σ → Prop} {E : ε → Prop} {A : α → Prop} {B : β → Prop}

/-- A value or an error of the kind expected, in a state with the invariant. -/
inductive Proper (I : σ → Prop) (E : ε → Prop) (A : α → Prop) : EStateM.Result ε σ α → Prop where
  | ok {a : α} {s : σ} (value : A a) (state : I s) : Proper I E A (.ok a s)
  | error {e : ε} {s : σ} (error : E e) (state : I s) : Proper I E A (.error e s)

/-- From every state with the invariant the computation ends properly. -/
def Upholds (I : σ → Prop) (E : ε → Prop) (A : α → Prop) (x : EStateM ε σ α) : Prop :=
  ∀ ⦃s : σ⦄, I s → Proper I E A (x s)

namespace Upholds

theorem pure {a : α} (h : A a) : Upholds I E A (Pure.pure a) := fun _ hs => .ok h hs

theorem throw {e : ε} (h : E e) : Upholds I E A (MonadExcept.throw e) := fun _ hs => .error h hs

theorem bind {x : EStateM ε σ α} {f : α → EStateM ε σ β} (hx : Upholds I E A x)
    (hf : ∀ a, A a → Upholds I E B (f a)) : Upholds I E B (x >>= f) := by
  intro s hs
  have hresult := hx hs
  change Proper I E B (EStateM.bind x f s)
  unfold EStateM.bind
  generalize x s = r at hresult ⊢
  cases hresult with
  | ok ha ht => exact hf _ ha ht
  | error he ht => exact .error he ht

theorem map {x : EStateM ε σ α} {f : α → β} (hx : Upholds I E A x) (hf : ∀ a, A a → B (f a)) :
    Upholds I E B (f <$> x) := by
  rw [map_eq_pure_bind]
  exact hx.bind fun a ha => .pure (hf a ha)

theorem mono {B : α → Prop} {x : EStateM ε σ α} (hx : Upholds I E A x) (hA : ∀ a, A a → B a) :
    Upholds I E B x := by
  intro s hs
  have hresult := hx hs
  generalize x s = r at hresult ⊢
  cases hresult with
  | ok ha ht => exact .ok (hA _ ha) ht
  | error he ht => exact .error he ht

theorem of_ok {x : EStateM ε σ α} {s s' : σ} {a : α} (hx : Upholds I E A x) (hs : I s)
    (h : x s = .ok a s') : A a ∧ I s' := by
  have hresult := hx hs
  rw [h] at hresult
  cases hresult with
  | ok ha hs' => exact ⟨ha, hs'⟩

theorem of_error {x : EStateM ε σ α} {s s' : σ} {e : ε} (hx : Upholds I E A x) (hs : I s)
    (h : x s = .error e s') : E e ∧ I s' := by
  have hresult := hx hs
  rw [h] at hresult
  cases hresult with
  | error he hs' => exact ⟨he, hs'⟩

end Upholds
end Lox
