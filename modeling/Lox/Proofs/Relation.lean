import Mathlib.Data.List.Forall2

/-! Pairs of computations that end alike, up to relations on their values, errors and states. -/
namespace Lox

variable {ε ε' σ σ' α α' β β' : Type} {E : ε → ε' → Prop} {S : σ → σ' → Prop}
  {A : α → α' → Prop} {B : β → β' → Prop}

/-- Two results that are both values or both errors, and related. -/
inductive Matching (E : ε → ε' → Prop) (S : σ → σ' → Prop) (A : α → α' → Prop) :
    EStateM.Result ε σ α → EStateM.Result ε' σ' α' → Prop where
  | ok {a : α} {a' : α'} {s : σ} {s' : σ'} (value : A a a') (state : S s s') :
      Matching E S A (.ok a s) (.ok a' s')
  | error {e : ε} {e' : ε'} {s : σ} {s' : σ'} (error : E e e') (state : S s s') :
      Matching E S A (.error e s) (.error e' s')

/-- From related states both computations have related results. -/
def Related (E : ε → ε' → Prop) (S : σ → σ' → Prop) (A : α → α' → Prop) (x : EStateM ε σ α)
    (y : EStateM ε' σ' α') : Prop :=
  ∀ ⦃s : σ⦄ ⦃s' : σ'⦄, S s s' → Matching E S A (x s) (y s')

namespace Related

theorem pure {a : α} {a' : α'} (h : A a a') :
    Related E S A (Pure.pure a) (Pure.pure a') := fun _ _ hs => .ok h hs

theorem throw {e : ε} {e' : ε'} (h : E e e') :
    Related E S A (MonadExcept.throw e) (MonadExcept.throw e') := fun _ _ hs => .error h hs

theorem bind {x : EStateM ε σ α} {y : EStateM ε' σ' α'} {f : α → EStateM ε σ β}
    {g : α' → EStateM ε' σ' β'} (hx : Related E S A x y)
    (hf : ∀ a a', A a a' → Related E S B (f a) (g a')) : Related E S B (x >>= f) (y >>= g) := by
  intro s s' hs
  have hresult := hx hs
  change Matching E S B (EStateM.bind x f s) (EStateM.bind y g s')
  unfold EStateM.bind
  generalize x s = r, y s' = r' at hresult ⊢
  cases hresult with
  | ok ha ht => exact hf _ _ ha ht
  | error he ht => exact .error he ht

theorem map {x : EStateM ε σ α} {y : EStateM ε' σ' α'} {f : α → β} {g : α' → β'}
    (hx : Related E S A x y) (hf : ∀ a a', A a a' → B (f a) (g a')) :
    Related E S B (f <$> x) (g <$> y) := by
  rw [map_eq_pure_bind, map_eq_pure_bind]
  exact hx.bind fun a a' ha => .pure (hf a a' ha)

end Related
end Lox
