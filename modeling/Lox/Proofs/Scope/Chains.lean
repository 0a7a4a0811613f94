import Lox.Proofs.Scope.Lookup

/-! The way outwards from a scope. Where every scope but that of the global names stands inside an
older one, each way ends in the global names, and a search along it ends with it. -/
namespace Lox.Forest
variable {f : Forest} {id : ScopeId} {name : Bytes} {value : Value}

/-- From `id` outwards, each scope stands inside an older one, up to that of the global names, which
stands in none. -/
inductive EndsInGlobals (f : Forest) : ScopeId → Prop where
  | globals {s : Scope} (hs : f[Machine.globals]? = some s) (hp : s.parent = none) :
      EndsInGlobals f Machine.globals
  | inner {id p : ScopeId} {s : Scope} (hs : f[id]? = some s) (hp : s.parent = some p)
      (older : p < id) (h : EndsInGlobals f p) : EndsInGlobals f id

/-- The scope of the global names stands in no other, and every other scope in an older one. -/
structure Rooted (f : Forest) : Prop where
  root : ∃ s, f[Machine.globals]? = some s ∧ s.parent = none
  inner : ∀ {id : ScopeId} {s : Scope}, f[id]? = some s → id ≠ Machine.globals →
    ∃ p < id, s.parent = some p

namespace Rooted

theorem layered (h : f.Rooted) : f.Layered := by
  intro id p s hs hp
  by_cases hid : id = Machine.globals
  · obtain ⟨t, ht, hnone⟩ := h.root
    rw [← hid, hs] at ht
    cases ht
    rw [hnone] at hp
    cases hp
  · obtain ⟨q, hq, hparent⟩ := h.inner hs hid
    rw [hparent] at hp
    cases hp
    exact hq

theorem endsInGlobals (h : f.Rooted) (hid : id < f.size) : f.EndsInGlobals id := by
  induction id using Nat.strongRecOn with
  | ind id ih =>
    by_cases hroot : id = Machine.globals
    · obtain ⟨s, hs, hp⟩ := h.root
      exact hroot ▸ .globals hs hp
    · obtain ⟨p, hlt, hp⟩ := h.inner (Array.getElem?_eq_getElem hid) hroot
      exact .inner (Array.getElem?_eq_getElem hid) hp hlt (ih p hlt (Nat.lt_trans hlt hid))

theorem globals_lt_size (h : f.Rooted) : Machine.globals < f.size := by
  obtain ⟨s, hs, -⟩ := h.root
  exact (Array.getElem?_eq_some_iff.1 hs).1

theorem define (h : f.Rooted) (id : ScopeId) (name : Bytes) (value : Value) :
    (f.define id name value).Rooted := by
  -- a definition changes what a scope binds, but not where it stands
  have hparent {j : ScopeId} {s : Scope} (hs : (f.define id name value)[j]? = some s) :
      ∃ t, f[j]? = some t ∧ s.parent = t.parent := by
    rw [getElem?_define] at hs
    split at hs
    · obtain ⟨t, ht, rfl⟩ := Option.map_eq_some_iff.1 hs
      exact ⟨t, ht, rfl⟩
    · exact ⟨s, hs, rfl⟩
  refine ⟨?_, fun hs hid => ?_⟩
  · have hlt : Machine.globals < (f.define id name value).size := by
      rw [size_define]
      exact h.globals_lt_size
    obtain ⟨t, ht, heq⟩ := hparent (Array.getElem?_eq_getElem hlt)
    obtain ⟨s, hs, hnone⟩ := h.root
    rw [ht] at hs
    cases hs
    exact ⟨_, Array.getElem?_eq_getElem hlt, heq.trans hnone⟩
  · obtain ⟨t, ht, heq⟩ := hparent hs
    rw [heq]
    exact h.inner ht hid

theorem push (h : f.Rooted) {p : ScopeId} (older : p < f.size)
    (bindings : List (Bytes × Value)) : Rooted (f.push ⟨bindings, some p⟩) := by
  refine ⟨?_, fun {id s} hs hid => ?_⟩
  · obtain ⟨s, hs, hp⟩ := h.root
    refine ⟨s, ?_, hp⟩
    rw [Array.getElem?_push, if_neg (Nat.ne_of_lt h.globals_lt_size)]
    exact hs
  · rw [Array.getElem?_push] at hs
    split at hs
    next hlast =>
      cases hs
      exact ⟨p, hlast ▸ older, rfl⟩
    next => exact h.inner hs hid

end Rooted

/-! One step outwards. -/

section
variable {s : Scope} (hs : f[id]? = some s) (fuel : Nat)
include hs

theorem chainFrom_root (hp : s.parent = none) : f.chainFrom (fuel + 1) id = [id] := by
  simp only [chainFrom, hs, hp]

theorem chainFrom_inner {p : ScopeId} (hp : s.parent = some p) :
    f.chainFrom (fuel + 1) id = id :: f.chainFrom fuel p := by
  simp only [chainFrom, hs, hp]

theorem ownerFrom_root (hp : s.parent = none) (name : Bytes) :
    f.ownerFrom name (fuel + 1) id = if (s.find? name).isSome then some id else none := by
  simp only [ownerFrom, hs, hp]

theorem ownerFrom_inner {p : ScopeId} (hp : s.parent = some p) (name : Bytes) :
    f.ownerFrom name (fuel + 1) id =
      if (s.find? name).isSome then some id else f.ownerFrom name fuel p := by
  simp only [ownerFrom, hs, hp]

end

/-! What can be seen from a scope whose chain ends in the global names. -/

namespace EndsInGlobals

theorem getLast?_chainFrom (h : f.EndsInGlobals id) {fuel : Nat} (hfuel : id < fuel) :
    (f.chainFrom fuel id).getLast? = some Machine.globals := by
  induction h generalizing fuel with
  | globals hs hp =>
    cases fuel with
    | zero => cases hfuel
    | succ fuel => rw [chainFrom_root hs fuel hp, List.getLast?_singleton]
  | inner hs hp older _ ih =>
    cases fuel with
    | zero => cases hfuel
    | succ fuel =>
      have houter := ih (Nat.lt_of_lt_of_le older (Nat.le_of_lt_succ hfuel))
      rw [chainFrom_inner hs fuel hp, List.getLast?_cons, houter]
      rfl

/-- A chain is the same however many steps are allotted, and so is the search for a name in it. -/
theorem fuel_irrelevant (h : f.EndsInGlobals id) {m n : Nat} (hm : id < m) (hn : id < n) :
    f.chainFrom m id = f.chainFrom n id ∧
      ∀ name, f.ownerFrom name m id = f.ownerFrom name n id := by
  induction h generalizing m n with
  | globals hs hp =>
    obtain ⟨m, rfl⟩ := Nat.exists_eq_add_one_of_ne_zero (Nat.ne_zero_of_lt hm)
    obtain ⟨n, rfl⟩ := Nat.exists_eq_add_one_of_ne_zero (Nat.ne_zero_of_lt hn)
    refine ⟨?_, fun name => ?_⟩
    · rw [chainFrom_root hs m hp, chainFrom_root hs n hp]
    · rw [ownerFrom_root hs m hp, ownerFrom_root hs n hp]
  | inner hs hp older _ ih =>
    obtain ⟨m, rfl⟩ := Nat.exists_eq_add_one_of_ne_zero (Nat.ne_zero_of_lt hm)
    obtain ⟨n, rfl⟩ := Nat.exists_eq_add_one_of_ne_zero (Nat.ne_zero_of_lt hn)
    obtain ⟨hchain, howner⟩ := ih (Nat.lt_of_lt_of_le older (Nat.le_of_lt_succ hm))
      (Nat.lt_of_lt_of_le older (Nat.le_of_lt_succ hn))
    refine ⟨?_, fun name => ?_⟩
    · rw [chainFrom_inner hs m hp, chainFrom_inner hs n hp, hchain]
    · rw [ownerFrom_inner hs m hp, ownerFrom_inner hs n hp, howner]

/-- A global name is found from everywhere, in the global names or before. -/
theorem exists_resolves (h : f.EndsInGlobals id) (hv : f.Binds Machine.globals name value) :
    ∃ owner, f.Resolves id name owner := by
  induction h with
  | globals hs hp => exact ⟨_, .here hv.lt_size, value, hv⟩
  | @inner id p s hs hp older _ ih =>
    cases hfree : s.find? name with
    | none =>
      obtain ⟨owner, hreaches, hbound⟩ := ih
      exact ⟨owner, .outwards hs hfree hp hreaches, hbound⟩
    | some w =>
      have hbound : f.Binds id name w := ⟨s, hs, hfree⟩
      exact ⟨id, .here hbound.lt_size, w, hbound⟩

end EndsInGlobals

/-- The way outwards from `id` ends in the global names; each search along it ends with it, however
many steps are allotted; and a global name is found, with its value if no scope in between binds it
too. -/
structure LeadsOut (f : Forest) (id : ScopeId) : Prop where
  ends : f.EndsInGlobals id
  last : (f.chain id).getLast? = some Machine.globals
  chain : ∀ fuel, f.size ≤ fuel → f.chainFrom fuel id = f.chain id
  owner : ∀ fuel name, f.size ≤ fuel → f.ownerFrom name fuel id = f.owner? id name
  visible : ∀ name value, f.Binds Machine.globals name value → name ∈ f.names id ∧
    (f.get? id name = some value ∨ ∃ owner ≠ Machine.globals, f.Resolves id name owner)

theorem Rooted.leadsOut (hf : f.Rooted) (hid : id < f.size) : f.LeadsOut id := by
  have hends := hf.endsInGlobals hid
  refine ⟨hends, hends.getLast?_chainFrom hid, fun fuel hfuel => ?_, fun fuel name hfuel => ?_,
    fun name value hv => ?_⟩
  · exact (hends.fuel_irrelevant (Nat.lt_of_lt_of_le hid hfuel) hid).1
  · exact (hends.fuel_irrelevant (Nat.lt_of_lt_of_le hid hfuel) hid).2 name
  · obtain ⟨owner, hfound⟩ := hends.exists_resolves hv
    have howner := (owner?_eq_some_iff hf.layered).2 hfound
    refine ⟨?_, ?_⟩
    · rw [mem_names_iff, isSome_get?, howner]
      rfl
    · by_cases hglobal : owner = Machine.globals
      · exact .inl ((get?_eq_some_iff hf.layered).2 ⟨owner, hfound.1, hglobal ▸ hv⟩)
      · exact .inr ⟨owner, hglobal, hfound⟩

end Lox.Forest
