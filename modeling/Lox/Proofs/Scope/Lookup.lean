import Lox.Machine.Basic

/-! How names are found in a forest of scopes: outwards, from parent to parent, up to the first
scope that binds the name. The way outwards from many scopes may pass through one scope, so what is
bound in it is seen from all of them, unless a scope in between binds the name too. -/
namespace Lox

namespace Scope
variable {name other : Bytes} {value : Value}

theorem lookup_insert_self (name : Bytes) (value : Value) (bindings : List (Bytes × Value)) :
    (insert name value bindings).lookup name = some value := by
  induction bindings with
  | nil => simp [insert]
  | cons b rest ih =>
    obtain ⟨n, v⟩ := b
    unfold insert
    split
    next h => simp [eq_of_beq h]
    next h =>
      have hne : (name == n) = false := beq_false_of_ne fun heq => h (beq_iff_eq.2 heq.symm)
      rw [List.lookup_cons, hne]
      exact ih

theorem lookup_insert_of_ne (h : other ≠ name) (value : Value) (bindings : List (Bytes × Value)) :
    (insert name value bindings).lookup other = bindings.lookup other := by
  induction bindings with
  | nil => simp [insert, h]
  | cons b rest ih =>
    obtain ⟨n, v⟩ := b
    unfold insert
    split
    next hn =>
      have hne : (other == n) = false := beq_false_of_ne (eq_of_beq hn ▸ h)
      rw [List.lookup_cons, List.lookup_cons, hne]
    next => rw [List.lookup_cons, List.lookup_cons, ih]

theorem find?_bind_self (s : Scope) (name : Bytes) (value : Value) :
    (s.bind name value).find? name = some value := lookup_insert_self name value s.bindings

theorem find?_bind_of_ne (s : Scope) (h : other ≠ name) (value : Value) :
    (s.bind name value).find? other = s.find? other := lookup_insert_of_ne h value s.bindings

/-- The names bound in a scope are those that are found in it. -/
theorem mem_names_iff (s : Scope) (name : Bytes) :
    name ∈ s.bindings.map (·.1) ↔ (s.find? name).isSome = true := by
  unfold find?
  induction s.bindings with
  | nil => simp
  | cons b rest ih =>
    obtain ⟨n, v⟩ := b
    rw [List.map_cons, List.mem_cons, List.lookup_cons, ih]
    cases hn : name == n with
    | true => simp [eq_of_beq hn]
    | false => simp [ne_of_beq_false hn]

end Scope

namespace Forest
variable {f g : Forest} {id outer owner : ScopeId} {name other : Bytes} {value : Value}

theorem getElem?_define (f : Forest) (id j : ScopeId) (name : Bytes) (value : Value) :
    (f.define id name value)[j]? = if id = j then f[j]?.map (·.bind name value) else f[j]? :=
  Array.getElem?_modify

theorem size_define (f : Forest) (id : ScopeId) (name : Bytes) (value : Value) :
    (f.define id name value).size = f.size := Array.size_modify

/-! Forests in which every way outwards ends. -/

/-- The forests that come from no scopes at all by new scopes, inside older ones or inside none, by
definitions and by assignments. -/
inductive Built : Forest → Prop where
  | empty : Built #[]
  | grown {f : Forest} (h : Built f) (parent : Option ScopeId) (older : ∀ p ∈ parent, p < f.size) :
      Built (f.grow parent []).2
  | defined {f : Forest} (h : Built f) (id : ScopeId) (name : Bytes) (value : Value) :
      Built (f.define id name value)
  | assigned {f g : Forest} (h : Built f) {id : ScopeId} {name : Bytes} {value : Value}
      (hg : f.assign? id name value = some g) : Built g

/-- Every scope stands inside an older one, or inside none. -/
def Layered (f : Forest) : Prop :=
  ∀ ⦃id p : ScopeId⦄ ⦃s : Scope⦄, f[id]? = some s → s.parent = some p → p < id

theorem Layered.define (h : f.Layered) (id : ScopeId) (name : Bytes) (value : Value) :
    (f.define id name value).Layered := by
  intro j p s hs hp
  rw [getElem?_define] at hs
  split at hs
  · obtain ⟨t, ht, rfl⟩ := Option.map_eq_some_iff.1 hs
    exact h ht hp
  · exact h hs hp

theorem Layered.push (h : f.Layered) {parent : Option ScopeId} (older : ∀ p ∈ parent, p < f.size)
    (bindings : List (Bytes × Value)) : Layered (f.push ⟨bindings, parent⟩) := by
  intro j p s hs hp
  rw [Array.getElem?_push] at hs
  split at hs
  next hj =>
    cases hs
    exact hj ▸ older p hp
  next => exact h hs hp

theorem Built.layered (h : Built f) : f.Layered := by
  induction h with
  | empty =>
    intro j p s hs
    cases hs
  | grown _ parent older ih => exact ih.push older []
  | defined _ id name value ih => exact ih.define id name value
  | @assigned f g _ id name value hg ih =>
    unfold assign? at hg
    split at hg
    · cases hg
    next owner _ =>
      cases hg
      exact ih.define owner name value

/-! The way outwards. -/

/-- On the way outwards from `id`, the scope `owner` is reached before any other scope that binds
the name. -/
inductive Reaches (f : Forest) (name : Bytes) (owner : ScopeId) : ScopeId → Prop where
  | here (h : owner < f.size) : Reaches f name owner owner
  | outwards {id p : ScopeId} {s : Scope} (hs : f[id]? = some s) (hfree : s.find? name = none)
      (hp : s.parent = some p) (h : Reaches f name owner p) : Reaches f name owner id

/-- The name is bound to the value in the scope itself. -/
def Binds (f : Forest) (id : ScopeId) (name : Bytes) (value : Value) : Prop :=
  ∃ s, f[id]? = some s ∧ s.find? name = some value

/-- The name is found from `id` in the scope `owner`: it is bound there and in no scope before. -/
def Resolves (f : Forest) (id : ScopeId) (name : Bytes) (owner : ScopeId) : Prop :=
  f.Reaches name owner id ∧ ∃ value, f.Binds owner name value

theorem Binds.lt_size (h : f.Binds id name value) : id < f.size := by
  obtain ⟨s, hs, -⟩ := h
  exact (Array.getElem?_eq_some_iff.1 hs).1

theorem resolves_of_ownerFrom {fuel : Nat} (h : ownerFrom f name fuel id = some owner) :
    f.Resolves id name owner := by
  induction fuel generalizing id with
  | zero => cases h
  | succ fuel ih =>
    unfold ownerFrom at h
    split at h
    · cases h
    next s hs =>
      split at h
      next hbound =>
        cases h
        obtain ⟨v, hv⟩ := Option.isSome_iff_exists.1 hbound
        have hbinds : f.Binds owner name v := ⟨s, hs, hv⟩
        exact ⟨.here hbinds.lt_size, v, hbinds⟩
      next hfree =>
        split at h
        · cases h
        next p hp =>
          obtain ⟨hreaches, hbinds⟩ := ih h
          exact ⟨.outwards hs (Option.not_isSome_iff_eq_none.1 hfree) hp hreaches, hbinds⟩

/-- Where parents are older, as many steps as there are scopes lead to the end of every way. -/
theorem ownerFrom_of_resolves (hf : f.Layered) (h : f.Resolves id name owner) {fuel : Nat}
    (hfuel : id < fuel) : ownerFrom f name fuel id = some owner := by
  obtain ⟨hreaches, v, s, hs, hv⟩ := h
  induction hreaches generalizing fuel with
  | here =>
    obtain ⟨fuel, rfl⟩ := Nat.exists_eq_add_one_of_ne_zero (Nat.ne_zero_of_lt hfuel)
    rw [ownerFrom, hs]
    simp [hv]
  | @outwards id p t ht hfree hp _ ih =>
    obtain ⟨fuel, rfl⟩ := Nat.exists_eq_add_one_of_ne_zero (Nat.ne_zero_of_lt hfuel)
    have holder := hf ht hp
    rw [ownerFrom, ht]
    simp only [hfree, Option.isSome_none, Bool.false_eq_true, if_false, hp]
    exact ih (Nat.lt_of_lt_of_le holder (Nat.le_of_lt_succ hfuel))

theorem Reaches.lt_size (h : f.Reaches name owner id) : id < f.size := by
  cases h with
  | here h => exact h
  | outwards hs _ _ _ => exact (Array.getElem?_eq_some_iff.1 hs).1

theorem owner?_eq_some_iff (hf : f.Layered) :
    f.owner? id name = some owner ↔ f.Resolves id name owner :=
  ⟨resolves_of_ownerFrom, fun h => ownerFrom_of_resolves hf h h.1.lt_size⟩

theorem Resolves.unique (hf : f.Layered) {owner' : ScopeId} (h : f.Resolves id name owner)
    (h' : f.Resolves id name owner') : owner = owner' :=
  Option.some.inj (((owner?_eq_some_iff hf).2 h).symm.trans ((owner?_eq_some_iff hf).2 h'))

/-- The value of a name is that in the nearest scope outwards that binds it. -/
theorem get?_eq_some_iff (hf : f.Layered) :
    f.get? id name = some value ↔ ∃ owner, f.Reaches name owner id ∧ f.Binds owner name value := by
  unfold get?
  constructor
  · intro h
    split at h
    · cases h
    next owner howner =>
      split at h
      · cases h
      next s hs => exact ⟨owner, (resolves_of_ownerFrom howner).1, s, hs, h⟩
  · rintro ⟨owner, hreaches, hbinds⟩
    rw [(owner?_eq_some_iff hf).2 ⟨hreaches, value, hbinds⟩]
    obtain ⟨s, hs, hv⟩ := hbinds
    dsimp only
    rw [hs]
    exact hv

theorem isSome_get? (f : Forest) (id : ScopeId) (name : Bytes) :
    (f.get? id name).isSome = (f.owner? id name).isSome := by
  unfold get?
  cases howner : f.owner? id name with
  | none => rfl
  | some owner =>
    obtain ⟨-, v, s, hs, hv⟩ := resolves_of_ownerFrom howner
    dsimp only
    rw [hs]
    simp [hv]

/-! Definitions and assignments. -/

theorem getElem?_define_self {s : Scope} (hs : f[id]? = some s) (name : Bytes) (value : Value) :
    (f.define id name value)[id]? = some (s.bind name value) := by
  rw [getElem?_define, if_pos rfl, hs]
  rfl

theorem getElem?_define_of_ne {j : ScopeId} (h : id ≠ j) (name : Bytes) (value : Value) :
    (f.define id name value)[j]? = f[j]? := by
  rw [getElem?_define, if_neg h]

theorem binds_define_self (hid : id < f.size) (name : Bytes) (value : Value) :
    (f.define id name value).Binds id name value :=
  ⟨_, getElem?_define_self (Array.getElem?_eq_getElem hid) name value, Scope.find?_bind_self _ _ _⟩

theorem binds_define_of_ne (hne : owner ≠ id) {v : Value} :
    (f.define id name value).Binds owner other v ↔ f.Binds owner other v := by
  unfold Binds
  rw [getElem?_define_of_ne hne.symm]

/-- The scope of the definition binds the name afterwards, so that no way goes past it. -/
theorem Reaches.of_define (hid : id < f.size)
    (h : (f.define id name value).Reaches name owner outer) : f.Reaches name owner outer := by
  induction h with
  | here h => exact .here (size_define f id name value ▸ h)
  | @outwards j p s hs hfree hp _ ih =>
    have hne : id ≠ j := by
      rintro rfl
      obtain ⟨t, ht, hbound⟩ := binds_define_self hid name value
      rw [hs] at ht
      cases ht
      rw [hfree] at hbound
      cases hbound
    rw [getElem?_define_of_ne hne] at hs
    exact .outwards hs hfree hp ih

/-- A way outwards goes on to be one, unless the scope of the definition is on it. -/
theorem Reaches.define (hid : id < f.size) (h : f.Reaches name owner outer) (value : Value) :
    (f.define id name value).Reaches name owner outer ∨ f.Reaches name id outer := by
  induction h with
  | here h => exact .inl (.here (by rwa [size_define]))
  | @outwards j p s hs hfree hp _ ih =>
    by_cases hj : id = j
    · exact .inr (hj ▸ .here hid)
    · have hs' := (getElem?_define_of_ne hj name value).trans hs
      exact ih.imp (.outwards hs' hfree hp) (.outwards hs hfree hp)

/-- The way to the scope of the definition does not pass it before. -/
theorem Reaches.define_self (h : f.Reaches name id outer) (value : Value) :
    (f.define id name value).Reaches name id outer := by
  induction h with
  | here h => exact .here (by rwa [size_define])
  | @outwards j p s hs hfree hp _ ih =>
    by_cases hj : id = j
    · subst hj
      refine .here ?_
      rw [size_define]
      exact (Array.getElem?_eq_some_iff.1 hs).1
    · exact .outwards ((getElem?_define_of_ne hj name value).trans hs) hfree hp ih

theorem get?_define_of_reaches (hf : f.Layered) (hid : id < f.size) (h : f.Reaches name id outer)
    (value : Value) : (f.define id name value).get? outer name = some value :=
  (get?_eq_some_iff (hf.define id name value)).2
    ⟨id, h.define_self value, binds_define_self hid name value⟩

theorem get?_define_of_not_reaches (hf : f.Layered) (hid : id < f.size)
    (h : ¬ f.Reaches name id outer) (value : Value) :
    (f.define id name value).get? outer name = f.get? outer name := by
  refine Option.ext fun v => ?_
  rw [get?_eq_some_iff (hf.define id name value), get?_eq_some_iff hf]
  refine exists_congr fun owner => ⟨?_, ?_⟩
  · rintro ⟨hreaches, hbinds⟩
    have hway := hreaches.of_define hid
    have hne : owner ≠ id := fun heq => h (heq ▸ hway)
    exact ⟨hway, (binds_define_of_ne hne).1 hbinds⟩
  · rintro ⟨hreaches, hbinds⟩
    have hne : owner ≠ id := fun heq => h (heq ▸ hreaches)
    exact ⟨(hreaches.define hid value).resolve_right h, (binds_define_of_ne hne).2 hbinds⟩

theorem ownerFrom_define_of_ne (h : other ≠ name) (value : Value) (fuel : Nat) (j : ScopeId) :
    ownerFrom (f.define id name value) other fuel j = ownerFrom f other fuel j := by
  induction fuel generalizing j with
  | zero => rfl
  | succ fuel ih =>
    rw [ownerFrom, ownerFrom, getElem?_define]
    by_cases hj : id = j
    · rw [if_pos hj]
      cases f[j]? with
      | none => rfl
      | some s =>
        simp only [Option.map_some, Scope.find?_bind_of_ne s h value, ih]
        rfl
    · simp only [if_neg hj, ih]

/-- Other names are seen as before. -/
theorem get?_define_of_ne (h : other ≠ name) (id : ScopeId) (value : Value) (outer : ScopeId) :
    (f.define id name value).get? outer other = f.get? outer other := by
  unfold get? owner?
  rw [size_define, ownerFrom_define_of_ne h]
  cases ownerFrom f other f.size outer with
  | none => rfl
  | some owner =>
    dsimp only
    rw [getElem?_define]
    by_cases hj : id = owner
    · rw [if_pos hj]
      cases f[owner]? with
      | none => rfl
      | some s => exact Scope.find?_bind_of_ne s h value
    · rw [if_neg hj]

/-- An assignment is a definition in the scope in which the name is found. -/
theorem assign?_eq_some_iff (hf : f.Layered) : f.assign? id name value = some g ↔
    ∃ owner, f.Resolves id name owner ∧ g = f.define owner name value := by
  unfold assign?
  constructor
  · intro h
    split at h
    · cases h
    next owner howner =>
      cases h
      exact ⟨owner, resolves_of_ownerFrom howner, rfl⟩
  · rintro ⟨owner, howner, rfl⟩
    rw [(owner?_eq_some_iff hf).2 howner]

theorem isSome_assign? (f : Forest) (id : ScopeId) (name : Bytes) (value : Value) :
    (f.assign? id name value).isSome = (f.get? id name).isSome := by
  rw [isSome_get?]
  unfold assign?
  cases f.owner? id name <;> rfl

/-! The names in order. -/

theorem mem_insertName {names : List Bytes} :
    other ∈ insertName name names ↔ other = name ∨ other ∈ names := by
  induction names with
  | nil => simp [insertName]
  | cons n rest ih =>
    unfold insertName
    split
    · exact List.mem_cons
    · split
      next h =>
        cases eq_of_beq h
        simp
      next => rw [List.mem_cons, List.mem_cons, ih, or_left_comm]

theorem ascending_insertName {names : List Bytes} (h : names.Pairwise (· < ·)) :
    (insertName name names).Pairwise (· < ·) := by
  induction names with
  | nil => exact List.pairwise_singleton _ _
  | cons n rest ih =>
    obtain ⟨hfirst, hrest⟩ := List.pairwise_cons.1 h
    unfold insertName
    split
    next hlt =>
      refine List.pairwise_cons.2 ⟨List.forall_mem_cons.2 ⟨hlt, fun m hm => ?_⟩, h⟩
      exact List.lt_trans hlt (hfirst m hm)
    next hlt =>
      split
      · exact h
      next hne =>
        have hafter : n < name := Std.lt_of_le_of_ne hlt fun heq => hne (beq_iff_eq.2 heq.symm)
        refine List.pairwise_cons.2 ⟨fun m hm => ?_, ih hrest⟩
        obtain rfl | hm := mem_insertName.1 hm
        · exact hafter
        · exact hfirst m hm

theorem mem_foldl_insertName {names sorted : List Bytes} :
    name ∈ names.foldl (fun sorted name => insertName name sorted) sorted ↔
      name ∈ names ∨ name ∈ sorted := by
  induction names generalizing sorted with
  | nil => simp
  | cons n rest ih =>
    rw [List.foldl_cons, ih, mem_insertName, List.mem_cons, or_assoc, or_left_comm]

theorem ascending_foldl_insertName {names sorted : List Bytes} (h : sorted.Pairwise (· < ·)) :
    (names.foldl (fun sorted name => insertName name sorted) sorted).Pairwise (· < ·) := by
  induction names generalizing sorted with
  | nil => exact h
  | cons n rest ih => exact ih (ascending_insertName h)

/-- The same steps outwards that find the owner of a name list it. -/
theorem mem_flatMap_chainFrom (fuel : Nat) (id : ScopeId) :
    name ∈ (chainFrom f fuel id).flatMap f.ownNames ↔ (ownerFrom f name fuel id).isSome = true := by
  induction fuel generalizing id with
  | zero => simp [chainFrom, ownerFrom]
  | succ fuel ih =>
    unfold chainFrom ownerFrom
    cases hs : f[id]? with
    | none => simp
    | some s =>
      have hown : name ∈ f.ownNames id ↔ (s.find? name).isSome = true := by
        rw [ownNames, hs]
        exact s.mem_names_iff name
      dsimp only
      cases hp : s.parent with
      | none =>
        dsimp only
        rw [List.flatMap_singleton, hown]
        split <;> simp_all
      | some p =>
        dsimp only
        rw [List.flatMap_cons, List.mem_append, hown, ih p]
        split <;> simp_all

/-- The names visible from a scope are those that have a value there. -/
theorem mem_names_iff : name ∈ f.names id ↔ (f.get? id name).isSome = true := by
  rw [isSome_get?]
  unfold names
  rw [mem_foldl_insertName]
  simp only [List.not_mem_nil, or_false]
  exact mem_flatMap_chainFrom f.size id

theorem ascending_names (f : Forest) (id : ScopeId) : (f.names id).Pairwise (· < ·) :=
  ascending_foldl_insertName List.Pairwise.nil

/-! What is seen where. -/

/-- From where the condition says so the value is seen in the second forest, and all else is seen as
in the first one. -/
def Rebinds (f g : Forest) (value : Value) (seen : ScopeId → Bytes → Prop) : Prop :=
  ∀ id name, (seen id name → g.get? id name = some value) ∧
    (¬ seen id name → g.get? id name = f.get? id name)

theorem rebinds_define (hf : f.Layered) (hid : id < f.size) (name : Bytes) (value : Value) :
    f.Rebinds (f.define id name value) value
      fun outer other => other = name ∧ f.Reaches name id outer := by
  intro outer other
  constructor
  · rintro ⟨rfl, hreaches⟩
    exact get?_define_of_reaches hf hid hreaches value
  · intro hunseen
    by_cases hname : other = name
    · subst hname
      exact get?_define_of_not_reaches hf hid (fun hreaches => hunseen ⟨rfl, hreaches⟩) value
    · exact get?_define_of_ne hname id value outer

theorem rebinds_assign? (hf : f.Layered) (h : f.assign? id name value = some g) :
    f.Rebinds g value fun outer other => other = name ∧
      ∃ owner, f.Resolves id name owner ∧ f.Resolves outer name owner := by
  obtain ⟨owner, howner, rfl⟩ := (assign?_eq_some_iff hf).1 h
  obtain ⟨v, hbound⟩ := howner.2
  intro outer other
  obtain ⟨hseen, hunseen⟩ := rebinds_define hf hbound.lt_size name value outer other
  refine ⟨?_, fun h => hunseen ?_⟩
  · rintro ⟨hname, owner', howner', houter⟩
    cases howner.unique hf howner'
    exact hseen ⟨hname, houter.1⟩
  · rintro ⟨hname, hreaches⟩
    exact h ⟨hname, owner, howner, hreaches, v, hbound⟩

end Forest

/-- The computation faults at the name, because it is undefined, and changes nothing. -/
def Exec.Misses {α : Type} (name : Token) (x : Exec α) (m : Machine) : Prop :=
  ∃ fault : RuntimeFault, x m = .error (.fault fault) m ∧ fault.code = "E3004" ∧ fault.token = name

theorem Exec.lookUp_misses {name : Token} {m : Machine}
    (h : m.scopes.get? m.current name.lexeme = none) : Exec.Misses name (lookUp name) m := by
  refine ⟨m.scopes.undefinedName m.current name, ?_, rfl, rfl⟩
  rw [lookUp, h]

theorem Exec.lookUp_eq_ok {name : Token} {v : Value} {m : Machine}
    (h : m.scopes.get? m.current name.lexeme = some v) : lookUp name m = .ok v m := by
  rw [lookUp, h]

theorem Exec.assign_misses {name : Token} {v : Value} {m : Machine}
    (h : m.scopes.assign? m.current name.lexeme v = none) :
    Exec.Misses name (Exec.assign name v) m := by
  refine ⟨m.scopes.undefinedName m.current name, ?_, rfl, rfl⟩
  unfold Forest.assign? at h
  unfold Exec.assign
  cases howner : m.scopes.owner? m.current name.lexeme with
  | none => rfl
  | some owner =>
    rw [howner] at h
    cases h

theorem Exec.assign_eq_ok {name : Token} {v : Value} {m : Machine} {g : Forest}
    (h : m.scopes.assign? m.current name.lexeme v = some g) :
    Exec.assign name v m = .ok () { m with scopes := g } := by
  unfold Forest.assign? at h
  unfold Exec.assign
  cases howner : m.scopes.owner? m.current name.lexeme with
  | none =>
    rw [howner] at h
    cases h
  | some owner =>
    rw [howner] at h
    cases h
    rfl

/-- A forest behaves as nested scopes. The names visible from a scope ascend, and are those that
have a value there; the value of a name is that in the nearest scope that binds it. An assignment
succeeds where the name has a value, and is seen from where the name is found in the same scope; a
definition is seen from where its scope is reached before another one that binds the name; nothing
else changes. A name that is not found is a fault at its token, and nothing changes then. -/
theorem Forest.scopes_nest {f : Forest} (hf : f.Built) :
    (∀ id, (f.names id).Pairwise (· < ·) ∧
      ∀ name, name ∈ f.names id ↔ (f.get? id name).isSome = true) ∧
    (∀ id name value, f.get? id name = some value ↔
      ∃ owner, f.Reaches name owner id ∧ f.Binds owner name value) ∧
    (∀ id name value, (f.assign? id name value).isSome = (f.get? id name).isSome ∧
      ∀ g, f.assign? id name value = some g → f.Rebinds g value fun outer other =>
        other = name ∧ ∃ owner, f.Resolves id name owner ∧ f.Resolves outer name owner) ∧
    (∀ id name value, id < f.size → f.Rebinds (f.define id name value) value fun outer other =>
      other = name ∧ f.Reaches name id outer) ∧
    ∀ (m : Machine) (name : Token), m.scopes = f →
      (∀ v, f.get? m.current name.lexeme = some v → Exec.lookUp name m = .ok v m) ∧
      (f.get? m.current name.lexeme = none → Exec.Misses name (Exec.lookUp name) m) ∧
      ∀ v, (∀ g, f.assign? m.current name.lexeme v = some g →
          Exec.assign name v m = .ok () { m with scopes := g }) ∧
        (f.assign? m.current name.lexeme v = none → Exec.Misses name (Exec.assign name v) m) := by
  have hlayered := hf.layered
  refine ⟨fun id => ⟨ascending_names f id, fun name => mem_names_iff⟩, ?_, ?_, ?_, ?_⟩
  · exact fun id name value => get?_eq_some_iff hlayered
  · exact fun id name value => ⟨isSome_assign? f id name value, fun g => rebinds_assign? hlayered⟩
  · exact fun id name value hid => rebinds_define hlayered hid name value
  · rintro m name rfl
    exact ⟨fun v => Exec.lookUp_eq_ok, Exec.lookUp_misses,
      fun v => ⟨fun g => Exec.assign_eq_ok, Exec.assign_misses⟩⟩

/-- A name bound in a scope and in one around it, with a further scope inside each. -/
theorem Forest.scopes_nest_shadowed :
    let x := utf8 "x"
    let v := Value.bool true
    let outermost := Forest.define (Forest.grow #[] none []).2 0 x .nil
    let shadowed := Forest.define (outermost.grow (some 0) []).2 1 x .nil
    let f := (Forest.grow (shadowed.grow (some 1) []).2 (some 0) []).2
    f.Built ∧ f.names 2 = [x] ∧
      (f.define 1 x v).get? 2 x = some v ∧ (f.define 1 x v).get? 3 x = f.get? 3 x ∧
      ∃ g, f.assign? 3 x v = some g ∧ g.get? 0 x = some v ∧ g.get? 2 x = f.get? 2 x := by
  intro x v outermost shadowed f
  have hempty : Built (Forest.grow #[] none []).2 := .grown .empty none (by simp)
  have hshadowed : shadowed.Built :=
    ((hempty.defined 0 x .nil).grown (some 0) (by decide)).defined 1 x .nil
  have hbuilt : f.Built := (hshadowed.grown (some 1) (by decide)).grown (some 0) (by decide)
  obtain ⟨-, -, hassign, hdefine, -⟩ := scopes_nest hbuilt
  have hlayered := hbuilt.layered
  have hinner : f.Reaches x 1 2 := .outwards rfl rfl rfl (.here (by decide))
  have houter : f.Reaches x 0 3 := .outwards rfl rfl rfl (.here (by decide))
  have hlocal : f.Resolves 2 x 1 := ⟨hinner, .nil, _, rfl, rfl⟩
  have hglobal : f.Resolves 3 x 0 := ⟨houter, .nil, _, rfl, rfl⟩
  refine ⟨hbuilt, by decide, ?_, ?_, f.define 0 x v, rfl, ?_, ?_⟩
  · exact (hdefine 1 x v (by decide) 2 x).1 ⟨rfl, hinner⟩
  · refine (hdefine 1 x v (by decide) 3 x).2 fun h => ?_
    exact absurd (hglobal.unique hlayered ⟨h.2, .nil, _, rfl, rfl⟩) (by decide)
  · exact ((hassign 3 x v).2 _ rfl 0 x).1 ⟨rfl, 0, hglobal, .here (by decide), .nil, _, rfl, rfl⟩
  · refine ((hassign 3 x v).2 _ rfl 2 x).2 ?_
    rintro ⟨-, owner, hfrom, hseen⟩
    have howner := (hglobal.unique hlayered hfrom).trans (hseen.unique hlayered hlocal)
    exact absurd howner (by decide)

end Lox
