import Lox.Proofs.Scope.Bindings
import Mathlib.Order.Defs.PartialOrder

/-! Two machines whose scopes correspond, but for scopes in which nothing is bound. From scopes that
correspond the same names are seen, and each is found in scopes that correspond. -/
namespace Lox

/-- Which scopes of two machines correspond. -/
structure Pairing where
  /-- A scope of the first machine and the one of the second that corresponds to it. -/
  twins : ScopeId → ScopeId → Prop
  /-- A scope of the first machine in which nothing is ever bound, and the scope around it. -/
  left : ScopeId → ScopeId → Prop
  /-- A scope of the second machine in which nothing is ever bound, and the scope around it. -/
  right : ScopeId → ScopeId → Prop

namespace Pairing

instance : Preorder Pairing where
  le P Q := (∀ i j, P.twins i j → Q.twins i j) ∧ (∀ i p, P.left i p → Q.left i p) ∧
    ∀ j q, P.right j q → Q.right j q
  le_refl _ := ⟨fun _ _ => id, fun _ _ => id, fun _ _ => id⟩
  le_trans _ _ _ h h' := ⟨fun i j ht => h'.1 i j (h.1 i j ht),
    fun i p hl => h'.2.1 i p (h.2.1 i p hl), fun j q hr => h'.2.2 j q (h.2.2 j q hr)⟩

/-- Outwards from the two scopes, scopes that correspond are the first ones that may bind a name. -/
inductive Meet (P : Pairing) : ScopeId → ScopeId → Prop where
  | twins {i j : ScopeId} (h : P.twins i j) : P.Meet i j
  | left {i p j : ScopeId} (h : P.left i p) (outer : P.Meet p j) : P.Meet i j
  | right {i j q : ScopeId} (h : P.right j q) (outer : P.Meet i q) : P.Meet i j

variable {P Q : Pairing}

theorem Meet.mono {i j : ScopeId} (h : P.Meet i j) (hPQ : P ≤ Q) : Q.Meet i j := by
  induction h with
  | twins h => exact .twins (hPQ.1 _ _ h)
  | left h _ ih => exact .left (hPQ.2.1 _ _ h) ih
  | right h _ ih => exact .right (hPQ.2.2 _ _ h) ih

/-- The same value, or functions that differ in their scopes only, and these meet. -/
inductive Same (P : Pairing) : Value → Value → Prop where
  | nil : P.Same .nil .nil
  | bool (b : Bool) : P.Same (.bool b) (.bool b)
  | number (x : Float) : P.Same (.number x) (.number x)
  | string (s : Bytes) : P.Same (.string s) (.string s)
  | native (f : Native) : P.Same (.native f) (.native f)
  | function (f : Closure) {j : ScopeId} (h : P.Meet f.scope j) :
      P.Same (.function f) (.function { f with scope := j })

namespace Same
variable {v w v' w' : Value}

theorem mono (h : P.Same v w) (hPQ : P ≤ Q) : Q.Same v w := by
  cases h with
  | nil => exact .nil
  | bool b => exact .bool b
  | number x => exact .number x
  | string s => exact .string s
  | native f => exact .native f
  | function f h => exact .function f (h.mono hPQ)

theorem ofLiteral (l : Literal) : P.Same (.ofLiteral l) (.ofLiteral l) := by
  cases l with
  | nil => exact .nil
  | bool b => exact .bool b
  | number x => exact .number x
  | string s => exact .string s

theorem isTruthy (h : P.Same v w) : v.isTruthy = w.isTruthy := by cases h <;> rfl

theorem typeName (h : P.Same v w) : v.typeName = w.typeName := by cases h <;> rfl

theorem text (h : P.Same v w) : v.text = w.text := by cases h <;> rfl

theorem equal (h : P.Same v w) (h' : P.Same v' w') : v.equal v' = w.equal w' := by
  cases h <;> cases h' <;> rfl

end Same

theorem bindings_mono {as bs : List (Bytes × Value)} (h : Bindings.Rel P.Same as bs)
    (hPQ : P ≤ Q) : Bindings.Rel Q.Same as bs :=
  List.Forall₂.imp (fun _ _ hab => ⟨hab.1, hab.2.mono hPQ⟩) h

/-- The forests are as the pairing says. Parents are older than their children. -/
structure Holds (P : Pairing) (f g : Forest) : Prop where
  twins : ∀ {i j : ScopeId}, P.twins i j → ∃ s t, f[i]? = some s ∧ g[j]? = some t ∧
    Bindings.Rel P.Same s.bindings t.bindings ∧
    Option.Rel (fun p q => p < i ∧ q < j ∧ P.Meet p q) s.parent t.parent
  left : ∀ {i p : ScopeId}, P.left i p → p < i ∧ f[i]? = some ⟨[], some p⟩
  right : ∀ {j q : ScopeId}, P.right j q → q < j ∧ g[j]? = some ⟨[], some q⟩
  /-- One scope has one twin. -/
  unique : ∀ {i j i' j' : ScopeId}, P.twins i j → P.twins i' j' → (i = i' ↔ j = j')
  apart_left : ∀ {i j p : ScopeId}, P.twins i j → ¬ P.left i p
  apart_right : ∀ {i j q : ScopeId}, P.twins i j → ¬ P.right j q

namespace Holds
variable {f g : Forest} {i j : ScopeId}

theorem lt_size (h : P.Holds f g) (hij : P.Meet i j) : i < f.size ∧ j < g.size := by
  induction hij with
  | twins ht =>
    obtain ⟨s, t, hs, ht, -⟩ := h.twins ht
    exact ⟨(Array.getElem?_eq_some_iff.1 hs).1, (Array.getElem?_eq_some_iff.1 ht).1⟩
  | left hl _ ih => exact ⟨(Array.getElem?_eq_some_iff.1 (h.left hl).2).1, ih.2⟩
  | right hr _ ih => exact ⟨ih.1, (Array.getElem?_eq_some_iff.1 (h.right hr).2).1⟩

/-- Induction along two chains of scopes outwards. -/
theorem along (h : P.Holds f g) {motive : ScopeId → ScopeId → Prop}
    (twins : ∀ {i j s t}, P.twins i j → f[i]? = some s → g[j]? = some t →
      Bindings.Rel P.Same s.bindings t.bindings →
      Option.Rel (fun p q => p < i ∧ q < j ∧ motive p q) s.parent t.parent → motive i j)
    (left : ∀ {i p j}, p < i → f[i]? = some ⟨[], some p⟩ → motive p j → motive i j)
    (right : ∀ {i j q}, q < j → g[j]? = some ⟨[], some q⟩ → motive i q → motive i j)
    (hij : P.Meet i j) : motive i j := by
  generalize hn : i + j = n
  induction n using Nat.strongRecOn generalizing i j with
  | ind n ih =>
    cases hij with
    | twins ht =>
      obtain ⟨s, t, hs, ht', hbindings, hparents⟩ := h.twins ht
      refine twins ht hs ht' hbindings ?_
      generalize s.parent = p, t.parent = q at hparents ⊢
      cases hparents with
      | none => exact .none
      | some hpq =>
        obtain ⟨hp, hq, hmeet⟩ := hpq
        exact .some ⟨hp, hq, ih _ (hn ▸ Nat.add_lt_add hp hq) hmeet rfl⟩
    | left hl hmeet =>
      obtain ⟨hp, hs⟩ := h.left hl
      exact left hp hs (ih _ (hn ▸ Nat.add_lt_add_right hp j) hmeet rfl)
    | right hr hmeet =>
      obtain ⟨hq, ht⟩ := h.right hr
      exact right hq ht (ih _ (hn ▸ Nat.add_lt_add_left hq i) hmeet rfl)

theorem ownerFrom (h : P.Holds f g) (hij : P.Meet i j) (name : Bytes) :
    ∀ {n k : Nat}, i < n → j < k →
      Option.Rel P.twins (Forest.ownerFrom f name n i) (Forest.ownerFrom g name k j) := by
  refine h.along (motive := fun i j => ∀ {n k : Nat}, i < n → j < k →
    Option.Rel P.twins (Forest.ownerFrom f name n i) (Forest.ownerFrom g name k j)) ?_ ?_ ?_ hij
  · intro i j s t htwins hs ht hbindings hparents n k hn hk
    obtain ⟨n, rfl⟩ := Nat.exists_eq_add_one_of_ne_zero (Nat.ne_zero_of_lt hn)
    obtain ⟨k, rfl⟩ := Nat.exists_eq_add_one_of_ne_zero (Nat.ne_zero_of_lt hk)
    unfold Forest.ownerFrom Scope.find?
    rw [hs, ht]
    dsimp only
    rw [hbindings.isSome_lookup name]
    split
    · exact .some htwins
    · generalize s.parent = p, t.parent = q at hparents ⊢
      cases hparents with
      | none => exact .none
      | some hpq =>
        obtain ⟨hp, hq, ih⟩ := hpq
        exact ih (Nat.lt_of_lt_of_le hp (Nat.le_of_lt_succ hn))
          (Nat.lt_of_lt_of_le hq (Nat.le_of_lt_succ hk))
  · intro i p j hp hs ih n k hn hk
    obtain ⟨n, rfl⟩ := Nat.exists_eq_add_one_of_ne_zero (Nat.ne_zero_of_lt hn)
    have hpass : Forest.ownerFrom f name (n + 1) i = Forest.ownerFrom f name n p := by
      rw [Forest.ownerFrom, hs]
      rfl
    rw [hpass]
    exact ih (Nat.lt_of_lt_of_le hp (Nat.le_of_lt_succ hn)) hk
  · intro i j q hq ht ih n k hn hk
    obtain ⟨k, rfl⟩ := Nat.exists_eq_add_one_of_ne_zero (Nat.ne_zero_of_lt hk)
    have hpass : Forest.ownerFrom g name (k + 1) j = Forest.ownerFrom g name k q := by
      rw [Forest.ownerFrom, ht]
      rfl
    rw [hpass]
    exact ih hn (Nat.lt_of_lt_of_le hq (Nat.le_of_lt_succ hk))

theorem owner? (h : P.Holds f g) (hij : P.Meet i j) (name : Bytes) :
    Option.Rel P.twins (f.owner? i name) (g.owner? j name) :=
  h.ownerFrom hij name (h.lt_size hij).1 (h.lt_size hij).2

theorem get? (h : P.Holds f g) (hij : P.Meet i j) (name : Bytes) :
    Option.Rel P.Same (f.get? i name) (g.get? j name) := by
  have howner := h.owner? hij name
  unfold Forest.get?
  generalize f.owner? i name = x, g.owner? j name = y at howner ⊢
  cases howner with
  | none => exact .none
  | some htwins =>
    obtain ⟨s, t, hs, ht, hbindings, -⟩ := h.twins htwins
    dsimp only
    rw [hs, ht]
    exact hbindings.lookup name

theorem flatMap_ownNames (h : P.Holds f g) (hij : P.Meet i j) : ∀ {n k : Nat}, i < n → j < k →
    (f.chainFrom n i).flatMap f.ownNames = (g.chainFrom k j).flatMap g.ownNames := by
  refine h.along (motive := fun i j => ∀ {n k : Nat}, i < n → j < k →
    (f.chainFrom n i).flatMap f.ownNames = (g.chainFrom k j).flatMap g.ownNames) ?_ ?_ ?_ hij
  · intro i j s t _ hs ht hbindings hparents n k hn hk
    obtain ⟨n, rfl⟩ := Nat.exists_eq_add_one_of_ne_zero (Nat.ne_zero_of_lt hn)
    obtain ⟨k, rfl⟩ := Nat.exists_eq_add_one_of_ne_zero (Nat.ne_zero_of_lt hk)
    have hown : f.ownNames i = g.ownNames j := by
      unfold Forest.ownNames
      rw [hs, ht]
      exact hbindings.names
    unfold Forest.chainFrom
    rw [hs, ht]
    dsimp only
    generalize s.parent = p, t.parent = q at hparents ⊢
    cases hparents with
    | none => simp only [List.flatMap_cons, List.flatMap_nil, hown]
    | some hpq =>
      obtain ⟨hp, hq, ih⟩ := hpq
      have hrest := ih (Nat.lt_of_lt_of_le hp (Nat.le_of_lt_succ hn))
        (Nat.lt_of_lt_of_le hq (Nat.le_of_lt_succ hk))
      simp only [List.flatMap_cons, hown, hrest]
  · intro i p j hp hs ih n k hn hk
    obtain ⟨n, rfl⟩ := Nat.exists_eq_add_one_of_ne_zero (Nat.ne_zero_of_lt hn)
    have hpass : (f.chainFrom (n + 1) i).flatMap f.ownNames =
        (f.chainFrom n p).flatMap f.ownNames := by
      simp only [Forest.chainFrom, hs, List.flatMap_cons, Forest.ownNames, List.map_nil,
        List.nil_append]
    rw [hpass]
    exact ih (Nat.lt_of_lt_of_le hp (Nat.le_of_lt_succ hn)) hk
  · intro i j q hq ht ih n k hn hk
    obtain ⟨k, rfl⟩ := Nat.exists_eq_add_one_of_ne_zero (Nat.ne_zero_of_lt hk)
    have hpass : (g.chainFrom (k + 1) j).flatMap g.ownNames =
        (g.chainFrom k q).flatMap g.ownNames := by
      simp only [Forest.chainFrom, ht, List.flatMap_cons, Forest.ownNames, List.map_nil,
        List.nil_append]
    rw [hpass]
    exact ih hn (Nat.lt_of_lt_of_le hq (Nat.le_of_lt_succ hk))

theorem names (h : P.Holds f g) (hij : P.Meet i j) : f.names i = g.names j := by
  unfold Forest.names Forest.chain
  rw [h.flatMap_ownNames hij (h.lt_size hij).1 (h.lt_size hij).2]

/-! What is done to both forests. -/

theorem define (h : P.Holds f g) (hij : P.twins i j) (name : Bytes) {v w : Value}
    (hv : P.Same v w) : P.Holds (f.define i name v) (g.define j name w) := by
  have hsame {i' j' : ScopeId} (hij' : P.twins i' j') : i = i' ↔ j = j' := h.unique hij hij'
  have hleft {i' p : ScopeId} (hl : P.left i' p) : i ≠ i' := fun he => h.apart_left hij (he ▸ hl)
  have hright {j' q : ScopeId} (hr : P.right j' q) : j ≠ j' :=
    fun he => h.apart_right hij (he ▸ hr)
  refine { h with twins := ?_, left := ?_, right := ?_ }
  · intro i' j' hij'
    obtain ⟨s, t, hs, ht, hbindings, hparents⟩ := h.twins hij'
    unfold Forest.define
    rw [Array.getElem?_modify, Array.getElem?_modify, hs, ht]
    by_cases he : i = i'
    · rw [if_pos he, if_pos ((hsame hij').1 he)]
      exact ⟨_, _, rfl, rfl, hbindings.insert name hv, hparents⟩
    · rw [if_neg he, if_neg fun he' => he ((hsame hij').2 he')]
      exact ⟨s, t, rfl, rfl, hbindings, hparents⟩
  · intro i' p hl
    unfold Forest.define
    rw [Array.getElem?_modify, if_neg (hleft hl)]
    exact h.left hl
  · intro j' q hr
    unfold Forest.define
    rw [Array.getElem?_modify, if_neg (hright hr)]
    exact h.right hr

end Holds

/-- One more pair of twins. -/
def withTwins (P : Pairing) (i j : ScopeId) : Pairing :=
  { P with twins := fun i' j' => P.twins i' j' ∨ i' = i ∧ j' = j }

/-- One more scope of the first machine in which nothing is bound. -/
def withLeft (P : Pairing) (i p : ScopeId) : Pairing :=
  { P with left := fun i' p' => P.left i' p' ∨ i' = i ∧ p' = p }

/-- One more scope of the second machine in which nothing is bound. -/
def withRight (P : Pairing) (j q : ScopeId) : Pairing :=
  { P with right := fun j' q' => P.right j' q' ∨ j' = j ∧ q' = q }

theorem le_withTwins (i j : ScopeId) : P ≤ P.withTwins i j :=
  ⟨fun _ _ => .inl, fun _ _ => id, fun _ _ => id⟩

theorem le_withLeft (i p : ScopeId) : P ≤ P.withLeft i p :=
  ⟨fun _ _ => id, fun _ _ => .inl, fun _ _ => id⟩

theorem le_withRight (j q : ScopeId) : P ≤ P.withRight j q :=
  ⟨fun _ _ => id, fun _ _ => id, fun _ _ => .inl⟩

namespace Holds
variable {f g : Forest} {i j : ScopeId}

theorem lt_of_twins (h : P.Holds f g) (hij : P.twins i j) : i < f.size ∧ j < g.size :=
  h.lt_size (.twins hij)

theorem lt_of_left (h : P.Holds f g) {p : ScopeId} (hl : P.left i p) : i < f.size :=
  (Array.getElem?_eq_some_iff.1 (h.left hl).2).1

theorem lt_of_right (h : P.Holds f g) {q : ScopeId} (hr : P.right j q) : j < g.size :=
  (Array.getElem?_eq_some_iff.1 (h.right hr).2).1

theorem getElem?_push {s t : Scope} (hs : f[i]? = some s) : (f.push t)[i]? = some s := by
  have hi : i < f.size := (Array.getElem?_eq_some_iff.1 hs).1
  rw [Array.getElem?_push, if_neg (Nat.ne_of_lt hi), hs]

/-- Twins go on being twins in forests that have grown. -/
theorem twins_of_le (h : P.Holds f g) (hPQ : P ≤ Q) {f' g' : Forest}
    (hf : ∀ {i : ScopeId} {s : Scope}, f[i]? = some s → f'[i]? = some s)
    (hg : ∀ {j : ScopeId} {t : Scope}, g[j]? = some t → g'[j]? = some t) (hij : P.twins i j) :
    ∃ s t, f'[i]? = some s ∧ g'[j]? = some t ∧ Bindings.Rel Q.Same s.bindings t.bindings ∧
      Option.Rel (fun p q => p < i ∧ q < j ∧ Q.Meet p q) s.parent t.parent := by
  obtain ⟨s, t, hs, ht, hbindings, hparents⟩ := h.twins hij
  refine ⟨s, t, hf hs, hg ht, bindings_mono hbindings hPQ, ?_⟩
  generalize s.parent = p, t.parent = q at hparents ⊢
  cases hparents with
  | none => exact .none
  | some hpq => exact .some ⟨hpq.1, hpq.2.1, hpq.2.2.mono hPQ⟩

/-- Scopes entered on both sides are twins. -/
theorem push (h : P.Holds f g) {as bs : List (Bytes × Value)} (hb : Bindings.Rel P.Same as bs)
    {p q : ScopeId} (hpq : P.Meet p q) :
    (P.withTwins f.size g.size).Holds (f.push ⟨as, some p⟩) (g.push ⟨bs, some q⟩) where
  twins := by
    rintro i j (hij | ⟨rfl, rfl⟩)
    · exact h.twins_of_le (le_withTwins _ _) getElem?_push getElem?_push hij
    · refine ⟨_, _, Array.getElem?_push_size, Array.getElem?_push_size,
        bindings_mono hb (le_withTwins _ _), ?_⟩
      exact .some ⟨(h.lt_size hpq).1, (h.lt_size hpq).2, hpq.mono (le_withTwins _ _)⟩
  left hl := ⟨(h.left hl).1, getElem?_push (h.left hl).2⟩
  right hr := ⟨(h.right hr).1, getElem?_push (h.right hr).2⟩
  unique := by
    rintro i j i' j' (hij | ⟨rfl, rfl⟩) (hij' | ⟨rfl, rfl⟩)
    · exact h.unique hij hij'
    · exact iff_of_false (Nat.ne_of_lt (h.lt_of_twins hij).1) (Nat.ne_of_lt (h.lt_of_twins hij).2)
    · exact iff_of_false (Nat.ne_of_gt (h.lt_of_twins hij').1)
        (Nat.ne_of_gt (h.lt_of_twins hij').2)
    · exact iff_of_true rfl rfl
  apart_left := by
    rintro i j p (hij | ⟨rfl, rfl⟩) hl
    · exact h.apart_left hij hl
    · exact Nat.lt_irrefl _ (h.lt_of_left hl)
  apart_right := by
    rintro i j q (hij | ⟨rfl, rfl⟩) hr
    · exact h.apart_right hij hr
    · exact Nat.lt_irrefl _ (h.lt_of_right hr)

/-- A scope entered on the first side only. -/
theorem push_left (h : P.Holds f g) {p : ScopeId} (hp : p < f.size) :
    (P.withLeft f.size p).Holds (f.push ⟨[], some p⟩) g where
  twins hij := h.twins_of_le (le_withLeft _ _) getElem?_push id hij
  left := by
    rintro i p' (hl | ⟨rfl, rfl⟩)
    · exact ⟨(h.left hl).1, getElem?_push (h.left hl).2⟩
    · exact ⟨hp, Array.getElem?_push_size⟩
  right hr := h.right hr
  unique hij hij' := h.unique hij hij'
  apart_left := by
    rintro i j p' hij (hl | ⟨rfl, -⟩)
    · exact h.apart_left hij hl
    · exact Nat.lt_irrefl _ (h.lt_of_twins hij).1
  apart_right hij hr := h.apart_right hij hr

/-- A scope entered on the second side only. -/
theorem push_right (h : P.Holds f g) {q : ScopeId} (hq : q < g.size) :
    (P.withRight g.size q).Holds f (g.push ⟨[], some q⟩) where
  twins hij := h.twins_of_le (le_withRight _ _) id getElem?_push hij
  left hl := h.left hl
  right := by
    rintro j q' (hr | ⟨rfl, rfl⟩)
    · exact ⟨(h.right hr).1, getElem?_push (h.right hr).2⟩
    · exact ⟨hq, Array.getElem?_push_size⟩
  unique hij hij' := h.unique hij hij'
  apart_left hij hl := h.apart_left hij hl
  apart_right := by
    rintro i j q' hij (hr | ⟨rfl, -⟩)
    · exact h.apart_right hij hr
    · exact Nat.lt_irrefl _ (h.lt_of_twins hij).2

end Holds

/-- Every scope of the first machine has a twin or is one in which nothing is bound. -/
def Covers (P : Pairing) (f : Forest) : Prop :=
  ∀ i < f.size, (∃ j, P.twins i j) ∨ ∃ p, P.left i p

theorem Covers.define {f : Forest} (h : P.Covers f) (id : ScopeId) (name : Bytes) (v : Value) :
    P.Covers (f.define id name v) := by
  intro i hi
  exact h i (Nat.lt_of_lt_of_eq hi Array.size_modify)

theorem Covers.push {f : Forest} (h : P.Covers f) (hPQ : P ≤ Q) (s : Scope)
    (hnew : (∃ j, Q.twins f.size j) ∨ ∃ p, Q.left f.size p) : Q.Covers (f.push s) := by
  intro i hi
  obtain hi | rfl := Nat.lt_or_eq_of_le (Nat.le_of_lt_succ (Array.size_push s ▸ hi))
  · exact (h i hi).imp (fun ⟨j, hj⟩ => ⟨j, hPQ.1 i j hj⟩) fun ⟨p, hp⟩ => ⟨p, hPQ.2.1 i p hp⟩
  · exact hnew

/-- Each of so many scopes is its own twin. -/
def identity (n : Nat) : Pairing where
  twins i j := i = j ∧ i < n
  left _ _ := False
  right _ _ := False

end Pairing

/-- The value is no function of a scope beyond the first `n`. -/
def Value.Within (n : Nat) : Value → Prop
  | .function f => f.scope < n
  | .nil | .bool _ | .number _ | .string _ | .native _ => True

/-- Every scope stands inside an older one or inside none, and every function that is bound was
declared in a scope that there is. -/
structure Forest.Grounded (f : Forest) : Prop where
  older : ∀ {i p : ScopeId} {s : Scope}, f[i]? = some s → s.parent = some p → p < i
  within : ∀ {i : ScopeId} {s : Scope}, f[i]? = some s → ∀ b ∈ s.bindings, b.2.Within f.size

namespace Pairing
variable {P : Pairing}

theorem same_self {n : Nat} {v : Value} (h : v.Within n) : (identity n).Same v v := by
  cases v with
  | nil => exact .nil
  | bool b => exact .bool b
  | number x => exact .number x
  | string s => exact .string s
  | native f => exact .native f
  | function f => exact .function f (.twins ⟨rfl, h⟩)

theorem Same.within {f g : Forest} (h : P.Holds f g) {v w : Value} (hv : P.Same v w) :
    v.Within f.size := by
  cases hv with
  | function c hscope => exact (h.lt_size hscope).1
  | _ => trivial

theorem covers_identity (f : Forest) : (identity f.size).Covers f :=
  fun i hi => .inl ⟨i, rfl, hi⟩

theorem holds_identity {f : Forest} (h : f.Grounded) : (identity f.size).Holds f f where
  twins := by
    rintro i _ ⟨rfl, hi⟩
    have hs : f[i]? = some f[i] := Array.getElem?_eq_getElem hi
    refine ⟨_, _, hs, hs, List.forall₂_same.2 fun b hb => ⟨rfl, same_self (h.within hs b hb)⟩, ?_⟩
    cases hparent : f[i].parent with
    | none => exact .none
    | some p =>
      have hp := h.older hs hparent
      exact .some ⟨hp, hp, .twins ⟨rfl, Nat.lt_trans hp hi⟩⟩
  left := False.elim
  right := False.elim
  unique := by
    rintro i _ i' _ ⟨rfl, -⟩ ⟨rfl, -⟩
    exact Iff.rfl
  apart_left _ := id
  apart_right _ := id

theorem Holds.grounded {f g : Forest} (h : P.Holds f g) (hcovers : P.Covers f) : f.Grounded where
  older {i p s} hs hparent := by
    obtain ⟨j, hij⟩ | ⟨p', hl⟩ := hcovers i (Array.getElem?_eq_some_iff.1 hs).1
    · obtain ⟨s', t, hs', -, -, hparents⟩ := h.twins hij
      cases hs.symm.trans hs'
      rw [hparent] at hparents
      generalize t.parent = q at hparents
      cases hparents with
      | some hpq => exact hpq.1
    · obtain ⟨hp, hs'⟩ := h.left hl
      cases hs.symm.trans hs'
      cases hparent
      exact hp
  within {i s} hs b hb := by
    obtain ⟨j, hij⟩ | ⟨p, hl⟩ := hcovers i (Array.getElem?_eq_some_iff.1 hs).1
    · obtain ⟨s', t, hs', -, hbindings, -⟩ := h.twins hij
      cases hs.symm.trans hs'
      have hwithin : List.Forall₂ (fun a _ => a.2.Within f.size ∧ True) s.bindings t.bindings :=
        hbindings.imp fun _ _ hab => ⟨hab.2.within h, trivial⟩
      exact ((List.forall₂_and_left _ _).1 hwithin).1 b hb
    · cases hs.symm.trans (h.left hl).2
      cases hb

end Pairing
end Lox
