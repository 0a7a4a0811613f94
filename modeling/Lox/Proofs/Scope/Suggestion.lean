import Lox.Proofs.Scope.Lookup

/-! The name that is suggested where one is undefined. The candidates ascend, and a later one is
taken only where it is nearer; so of those at the least distance the first is taken. -/
namespace Lox

namespace Suggestion
variable {name c : Bytes} {candidates : List Bytes}

/-- Among the candidates other than the name itself none is nearer, and no other one that is as near
comes before it. -/
structure Preferred (name : Bytes) (candidates : List Bytes) (c : Bytes) : Prop where
  candidate : c ∈ candidates
  differs : c ≠ name
  nearest : ∀ o ∈ candidates, o ≠ name → distance name c ≤ distance name o
  first : ∀ o ∈ candidates, o ≠ name → distance name o = distance name c → c ≤ o

/-- A candidate before all others is preferred if none of them is nearer. -/
theorem Preferred.head (hc : c ≠ name) (hbefore : ∀ o ∈ candidates, c < o)
    (h : ∀ o ∈ candidates, o ≠ name → distance name c ≤ distance name o) :
    Preferred name (c :: candidates) c where
  candidate := List.mem_cons_self
  differs := hc
  nearest := List.forall_mem_cons.2 ⟨fun _ => Nat.le_refl _, h⟩
  first := List.forall_mem_cons.2
    ⟨fun _ _ => Std.le_refl _, fun o ho _ _ => Std.le_of_lt (hbefore o ho)⟩

/-- A preferred candidate is still preferred behind one that is farther away or is the name. -/
theorem Preferred.tail {d : Bytes} (h : Preferred name candidates c)
    (hd : d ≠ name → distance name c < distance name d) : Preferred name (d :: candidates) c where
  candidate := List.mem_cons_of_mem d h.candidate
  differs := h.differs
  nearest := List.forall_mem_cons.2 ⟨fun hne => Nat.le_of_lt (hd hne), h.nearest⟩
  first := List.forall_mem_cons.2
    ⟨fun hne heq => absurd heq (Nat.ne_of_gt (hd hne)), h.first⟩

/-- Either no candidate is nearer than `bound`, or the preferred one is found. -/
theorem nearest_cases (name : Bytes) (bound : Nat) (best : Bytes) {candidates : List Bytes}
    (h : candidates.Pairwise (· < ·)) :
    (nearest name bound best candidates = best ∧
      ∀ o ∈ candidates, o ≠ name → bound ≤ distance name o) ∨
    ∃ c, nearest name bound best candidates = c ∧ distance name c < bound ∧
      Preferred name candidates c := by
  induction candidates generalizing bound best with
  | nil => exact .inl ⟨rfl, List.forall_mem_nil _⟩
  | cons d rest ih =>
    obtain ⟨hbefore, hrest⟩ := List.pairwise_cons.1 h
    unfold nearest
    split
    next hname =>
      have hskip {P : Prop} (hne : d ≠ name) : P := absurd (eq_of_beq hname) hne
      obtain ⟨heq, hfar⟩ | ⟨c, heq, hc, hpreferred⟩ := ih bound best hrest
      · exact .inl ⟨heq, List.forall_mem_cons.2 ⟨hskip, hfar⟩⟩
      · exact .inr ⟨c, heq, hc, hpreferred.tail hskip⟩
    next hname =>
      have hne : d ≠ name := fun heq => hname (beq_iff_eq.2 heq)
      dsimp only
      split
      next hnear =>
        -- The candidate is the best so far; it stays so unless a later one is strictly nearer.
        obtain ⟨heq, hfar⟩ | ⟨c, heq, hc, hpreferred⟩ := ih (distance name d) d hrest
        · exact .inr ⟨d, heq, hnear, .head hne hbefore hfar⟩
        · exact .inr ⟨c, heq, Nat.lt_trans hc hnear, hpreferred.tail fun _ => hc⟩
      next hfar =>
        have hbound := Nat.le_of_not_lt hfar
        obtain ⟨heq, hrestFar⟩ | ⟨c, heq, hc, hpreferred⟩ := ih bound best hrest
        · exact .inl ⟨heq, List.forall_mem_cons.2 ⟨fun _ => hbound, hrestFar⟩⟩
        · exact .inr ⟨c, heq, hc, hpreferred.tail fun _ => Nat.lt_of_lt_of_le hc hbound⟩

theorem limit_eq (name : Bytes) : limit name = max 1 (min 3 (Utf8.length name / 3)) := by
  unfold limit
  omega

/-- There is a suggestion if a candidate is near enough, and it is the preferred candidate. -/
theorem closest?_cases (hsorted : candidates.Pairwise (· < ·)) (hnonempty : [] ∉ candidates)
    (hname : name ∉ candidates) :
    (closest? name candidates = none ∧ ∀ o ∈ candidates, limit name < distance name o) ∨
    ∃ c, closest? name candidates = some c ∧ distance name c ≤ limit name ∧
      Preferred name candidates c := by
  unfold closest?
  obtain ⟨heq, hfar⟩ | ⟨c, heq, hc, hpreferred⟩ := nearest_cases name (limit name + 1) [] hsorted
  · rw [heq]
    exact .inl ⟨rfl, fun o ho => hfar o ho fun h => hname (h ▸ ho)⟩
  · rw [heq]
    have hempty : c.isEmpty = false := by
      rw [List.isEmpty_eq_false_iff]
      exact fun h => hnonempty (h ▸ hpreferred.candidate)
    exact .inr ⟨c, by simp [hempty], Nat.le_of_lt_succ hc, hpreferred⟩

end Suggestion

namespace Forest
variable {f : Forest} {id : ScopeId} {name : Bytes}

/-- The name is bound in a scope on the way outwards. -/
def Visible (f : Forest) (id : ScopeId) (name : Bytes) : Prop :=
  ∃ owner value, f.Reaches name owner id ∧ f.Binds owner name value

theorem visible_iff_get? (hf : f.Layered) :
    f.Visible id name ↔ ∃ value, f.get? id name = some value := by
  rw [Visible, exists_comm]
  exact exists_congr fun value => (get?_eq_some_iff hf).symm

theorem mem_names_iff_visible (hf : f.Layered) : name ∈ f.names id ↔ f.Visible id name := by
  rw [mem_names_iff, visible_iff_get? hf, Option.isSome_iff_exists]

theorem Visible.bound (h : f.Visible id name) : ∃ s ∈ f, ∃ b ∈ s.bindings, b.1 = name := by
  obtain ⟨owner, value, -, s, hs, hfind⟩ := h
  have hmem : name ∈ s.bindings.map (·.1) := (s.mem_names_iff name).2 (by rw [hfind]; rfl)
  obtain ⟨b, hb, hname⟩ := List.mem_map.1 hmem
  exact ⟨s, Array.mem_of_getElem? hs, b, hb, hname⟩

end Forest

theorem RuntimeFault.hint_unsuggested (t : Token) :
    (RuntimeFault.mk (.undefinedVariable none) t).diagnostic.hint = [] := rfl

theorem RuntimeFault.hint_suggested (c : Bytes) (t : Token) :
    (RuntimeFault.mk (.undefinedVariable (some c)) t).diagnostic.hint =
      utf8 "did you mean '" ++ c ++ utf8 "'?" := by
  have hopen : utf8 "did you mean '" = utf8 "did you mean " ++ utf8 "'" := by decide
  have hclose : utf8 "'?" = utf8 "'" ++ utf8 "?" := by decide
  have hhint : (RuntimeFault.mk (.undefinedVariable (some c)) t).diagnostic.hint =
      utf8 "did you mean " ++ (utf8 "'" ++ c ++ utf8 "'") ++ utf8 "?" := rfl
  rw [hhint, hopen, hclose]
  simp only [List.append_assoc]

open Suggestion (distance)

/-- The fault of an undefined name has a hint if and only if a visible name is near enough, which
means a third of its characters but one at least and three at most. The hint is the nearest visible
name, and of those that are as near the first in the order of bytes; it is not the name itself and
it has a value there. -/
theorem Exec.hint_is_nearest_visible_name {m : Machine} (hf : m.scopes.Built)
    (hnonempty : ∀ s ∈ m.scopes, ∀ b ∈ s.bindings, b.1 ≠ []) {name : Token}
    (hundefined : ¬ m.scopes.Visible m.current name.lexeme) :
    ∃ fault : RuntimeFault, lookUp name m = .error (.fault fault) m ∧
      (∀ v, Exec.assign name v m = .error (.fault fault) m) ∧
      fault.code = "E3004" ∧ fault.token = name ∧
      (fault.diagnostic.hint ≠ [] ↔ ∃ c, m.scopes.Visible m.current c ∧
        distance name.lexeme c ≤ max 1 (min 3 (Utf8.length name.lexeme / 3))) ∧
      (fault.diagnostic.hint ≠ [] → ∃ c,
        fault.diagnostic.hint = utf8 "did you mean '" ++ c ++ utf8 "'?" ∧
        m.scopes.Visible m.current c ∧
        (∀ o, m.scopes.Visible m.current o → distance name.lexeme c ≤ distance name.lexeme o) ∧
        (∀ o, m.scopes.Visible m.current o →
          distance name.lexeme o = distance name.lexeme c → c ≤ o) ∧
        c ≠ name.lexeme ∧ ∃ v, m.scopes.get? m.current c = some v) := by
  have hlayered := hf.layered
  have hvisible {c : Bytes} : c ∈ m.scopes.names m.current ↔ m.scopes.Visible m.current c :=
    Forest.mem_names_iff_visible hlayered
  have hnone : m.scopes.get? m.current name.lexeme = none := by
    rw [Forest.visible_iff_get? hlayered] at hundefined
    exact Option.eq_none_iff_forall_ne_some.2 fun v hv => hundefined ⟨v, hv⟩
  have hname : name.lexeme ∉ m.scopes.names m.current := fun h => hundefined (hvisible.1 h)
  have hother {o : Bytes} (ho : m.scopes.Visible m.current o) : o ≠ name.lexeme :=
    fun h => hundefined (h ▸ ho)
  have hempty : [] ∉ m.scopes.names m.current := by
    intro h
    obtain ⟨s, hs, b, hb, hnil⟩ := (hvisible.1 h).bound
    exact hnonempty s hs b hb hnil
  refine ⟨m.scopes.undefinedName m.current name, by rw [lookUp, hnone], fun v => ?_, rfl, rfl, ?_⟩
  · have howner : m.scopes.owner? m.current name.lexeme = none := by
      rw [← Option.not_isSome_iff_eq_none, ← Forest.isSome_get?, hnone]
      exact Bool.false_ne_true
    rw [Exec.assign, howner]
  have hcases := Suggestion.closest?_cases (Forest.ascending_names m.scopes m.current) hempty hname
  rw [← Suggestion.limit_eq]
  unfold Forest.undefinedName
  obtain ⟨hclosest, hfar⟩ | ⟨c, hclosest, hnear, hpreferred⟩ := hcases
  · rw [hclosest, RuntimeFault.hint_unsuggested]
    refine ⟨⟨fun h => absurd rfl h, ?_⟩, fun h => absurd rfl h⟩
    rintro ⟨c, hc, hnear⟩
    exact absurd (hfar c (hvisible.2 hc)) (Nat.not_lt_of_le hnear)
  · rw [hclosest, RuntimeFault.hint_suggested]
    have hc := hvisible.1 hpreferred.candidate
    have hhint : utf8 "did you mean '" ++ c ++ utf8 "'?" ≠ [] :=
      List.append_ne_nil_of_right_ne_nil _ (by decide)
    refine ⟨⟨fun _ => ⟨c, hc, hnear⟩, fun _ => hhint⟩, fun _ => ⟨c, rfl, hc, ?_, ?_, ?_⟩⟩
    · exact fun o ho => hpreferred.nearest o (hvisible.2 ho) (hother ho)
    · exact fun o ho => hpreferred.first o (hvisible.2 ho) (hother ho)
    · exact ⟨hpreferred.differs, (Forest.visible_iff_get? hlayered).1 hc⟩

/-- Two names are as near, one of them bound in the scope itself and one around it too; the first in
the order of bytes is suggested. -/
theorem Exec.hint_is_nearest_visible_name_tie :
    let name : Token := ⟨.identifier, utf8 "value", .nil, .start⟩
    let outer := Forest.define (Forest.grow #[] none []).2 0 (utf8 "values") .nil
    let inner := Forest.define (outer.grow (some 0) []).2 1 (utf8 "values") .nil
    let m : Machine := { scopes := inner.define 1 (utf8 "valued") .nil, current := 1 }
    m.scopes.Built ∧ (∀ s ∈ m.scopes, ∀ b ∈ s.bindings, b.1 ≠ []) ∧
      ¬ m.scopes.Visible m.current name.lexeme ∧
      ∃ fault : RuntimeFault, lookUp name m = .error (.fault fault) m ∧
        fault.diagnostic.hint = utf8 "did you mean 'valued'?" ∧
        (∀ o, m.scopes.Visible m.current o →
          distance name.lexeme (utf8 "valued") ≤ distance name.lexeme o) ∧
        ∃ v, m.scopes.get? m.current (utf8 "valued") = some v := by
  intro name outer inner m
  have hempty : Forest.Built (Forest.grow #[] none []).2 := .grown .empty none (by simp)
  have hbuilt : m.scopes.Built :=
    (((hempty.defined 0 _ .nil).grown (some 0) (by decide)).defined 1 _ .nil).defined 1 _ .nil
  have hnonempty : ∀ s ∈ m.scopes, ∀ b ∈ s.bindings, b.1 ≠ [] := by
    have hall : ∀ s ∈ m.scopes.toList, (s.bindings.all fun b => !b.1.isEmpty) = true := by decide
    intro s hs b hb
    simpa using List.all_eq_true.1 (hall s (Array.mem_toList_iff.2 hs)) b hb
  have hundefined : ¬ m.scopes.Visible m.current name.lexeme := by
    rw [← Forest.mem_names_iff_visible hbuilt.layered]
    decide
  obtain ⟨fault, hlook, -, -, -, -, hhint⟩ :=
    hint_is_nearest_visible_name hbuilt hnonempty hundefined
  have hfault : fault = m.scopes.undefinedName m.current name := by
    cases hlook
    rfl
  have hshown : fault.diagnostic.hint = utf8 "did you mean 'valued'?" := by
    rw [hfault]
    decide +kernel
  obtain ⟨c, htext, -, hnearest, -, -, hvalue⟩ := hhint (by rw [hshown]; decide)
  have hc : c = utf8 "valued" := by
    have hsplit : utf8 "did you mean 'valued'?" =
        utf8 "did you mean '" ++ utf8 "valued" ++ utf8 "'?" := by decide
    rw [hshown, hsplit, List.append_assoc, List.append_assoc] at htext
    exact (List.append_cancel_right (List.append_cancel_left htext)).symm
  subst hc
  exact ⟨hbuilt, hnonempty, hundefined, fault, hlook, hshown, hnearest, hvalue⟩

end Lox
