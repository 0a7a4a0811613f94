import Lox.Proofs.Machine.Frame
import Lox.Proofs.Machine.Fuel
import Lox.Syntax.Statement
import Lox.Token.Scan

/-! A higher limit of calls changes nothing for a program that stays below the lower one. A program
that reaches the lower limit has printed the beginning of what it prints under the higher one. -/
namespace Lox.Exec
variable {α β : Type}

/-- The second computation ends as the first does; or the first has no call left, and then it has
printed the beginning of what the second prints. -/
def CutShort (x y : Exec α) : Prop := ∀ m, x m = y m ∨ ∃ paren m',
  x m = .error (.fault ⟨.stackOverflow, paren⟩) m' ∧
    m'.printed.toList <+: (final (y m)).printed.toList

namespace CutShort

theorem refl (x : Exec α) : CutShort x x := fun _ => .inl rfl

theorem bind {x y : Exec α} {f g : α → Exec β} (hx : CutShort x y)
    (hf : ∀ a, CutShort (f a) (g a)) (hg : ∀ a, Returns (g a)) :
    CutShort (x >>= f) (y >>= g) := by
  intro m
  change EStateM.bind x f m = EStateM.bind y g m ∨ ∃ paren m',
    EStateM.bind x f m = .error (.fault ⟨.stackOverflow, paren⟩) m' ∧
      m'.printed.toList <+: (final (EStateM.bind y g m)).printed.toList
  unfold EStateM.bind
  obtain h | ⟨paren, m', h, hprinted⟩ := hx m
  · rw [h]
    cases y m with
    | ok a m₁ => exact hf a m₁
    | error e m₁ => exact .inl rfl
  · rw [h]
    refine .inr ⟨paren, m', rfl, hprinted.trans ?_⟩
    cases y m with
    | ok a m₁ => exact (hg a m₁).printed
    | error e m₁ => exact List.prefix_rfl

theorem inScope (parent : ScopeId) (bindings : List (Bytes × Value)) {x y : Exec α}
    (h : CutShort x y) : CutShort (inScope parent bindings x) (inScope parent bindings y) := by
  intro m
  unfold Exec.inScope
  dsimp only
  obtain h | ⟨paren, m', h, hprinted⟩ := h { m with
    scopes := m.scopes.push ⟨bindings, some parent⟩, current := m.scopes.size }
  · rw [h]
    exact .inl rfl
  · rw [h]
    refine .inr ⟨paren, _, rfl, ?_⟩
    generalize y _ = r at hprinted ⊢
    cases r with
    | ok a m₁ => exact hprinted
    | error e m₁ => exact hprinted

theorem asCall {limit limit' : Nat} (hlimit : limit ≤ limit') (paren : Token) {x y : Exec α}
    (h : CutShort x y) (hy : Returns y) :
    CutShort (asCall limit paren x) (asCall limit' paren y) := by
  intro m
  by_cases hdepth : limit ≤ m.depth
  · -- The first has no call left; whatever the second does, it only adds to what is printed.
    have hover : Exec.asCall limit paren x m = .error (.fault ⟨.stackOverflow, paren⟩) m :=
      if_pos hdepth
    exact .inr ⟨paren, m, hover, (hy.asCall limit' paren m).printed⟩
  · have hdepth' : ¬ limit' ≤ m.depth := fun h => hdepth (Nat.le_trans hlimit h)
    unfold Exec.asCall
    rw [if_neg hdepth, if_neg hdepth']
    obtain h | ⟨inner, m', h, hprinted⟩ := h { m with depth := m.depth + 1 }
    · rw [h]
      exact .inl rfl
    · rw [h]
      refine .inr ⟨inner, _, rfl, ?_⟩
      generalize y _ = r at hprinted ⊢
      cases r with
      | ok a m₁ => exact hprinted
      | error e m₁ => exact hprinted

end CutShort

/-- Code under a lower limit is cut short by the limit at most. -/
def lowering {limit limit' : Nat} (hlimit : limit ≤ limit') : Congruence limit limit' where
  rel x y := CutShort x y ∧ Returns y
  elementary h := ⟨.refl _, returns_elementary h⟩
  bind hx hf := ⟨hx.1.bind (fun a => (hf a).1) fun a => (hf a).2, hx.2.bind fun a => (hf a).2⟩
  inScope parent bindings _ _ h := ⟨h.1.inScope parent bindings, h.2.inScope parent bindings⟩
  asCall paren _ _ h := ⟨h.1.asCall hlimit paren h.2, h.2.asCall limit' paren⟩

/-- The computation has come to its end. -/
def ended : EStateM.Result Halt Machine α → Bool
  | .error .exhausted _ => false
  | _ => true

/-- The code of the fault in which a computation ends. -/
def faultCode? : EStateM.Result Halt Machine α → Option String
  | .error (.fault f) _ => some f.code
  | _ => none

theorem ExtendedBy.eq_of_ended {x y : Exec α} {m : Machine} (h : ExtendedBy x y)
    (hended : ended (x m) = true) : x m = y m := by
  obtain heq | ⟨m', hexhausted⟩ := h m
  · exact heq
  · rw [hexhausted] at hended
    cases hended

theorem run_eq_of_le {limit n k : Nat} {ss : List Stmt} {m : Machine} (h : n ≤ k)
    (hn : ended (run limit n ss m) = true) : run limit k ss m = run limit n ss m :=
  ((extendedBy_run limit h ss).eq_of_ended hn).symm

/-- A program that does not end by the limit of calls does the same under every higher limit, and
in as many steps: it ends or not, and if it ends, then with the same fault if any, and with the
machine in the same state. A program that ends by the limit has printed the beginning of what it
prints under every higher limit under which it ends. -/
theorem run_monotone_in_limit {limit limit' : Nat} (hlimit : limit ≤ limit') (ss : List Stmt)
    (m : Machine) :
    (∀ fuel, faultCode? (run limit fuel ss m) ≠ some "E3008" →
      run limit' fuel ss m = run limit fuel ss m) ∧
    ∀ fuel fuel', faultCode? (run limit fuel ss m) = some "E3008" →
      ended (run limit' fuel' ss m) = true →
      (final (run limit fuel ss m)).printed.toList <+:
        (final (run limit' fuel' ss m)).printed.toList := by
  have hcut (fuel : Nat) := ((lowering hlimit).run fuel ss).1 m
  constructor
  · intro fuel hcode
    obtain h | ⟨paren, m', h, -⟩ := hcut fuel
    · exact h.symm
    · rw [h] at hcode
      exact absurd rfl hcode
  · intro fuel fuel' hcode hended'
    have hended : ended (run limit fuel ss m) = true := by
      generalize run limit fuel ss m = r at hcode
      unfold faultCode? at hcode
      split at hcode
      · rfl
      · cases hcode
    -- With as many steps as either run took, both come to the same ends.
    rw [← run_eq_of_le (Nat.le_max_left fuel fuel') hended,
      ← run_eq_of_le (Nat.le_max_right fuel fuel') hended']
    obtain h | ⟨paren, m', h, hprinted⟩ := hcut (max fuel fuel')
    · simp only [h]
      exact List.prefix_rfl
    · rw [h]
      exact hprinted

/-- A function that is called with itself, and then once more, needs two calls at a time. The clock
moves on when it is read. -/
theorem run_monotone_in_limit_twice :
    let source := utf8 "clock(); fun f(g) \x7b print \"x\"; if (g) g(nil); \x7d f(f);"
    let ss := ((Program.parse? (Scan.ofSource source).tokens).map (·.statements)).getD []
    let m := Machine.fresh ⟨fun reading => reading⟩
    1 ≤ 2 ∧ 2 ≤ 3 ∧ faultCode? (run 1 20 ss m) = some "E3008" ∧
      (final (run 1 20 ss m)).printed.toList = [utf8 "x"] ∧
      (final (run 2 20 ss m)).printed.toList = [utf8 "x", utf8 "x"] ∧
      (final (run 1 20 ss m)).printed.toList <+: (final (run 2 20 ss m)).printed.toList ∧
      run 3 20 ss m = run 2 20 ss m := by
  intro source ss m
  have hover : faultCode? (run 1 20 ss m) = some "E3008" := by decide +kernel
  have hended : ended (run 2 20 ss m) = true := by decide +kernel
  have hcode : faultCode? (run 2 20 ss m) ≠ some "E3008" := by decide +kernel
  have hone : (final (run 1 20 ss m)).printed.toList = [utf8 "x"] := by decide +kernel
  have htwo : (final (run 2 20 ss m)).printed.toList = [utf8 "x", utf8 "x"] := by decide +kernel
  have hlow : 1 ≤ 2 := by decide
  have hhigh : 2 ≤ 3 := by decide
  have hbegins := (run_monotone_in_limit hlow ss m).2 20 20 hover hended
  have hsame := (run_monotone_in_limit hhigh ss m).1 20 hcode
  exact ⟨hlow, hhigh, hover, hone, htwo, hbegins, hsame⟩

end Lox.Exec
