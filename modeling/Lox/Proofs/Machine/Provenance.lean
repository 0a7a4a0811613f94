import Lox.Proofs.Machine.Course

/-! Where faults arise. The token of a fault is one of those that the code is made of, whether it is
the code of the program that is run or of a function that was declared before; and the token is of a
kind that belongs to the fault. -/
namespace Lox

namespace RuntimeFault

/-- The codes of the faults that a program can raise, each with the kinds of the tokens at which it
arises: operators, names, and the parentheses that close the arguments of calls. -/
def sites : List (String × List Kind) :=
  [("E3001", [.minus, .plusPlus, .minusMinus]),
   ("E3002", [.minus, .star, .slash, .less, .lessEqual, .greater, .greaterEqual]),
   ("E3003", [.plus]),
   ("E3004", [.identifier]),
   ("E3005", [.slash]),
   ("E3006", [.rightParen]),
   ("E3007", [.rightParen]),
   ("E3008", [.rightParen])]

/-- A fault with the code arises at tokens of the kind. -/
def ArisesAt (code : String) (k : Kind) : Prop := ∃ site ∈ sites, site.1 = code ∧ k ∈ site.2

instance (code : String) (k : Kind) : Decidable (ArisesAt code k) :=
  inferInstanceAs (Decidable (∃ site ∈ sites, site.1 = code ∧ k ∈ site.2))

theorem not_arisesAt_end (code : String) : ¬ ArisesAt code .endOfInput := by
  rintro ⟨site, hsite, -, hend⟩
  have hnone : ∀ site ∈ sites, Kind.endOfInput ∉ site.2 := by decide
  exact hnone site hsite hend

/-- A fault at a token with the property `T`, of a kind that belongs to the fault. -/
structure Blames (T : Token → Prop) (f : RuntimeFault) : Prop where
  token : T f.token
  site : ArisesAt f.code f.token.kind

end RuntimeFault

def Halt.Blames (T : Token → Prop) : Halt → Prop
  | .fault f => f.Blames T
  | .malformed | .exhausted => True

open RuntimeFault (ArisesAt)

theorem Kind.arises_of_isCrement {k : Kind} (h : k.isCrement = true) : ArisesAt "E3001" k := by
  revert h
  cases k <;> decide

theorem Kind.arises_of_isBinary {k : Kind} (h : k.isBinary = true)
    (hk : k ≠ .equalEqual ∧ k ≠ .bangEqual ∧ k ≠ .plus) : ArisesAt "E3002" k := by
  revert h hk
  cases k <;> decide

/-- What a node raises is at the token of the node. -/
theorem Expr.Formed.blames {T : Token → Prop} {e : Expr} {h : Halt} (he : e.Formed T)
    (hraises : e.Raises h) : h.Blames T := by
  have hminus : ArisesAt "E3001" .minus := by decide
  have hplus : ArisesAt "E3003" .plus := by decide
  have hname : ArisesAt "E3004" .identifier := by decide
  have hslash : ArisesAt "E3005" .slash := by decide
  have hparen : ∀ code ∈ ["E3006", "E3007", "E3008"], ArisesAt code .rightParen := by decide
  cases hraises with
  | negation hk => exact ⟨he.1, hk ▸ hminus⟩
  | unknownUnary => trivial
  | addition hk => exact ⟨he.1, hk ▸ hplus⟩
  | arithmetic hk => exact ⟨he.1, Kind.arises_of_isBinary he.2 hk⟩
  | division hk => exact ⟨he.1, hk ▸ hslash⟩
  | unknownBinary => trivial
  | crement => exact ⟨he.1, Kind.arises_of_isCrement he.2⟩
  | undefined => exact ⟨he.1, he.2 ▸ hname⟩
  | unassigned => exact ⟨he.1, he.2 ▸ hname⟩
  | notCallable => exact ⟨he.1, he.2 ▸ hparen "E3006" (by decide)⟩
  | wrongArity => exact ⟨he.1, he.2 ▸ hparen "E3007" (by decide)⟩
  | stackOverflow => exact ⟨he.1, he.2 ▸ hparen "E3008" (by decide)⟩

/-- Code made of tokens with the property `T`, where the host has no function but the clock, only
halts with faults at such tokens. -/
def Discipline.madeOf (T : Token → Prop) : Discipline where
  expr := Expr.Formed T
  stmt _ := True
  native f := f.action = .clock
  halt := Halt.Blames T
  exhausted := trivial
  raises := Expr.Formed.blames
  hosted _ hclock hraises := by
    rw [hclock] at hraises
    cases hraises

theorem Expr.Formed.mono {T T' : Token → Prop} (hT : ∀ t, T t → T' t) {e : Expr}
    (h : e.Formed T) : e.Formed T' := by
  cases e with
  | literal v =>
    obtain hnil | hbool | ⟨t, ht, hk, hv⟩ := h
    · exact .inl hnil
    · exact .inr (.inl hbool)
    · exact .inr (.inr ⟨t, hT t ht, hk, hv⟩)
  | grouping _ => trivial
  | comma _ _ => trivial
  | _ => exact ⟨hT _ h.1, h.2⟩

namespace Machine
variable {D D' : Discipline} {m : Machine}

/-- A machine whose functions obey another discipline obeys that one. -/
theorem Obeys.of_functions (h : m.Obeys D) (hnative : ∀ f, D.native f → D'.native f)
    (hfunction : ∀ s ∈ m.scopes, ∀ b ∈ s.bindings, ∀ f, b.2 = .function f → f.Obeys D → f.Obeys D') :
    m.Obeys D' := by
  intro s hs b hb
  have hvalue := h s hs b hb
  have hfunction := hfunction s hs b hb
  generalize b.2 = v at hvalue hfunction ⊢
  cases v with
  | function f => exact hfunction f rfl hvalue
  | native f => exact hnative f hvalue
  | _ => trivial

theorem Obeys.madeOf_mono {T T' : Token → Prop} (hT : ∀ t, T t → T' t)
    (h : m.Obeys (.madeOf T)) : m.Obeys (.madeOf T') := by
  refine h.of_functions (fun _ hf => hf) fun _ _ _ _ f _ hf => ?_
  exact Stmt.Every.mono (fun _ he => he.mono hT) (fun _ hs => hs) hf

/-- No function of the language is kept in any scope. -/
def HasNoFunction (m : Machine) : Prop :=
  ∀ s ∈ m.scopes, ∀ b ∈ s.bindings, ∀ f, b.2 ≠ .function f

theorem hasNoFunction_fresh (clock : Clock) : (fresh clock).HasNoFunction := by
  intro s hs b hb f hf
  have hclock : s.bindings.map (·.2) = [.native ⟨0, 0, .clock⟩] := by
    cases Array.mem_singleton.1 hs
    rfl
  have hvalue : b.2 ∈ s.bindings.map (·.2) := List.mem_map_of_mem hb
  rw [hclock, hf] at hvalue
  cases List.mem_singleton.1 hvalue

/-- Where no function was declared before, there is only the code that is run. -/
theorem HasNoFunction.madeOf {T T' : Token → Prop} (hnone : m.HasNoFunction)
    (h : m.Obeys (.madeOf T)) : m.Obeys (.madeOf T') :=
  h.of_functions (fun _ hf => hf) fun s hs b hb f hf _ => absurd hf (hnone s hs b hb f)

end Machine
end Lox
