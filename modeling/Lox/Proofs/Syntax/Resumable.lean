import Lox.Proofs.Syntax.Course
import Lox.Proofs.Syntax.StatementGrammar

/-! Token sequences in which a parse can be resumed anywhere. Recovery may stop in the middle of a
statement; in the tokens of a program it then stands before something of the grammar all the
same. -/
namespace Lox

/-- A statement that nests at most `k` levels starts here. No `else` behind it belongs to it, and
unless `edge` holds, none that stood behind the tokens would. -/
def Begins (k : Nat) (edge : Bool) (ts : List Token) : Prop :=
  ∃ w closed s a b, ts = a ++ b ∧ Composes w k (.statement closed s) a ∧
    (closed = false → nextKind b ≠ .kwElse ∧ (b = [] → edge = true))

/-- A declaration whose statements nest at most `k` levels starts here. -/
def BeginsDeclaration (k : Nat) (ts : List Token) : Prop :=
  ∃ w s a b, ts = a ++ b ∧ Composes w k (.declaration s) a

/-- If a brace opens here, it opens a block. -/
def Fresh (k : Nat) (edge : Bool) (ts : List Token) : Prop :=
  nextKind ts = .leftBrace → Begins k edge ts

/-- What stands behind the token `t` fits, wherever the parse is resumed at `t` or behind it. -/
def Sited (k : Nat) (edge : Bool) (t : Token) (ts : List Token) : Prop :=
  match t.kind with
  | .endOfInput | .kwClass => False
  | .kwIf | .kwWhile | .kwFor => Begins k edge (t :: ts)
  | .kwFun => BeginsDeclaration k (t :: ts)
  | .kwPrint | .kwReturn => 1 ≤ k
  | .kwElse => Begins k edge ts
  | .semicolon | .rightBrace => Fresh k edge ts
  | _ => True

/-- The parse can be resumed anywhere in the tokens. -/
def Resumable (k : Nat) (edge : Bool) : List Token → Prop
  | [] => True
  | t :: ts => Sited k edge t ts ∧ Resumable k edge ts

/-- The tokens `us` can stand behind tokens that may end with a statement for an `else`. -/
def Detached (edge : Bool) (us : List Token) : Prop :=
  us ≠ [] ∧ (edge = true → nextKind us ≠ .kwElse)

theorem detached_cons {edge : Bool} {t : Token} {ts : List Token} {kind : Kind}
    (h : t.kind = kind) (hk : kind ≠ .kwElse) : Detached edge (t :: ts) :=
  ⟨nofun, fun _ => by rw [nextKind_cons, h]; exact hk⟩

section Begins
variable {k l : Nat} {edge edge' : Bool} {ts us : List Token}

theorem Begins.append (h : Begins k edge ts) (hu : Detached edge us) :
    Begins k edge' (ts ++ us) := by
  obtain ⟨w, closed, s, a, b, rfl, d, hb⟩ := h
  refine ⟨w, closed, s, a, b ++ us, List.append_assoc a b us, d, fun hc => ⟨?_, fun hnil => ?_⟩⟩
  · cases b with
    | nil => exact hu.2 ((hb hc).2 rfl)
    | cons t b => exact (hb hc).1
  · exact absurd (List.append_eq_nil_iff.1 hnil).2 hu.1

theorem BeginsDeclaration.append (h : BeginsDeclaration k ts) (us : List Token) :
    BeginsDeclaration k (ts ++ us) := by
  obtain ⟨w, s, a, b, rfl, d⟩ := h
  exact ⟨w, s, a, b ++ us, List.append_assoc a b us, d⟩

theorem Begins.mono (hkl : k ≤ l) (he : edge = true → edge' = true) (h : Begins k edge ts) :
    Begins l edge' ts := by
  obtain ⟨w, closed, s, a, b, rfl, d, hb⟩ := h
  exact ⟨w, closed, s, a, b, rfl, d.mono hkl, fun hc => ⟨(hb hc).1, fun hn => he ((hb hc).2 hn)⟩⟩

theorem BeginsDeclaration.mono (hkl : k ≤ l) (h : BeginsDeclaration k ts) :
    BeginsDeclaration l ts := by
  obtain ⟨w, s, a, b, hts, d⟩ := h
  exact ⟨w, s, a, b, hts, d.mono hkl⟩

theorem Composes.begins {w : Surroundings} {closed : Bool} {s : Stmt}
    (h : Composes w k (.statement closed s) ts) : Begins k (!closed) ts :=
  ⟨w, closed, s, ts, [], (List.append_nil ts).symm, h, fun hc => ⟨by decide, fun _ => by simp [hc]⟩⟩

theorem fresh_nil (k : Nat) (edge : Bool) : Fresh k edge [] := nofun

theorem fresh_cons {t : Token} {kind : Kind} (h : t.kind = kind) (hk : kind ≠ .leftBrace) :
    Fresh k edge (t :: ts) :=
  fun h' => absurd (h.symm.trans h') hk

theorem Fresh.append (h : Fresh k edge ts) (hu : Detached edge us) (hf : Fresh k edge' us) :
    Fresh k edge' (ts ++ us) := by
  cases ts with
  | nil => exact hf
  | cons t ts => exact fun hk => (h hk).append hu

theorem Fresh.mono (hkl : k ≤ l) (he : edge = true → edge' = true) (h : Fresh k edge ts) :
    Fresh l edge' ts :=
  fun hk => (h hk).mono hkl he

theorem sited_of_inExpression {t : Token} (h : t.kind.inExpression = true) : Sited k edge t ts := by
  unfold Sited
  generalize t.kind = kind at h
  cases kind <;> trivial

theorem Sited.append {t : Token} (h : Sited k edge t ts) (hu : Detached edge us)
    (hf : Fresh k edge' us) : Sited k edge' t (ts ++ us) := by
  unfold Sited at h ⊢
  split at h
  · exact h
  · exact h
  · exact h.append hu
  · exact h.append hu
  · exact h.append hu
  · exact h.append us
  · exact h
  · exact h
  · exact h.append hu
  · exact h.append hu hf
  · exact h.append hu hf
  · trivial

theorem Sited.mono {t : Token} (hkl : k ≤ l) (he : edge = true → edge' = true)
    (h : Sited k edge t ts) : Sited l edge' t ts := by
  unfold Sited at h ⊢
  split at h
  · exact h
  · exact h
  · exact h.mono hkl he
  · exact h.mono hkl he
  · exact h.mono hkl he
  · exact h.mono hkl
  · exact Nat.le_trans h hkl
  · exact Nat.le_trans h hkl
  · exact h.mono hkl he
  · exact h.mono hkl he
  · exact h.mono hkl he
  · trivial

end Begins

namespace Resumable
variable {k l : Nat} {edge edge' : Bool} {ts us : List Token}

theorem append (hts : Resumable k edge ts) (hu : Detached edge us) (hf : Fresh k edge' us)
    (hus : Resumable k edge' us) : Resumable k edge' (ts ++ us) := by
  induction ts with
  | nil => exact hus
  | cons t ts ih => exact ⟨hts.1.append hu hf, ih hts.2⟩

theorem mono (hkl : k ≤ l) (he : edge = true → edge' = true) (h : Resumable k edge ts) :
    Resumable l edge' ts := by
  induction ts with
  | nil => trivial
  | cons t ts ih => exact ⟨h.1.mono hkl he, ih h.2⟩

theorem suffix (h : Resumable k edge ts) (hs : us <:+ ts) : Resumable k edge us := by
  obtain ⟨vs, rfl⟩ := hs
  induction vs with
  | nil => exact h
  | cons v vs ih => exact ih h.2

theorem cons {t : Token} (ht : Sited k edge t ts) (h : Resumable k edge ts) :
    Resumable k edge (t :: ts) := ⟨ht, h⟩

/-- The tokens of an expression put no condition on those behind them. -/
theorem after_derives {f : Form} (h : Derives f ts) (hus : Resumable k edge us) :
    Resumable k edge (ts ++ us) := by
  have hin := Parse.inExpression_of_derives h
  clear h
  induction ts with
  | nil => exact hus
  | cons t ts ih =>
    rw [List.forall_mem_cons] at hin
    exact cons (sited_of_inExpression hin.1) (ih hin.2)

theorem of_end {t : Token} (h : t.kind = .semicolon ∨ t.kind = .rightBrace) :
    Resumable k edge [t] := by
  refine cons ?_ trivial
  rcases h with h | h <;> simp only [Sited, h] <;> exact fresh_nil k edge

theorem after_optional {o : Option Expr} (h : DerivesOptional o ts) (hus : Resumable k edge us) :
    Resumable k edge (ts ++ us) := by
  cases h with
  | none => exact hus
  | some d => exact after_derives d hus

end Resumable

section Parts
variable {k : Nat} {edge : Bool} {ts us : List Token}

theorem fresh_optional {o : Option Expr} (h : DerivesOptional o ts) (hu : Fresh k edge us) :
    Fresh k edge (ts ++ us) := by
  cases h with
  | none => exact hu
  | some d =>
    obtain ⟨t, ts, rfl, ht⟩ := d.phrase_starts
    refine fresh_cons rfl fun hk => ?_
    rw [hk] at ht
    cases ht

theorem Resumable.after_variable {s : Stmt} (h : VariableDeclaration s ts) (hf : Fresh k edge us)
    (hus : Resumable k edge us) : Resumable k edge (ts ++ us) := by
  have hend {t : Token} (ht : t.kind = .semicolon) : Resumable k edge (t :: us) :=
    cons (by simpa only [Sited, ht] using hf) hus
  cases h with
  | bare hv hn hs => exact cons (by simp [Sited, hv]) (cons (by simp [Sited, hn]) (hend hs))
  | initialized hv hn he d hs =>
    rw [List.cons_append, List.cons_append, List.cons_append, List.append_assoc]
    exact cons (by simp [Sited, hv]) (cons (by simp [Sited, hn]) (cons (by simp [Sited, he])
      (after_derives d (hend hs))))

theorem Resumable.after_initializer {o : Option Stmt} (h : Initializer o ts) (hf : Fresh k edge us)
    (hus : Resumable k edge us) : Resumable k edge (ts ++ us) := by
  have hend {t : Token} (ht : t.kind = .semicolon) : Resumable k edge (t :: us) :=
    cons (by simpa only [Sited, ht] using hf) hus
  cases h with
  | none hs => exact hend hs
  | declared h => exact after_variable h hf hus
  | expression d hs =>
    rw [List.append_assoc]
    exact after_derives d (hend hs)

theorem Resumable.after_parameters {names : List Token} (h : Parameters names ts)
    (hus : Resumable k edge us) : Resumable k edge (ts ++ us) := by
  induction h with
  | none => exact hus
  | one hn => exact cons (by simp [Sited, hn]) hus
  | more hn hc _ ih => exact cons (by simp [Sited, hn]) (cons (by simp [Sited, hc]) ih)

/-- A condition in parentheses and a statement after it. -/
theorem Resumable.conditioned {left right : Token} {e : Expr} (hl : left.kind = .leftParen)
    (d : Derives (.phrase .expression e) ts) (hr : right.kind = .rightParen)
    (h : Resumable k edge us) : Resumable k edge (left :: (ts ++ right :: us)) :=
  cons (by simp [Sited, hl]) (after_derives d (cons (by simp [Sited, hr]) h))

/-- The clauses of a `for` loop and a statement after them. -/
theorem Resumable.clauses {left semicolon right : Token} {is cs rs : List Token}
    {init : Option Stmt} {condition increment : Option Expr} (hl : left.kind = .leftParen)
    (hi : Initializer init is) (hc : DerivesOptional condition cs)
    (hs : semicolon.kind = .semicolon) (hn : DerivesOptional increment rs)
    (hr : right.kind = .rightParen) (h : Resumable k edge us) :
    Resumable k edge (left :: (is ++ (cs ++ semicolon :: (rs ++ right :: us)))) := by
  have hright : Fresh k edge (right :: us) := fresh_cons hr nofun
  have hsemicolon : Fresh k edge (semicolon :: (rs ++ right :: us)) := fresh_cons hs nofun
  have hincrement : Resumable k edge (rs ++ right :: us) :=
    after_optional hn (cons (by simp [Sited, hr]) h)
  have hcondition : Resumable k edge (semicolon :: (rs ++ right :: us)) := by
    refine cons ?_ hincrement
    simp only [Sited, hs]
    exact fresh_optional hn hright
  exact cons (by simp [Sited, hl])
    (after_initializer hi (fresh_optional hc hsemicolon) (after_optional hc hcondition))

/-- A body in braces, up to its end. -/
theorem Resumable.braced {right : Token} (h : Resumable k true ts) (hr : right.kind = .rightBrace) :
    Resumable k edge (ts ++ [right]) :=
  h.append (detached_cons hr nofun) (fresh_cons hr nofun) (of_end (.inr hr))

/-- A function after its keyword. -/
theorem Resumable.functionBody {name leftParen rightParen left right : Token} {names : List Token}
    (hn : name.kind = .identifier) (hlp : leftParen.kind = .leftParen) (hp : Parameters names ts)
    (hrp : rightParen.kind = .rightParen) (hl : left.kind = .leftBrace) (h : Resumable k true us)
    (hr : right.kind = .rightBrace) :
    Resumable k edge (name :: leftParen :: (ts ++ rightParen :: left :: (us ++ [right]))) :=
  cons (by simp [Sited, hn]) (cons (by simp [Sited, hlp]) (after_parameters hp
    (cons (by simp [Sited, hrp]) (cons (by simp [Sited, hl]) (h.braced hr)))))

end Parts

theorem Composes.fresh {w : Surroundings} {k : Nat} {ss : List Stmt} {ts : List Token}
    (h : Composes w k (.declarations ss) ts) : Fresh k true ts := by
  cases h with
  | done => exact fresh_nil k true
  | next first others =>
    cases first with
    | declareVariable h =>
      obtain ⟨t, us, rfl, ht⟩ := h.starts
      exact fresh_cons ht nofun
    | declareFunction hk => exact fresh_cons hk nofun
    | statement h =>
      obtain rfl | ⟨t, us, rfl, ht⟩ := others.starts_declarations
      · rw [List.append_nil]
        exact fun _ => h.begins.mono (Nat.le_refl _) (fun _ => rfl)
      · exact fun _ => h.begins.append (detached_cons rfl fun hk => by rw [hk] at ht; cases ht)

/-- What the tokens of a part may end with. -/
def Part.edge : Part → Bool
  | .statement closed _ => !closed
  | .declaration _ | .declarations _ => true

/-- In the tokens of a program the parse can be resumed anywhere. -/
theorem Composes.resumable {w : Surroundings} {k : Nat} {part : Part} {ts : List Token}
    (h : Composes w k part ts) : Resumable k part.edge ts := by
  induction h with
  | empty hs => exact .of_end (.inl hs)
  | expression d hs => exact .after_derives d (.of_end (.inl hs))
  | print hk d hs => exact .cons (by simp [Sited, hk]) (.after_derives d (.of_end (.inl hs)))
  | breakLoop _ hk hs | continueLoop _ hk hs =>
    exact .cons (by simp [Sited, hk]) (.of_end (.inl hs))
  | returnValue _ hk d hs =>
    exact .cons (by simp [Sited, hk]) (.after_optional d (.of_end (.inl hs)))
  | block hl _ hr ih =>
    exact .cons (by simp [Sited, hl]) ((ih.mono (Nat.le_succ _) id).braced hr)
  | branch hk hl d hr yes ih =>
    refine .cons ?_ (.conditioned hl d hr (ih.mono (Nat.le_succ _) fun _ => rfl))
    simp only [Sited, hk]
    exact (Composes.branch hk hl d hr yes).begins
  | branches hk hl d hr yes ho no ihy ihn =>
    refine .cons ?_ (.conditioned hl d hr ((ihy.mono (Nat.le_succ _) id).append ⟨nofun, nofun⟩
      (fresh_cons ho nofun) (.cons ?_ (ihn.mono (Nat.le_succ _) id))))
    · simp only [Sited, hk]
      exact (Composes.branches hk hl d hr yes ho no).begins
    · simp only [Sited, ho]
      exact no.begins.mono (Nat.le_succ _) id
  | whileLoop hk hl d hr body ih =>
    refine .cons ?_ (.conditioned hl d hr (ih.mono (Nat.le_succ _) id))
    simp only [Sited, hk]
    exact (Composes.whileLoop hk hl d hr body).begins
  | forLoop hk hl hi hc hs hn hr body ih =>
    refine .cons ?_ (.clauses hl hi hc hs hn hr (ih.mono (Nat.le_succ _) id))
    simp only [Sited, hk]
    exact (Composes.forLoop hk hl hi hc hs hn hr body).begins
  | @declareVariable _ _ _ ts h =>
    rw [← List.append_nil ts]
    exact .after_variable h (fresh_nil _ _) trivial
  | @declareFunction w _ _ _ _ _ _ _ _ _ _ _ hk hn hlp hp hmax hrp hl body hr ih =>
    refine .cons ?_ (.functionBody hn hlp hp hrp hl ih hr)
    simp only [Sited, hk]
    exact ⟨w, _, _, [], (List.append_nil _).symm, .declareFunction hk hn hlp hp hmax hrp hl body hr⟩
  | statement _ ih => exact ih.mono (Nat.le_refl _) fun _ => rfl
  | done => trivial
  | next _ others ihf iho =>
    obtain rfl | ⟨t, us, rfl, ht⟩ := others.starts_declarations
    · rwa [List.append_nil]
    · exact ihf.append (detached_cons rfl fun hk => by rw [hk] at ht; cases ht) others.fresh iho

end Lox
