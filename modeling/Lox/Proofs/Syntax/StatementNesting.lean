import Lox.Proofs.Syntax.Nesting
import Lox.Proofs.Syntax.StatementAllotment
import Lox.Token.Scan

/-! How deep statements nest. Blocks, branches and loops take levels of the nesting that is left, so
there is a bound to them; the body of a function takes none, so functions nest to any depth. -/
namespace Lox

namespace Stmt

mutual

/-- The number of statements of the counted kinds on a way down through a statement, at most. -/
def nesting (counts : Stmt → Bool) : Stmt → Nat
  | .block body => (counts (.block body)).toNat + nestingOfAll counts body
  | .branch c yes no =>
    (counts (.branch c yes no)).toNat + max (yes.nesting counts) (nestingOfElse counts no)
  | .loop c body i => (counts (.loop c body i)).toNat + body.nesting counts
  | .function name params body =>
    (counts (.function name params body)).toNat + nestingOfAll counts body
  | .empty => (counts .empty).toNat
  | .expression e => (counts (.expression e)).toNat
  | .print keyword e => (counts (.print keyword e)).toNat
  | .declare name init => (counts (.declare name init)).toNat
  | .breakLoop keyword => (counts (.breakLoop keyword)).toNat
  | .continueLoop keyword => (counts (.continueLoop keyword)).toNat
  | .returnValue keyword value => (counts (.returnValue keyword value)).toNat

def nestingOfAll (counts : Stmt → Bool) : List Stmt → Nat
  | [] => 0
  | s :: ss => max (s.nesting counts) (nestingOfAll counts ss)

def nestingOfElse (counts : Stmt → Bool) : Option Stmt → Nat
  | none => 0
  | some s => s.nesting counts

end

def isFunction : Stmt → Bool
  | .function _ _ _ => true
  | _ => false

variable {counts : Stmt → Bool} {k : Nat}

theorem nestingOfAll_le_iff {ss : List Stmt} :
    nestingOfAll counts ss ≤ k ↔ ∀ s ∈ ss, s.nesting counts ≤ k := by
  induction ss with
  | nil => simp [nestingOfAll]
  | cons s ss ih => rw [nestingOfAll, Nat.max_le, ih, List.forall_mem_cons]

theorem nestingOfElse_le_iff {no : Option Stmt} :
    nestingOfElse counts no ≤ k ↔ ∀ s ∈ no.toList, s.nesting counts ≤ k := by
  cases no <;> simp [nestingOfElse]

/-- The nesting of a statement is that of its parts, and itself if it counts. -/
theorem nesting_le_iff {s : Stmt} :
    s.nesting counts ≤ (counts s).toNat + k ↔ ∀ t ∈ s.parts, t.nesting counts ≤ k := by
  cases s <;>
    simp only [nesting, parts, nestingOfAll_le_iff, nestingOfElse_le_iff, Nat.max_le,
      Nat.add_le_add_iff_left, Nat.le_add_right, List.forall_mem_cons, List.not_mem_nil,
      false_imp_iff, implies_true, and_true]

theorem counts_le_nesting (s : Stmt) (counts : Stmt → Bool) :
    (counts s).toNat ≤ s.nesting counts := by
  cases s <;> simp [nesting]

theorem nesting_part_le (counts : Stmt → Bool) {s t : Stmt} (h : t ∈ s.parts) :
    (counts s).toNat + t.nesting counts ≤ s.nesting counts := by
  have hcounts := s.counts_le_nesting counts
  have hself : s.nesting counts ≤ (counts s).toNat + (s.nesting counts - (counts s).toNat) := by
    omega
  have hpart := nesting_le_iff.1 hself t h
  omega

/-- Where each statement is counted by one of two counts, the nesting is at most the sum of both. -/
theorem nesting_le_add {first second : Stmt → Bool}
    (h : ∀ s, counts s = true → first s = true ∨ second s = true) (s : Stmt) :
    s.nesting counts ≤ s.nesting first + s.nesting second := by
  induction s using of_parts with
  | h s ih =>
    have hfirst := s.counts_le_nesting first
    have hsecond := s.counts_le_nesting second
    have hself : (counts s).toNat ≤ (first s).toNat + (second s).toNat := by
      cases hc : counts s with
      | false => exact Nat.zero_le _
      | true =>
        obtain hone | hone := h s hc
        · rw [hone]
          exact Nat.le_add_right _ _
        · rw [hone]
          exact Nat.le_add_left _ _
    have hwhole : s.nesting counts ≤ (counts s).toNat +
        (s.nesting first - (first s).toNat + (s.nesting second - (second s).toNat)) := by
      refine nesting_le_iff.2 fun t ht => ?_
      have hpart := ih t ht
      have hinFirst := nesting_part_le first ht
      have hinSecond := nesting_part_le second ht
      omega
    omega

/-- A block, a branch or a loop. -/
def isCompound : Stmt → Bool
  | .block _ | .branch _ _ _ | .loop _ _ _ => true
  | _ => false

theorem isCompound_or_isFunction {s : Stmt} (h : s.encloses = true) :
    s.isCompound = true ∨ s.isFunction = true := by
  cases s <;> first | exact .inl rfl | exact .inr rfl | cases h

theorem Simple.isCompound {P : Expr → Prop} {s : Stmt} (h : s.Simple P) :
    s.isCompound = false := by
  have hsimple := h.1
  cases s <;> first | rfl | cases hsimple

theorem Simple.nesting {P : Expr → Prop} {s : Stmt} (h : s.Simple P) (k : Nat) :
    s.nesting Stmt.isCompound ≤ k := by
  have hself : s.nesting Stmt.isCompound ≤ s.isCompound.toNat + k :=
    nesting_le_iff.2 (h.forall_parts _)
  rwa [h.isCompound, Bool.toNat_false, Nat.zero_add] at hself

theorem nesting_le_succ {s : Stmt} (h : ∀ t ∈ s.parts, t.nesting counts ≤ k) :
    s.nesting counts ≤ k + 1 := by
  have hself := nesting_le_iff.2 h
  have hone := (counts s).toNat_le
  omega

end Stmt

/-- With each level of nesting come two statements at most, since a loop with a clause before it
stands in a block. The body of a function has as many levels left as the function itself. -/
theorem Parse.nest_isCompound :
    Nest (fun _ => True) fun r s => s.nesting Stmt.isCompound ≤ 2 * r where
  expression _ := trivial
  always := trivial
  simple h := h.nesting _
  compound _ hparts := Nat.le_succ_of_le (Stmt.nesting_le_succ hparts)
  enclosed hinit _ hparts := by
    refine Stmt.nesting_le_succ (List.forall_mem_cons.2 ⟨hinit.nesting _, ?_⟩)
    exact List.forall_mem_singleton.2 (Stmt.nesting_le_succ hparts)
  function hbody := by
    refine Nat.le_trans (Stmt.nesting_le_iff.2 hbody) ?_
    exact Nat.le_of_eq (Nat.zero_add _)

/-! Functions within functions. -/

namespace Parse

/-- A token of the kind, apart from its text and place. -/
def bare (kind : Kind) : Token := ⟨kind, [], .nil, .start⟩

/-- A function that holds a function, and so on: as many as given. -/
def tower : Nat → List Stmt
  | 0 => []
  | k + 1 => [.function (bare .identifier) [] (tower k)]

def towerTokens : Nat → List Token
  | 0 => []
  | k + 1 => bare .kwFun :: bare .identifier :: bare .leftParen :: bare .rightParen ::
      bare .leftBrace :: (towerTokens k ++ [bare .rightBrace])

variable {α β : Type}

/-- The step gives the value without a fault, with these tokens left. -/
def Gives (step : Parse α) (p : Parser) (a : α) (us : List Token) : Prop :=
  ∃ q, step p = .ok a q ∧ q.rest = us ∧ q.faults = p.faults

theorem Gives.of_eq {step next : Parse α} {p : Parser} {a : α} {us : List Token}
    (heq : step p = next p) (h : Gives next p a us) : Gives step p a us := by
  obtain ⟨q, hq, hends, hkeeps⟩ := h
  exact ⟨q, heq.trans hq, hends, hkeeps⟩

theorem Gives.bind {x : Parse α} {f : α → Parse β} {p : Parser} {a : α} {b : β}
    {us vs : List Token} (hx : Gives x p a us) (hf : ∀ q, q.rest = us → Gives (f a) q b vs) :
    Gives (x >>= f) p b vs := by
  obtain ⟨q, hq, hrest, hfaults⟩ := hx
  obtain ⟨r, hr, hends, hkeeps⟩ := hf q hrest
  exact ⟨r, (bind_ok hq).trans hr, hends, hkeeps.trans hfaults⟩

theorem Gives.bracket {enter : Parser → Parser} {leave : Parser → Parser → Parser}
    {step : Parse α} {p : Parser} {a : α} {us : List Token}
    (henter : (enter p).faults = p.faults) (hrest : ∀ q, (leave p q).rest = q.rest)
    (hfaults : ∀ q, (leave p q).faults = q.faults) (h : Gives step (enter p) a us) :
    Gives (bracket enter leave step) p a us := by
  obtain ⟨q, hq, hends, hkeeps⟩ := h
  refine ⟨leave p q, ?_, (hrest q).trans hends, (hfaults q).trans (hkeeps.trans henter)⟩
  rw [bracket_apply, hq]

theorem Gives.recovering {step : Parse α} {p : Parser} {a : α} {us : List Token}
    (h : Gives step p.startingHere a us) : Gives (recovering step) p (some a) us := by
  obtain ⟨q, hq, hends, hkeeps⟩ := h
  refine ⟨q.startingAt p.start, ?_, hends, hkeeps⟩
  rw [recovering_apply, hq]

theorem gives_pure (a : α) (p : Parser) : Gives (pure a) p a p.rest := ⟨p, rfl, rfl, rfl⟩

theorem gives_expect {kind : Kind} (what : String) {p : Parser} {us : List Token}
    (hp : p.rest = bare kind :: us) (hend : kind.passable = true) :
    Gives (expect kind what) p (bare kind) us :=
  ⟨_, expect_next hp (of_decide_eq_true hend) rfl, Parser.pass_one hp, rfl⟩

theorem gives_parameters (n : Nat) {p : Parser} {us : List Token}
    (hp : p.rest = bare .leftParen :: bare .rightParen :: us) : Gives (parameters n) p [] us := by
  rw [parameters_eq]
  refine (gives_expect _ hp rfl).bind fun q hq => ?_
  have hcheck : check .rightParen q = .ok true q := by
    rw [check_apply, Parser.current_cons hq]
    rfl
  have hnone : Gives (optionalParameters n) q [] q.rest := ⟨q, bind_ok hcheck, rfl, rfl⟩
  refine hnone.bind fun r hr => (gives_expect _ (hr.trans hq) rfl).bind fun s hs => ?_
  exact hs ▸ gives_pure [] s

theorem gives_block {n : Nat} {body : List Stmt} {ts us : List Token}
    (hbody : ∀ q : Parser, q.rest = ts → Gives (blockBody n []) q body (bare .rightBrace :: us))
    {p : Parser} (hp : p.rest = ts) : Gives (block (n + 1)) p body us := by
  have hwhole (q : Parser) (hq : q.rest = ts) : Gives (do
      let body ← blockBody n []
      let _ ← expect .rightBrace "'\x7d' after block"
      pure body) q body us := by
    refine (hbody q hq).bind fun r hr => (gives_expect _ hr rfl).bind fun s hs => ?_
    exact hs ▸ gives_pure body s
  exact .bracket rfl (fun _ => rfl) (fun _ => rfl) (hwhole _ hp)

theorem gives_blockBody_end (n : Nat) (before : List Stmt) {p : Parser} {us : List Token}
    (hp : p.rest = bare .rightBrace :: us) :
    Gives (blockBody (n + 1) before) p before.reverse (bare .rightBrace :: us) := by
  have hcheck : check .rightBrace p = .ok true p := by
    rw [check_apply, Parser.current_cons hp]
    rfl
  exact ⟨p, bind_ok hcheck, hp, rfl⟩

/-- A function takes no nesting: its body is read with all that is left to the function. -/
theorem gives_function {n : Nat} {body : List Stmt} {ts us : List Token}
    (hblock : ∀ q : Parser, q.rest = ts → Gives (block n) q body us) {p : Parser}
    (hp : p.rest = bare .kwFun :: bare .identifier :: bare .leftParen :: bare .rightParen ::
      bare .leftBrace :: ts) :
    Gives (declaration (n + 2)) p (some (.function (bare .identifier) [] body)) us := by
  have hrest : (p.startingHere.pass [bare .kwFun]).rest = _ := Parser.pass_one hp
  have hproper : declarationProper (n + 1) p.startingHere =
      functionDeclaration (n + 1) (p.startingHere.pass [bare .kwFun]) := by
    have hcurrent : p.startingHere.current = bare .kwFun := Parser.current_cons hp
    unfold declarationProper
    rw [hcurrent]
    rfl
  have hfunction : Gives (functionDeclaration (n + 1)) (p.startingHere.pass [bare .kwFun])
      (.function (bare .identifier) [] body) us := by
    refine (gives_expect _ hrest rfl).bind fun q hq => ?_
    refine (gives_parameters n hq).bind fun r hr => (gives_expect _ hr rfl).bind fun s hs => ?_
    refine Gives.bind (Gives.bracket rfl (fun _ => rfl) (fun _ => rfl) (hblock _ hs)) fun v hv => ?_
    exact hv ▸ gives_pure _ v
  rw [declaration_succ]
  refine Gives.recovering ?_
  obtain ⟨q, hq, hends, hkeeps⟩ := hfunction
  exact ⟨q, hproper.trans hq, hends, hkeeps⟩

theorem towerTokens_succ (k : Nat) (us : List Token) :
    towerTokens (k + 1) ++ us = bare .kwFun :: bare .identifier :: bare .leftParen ::
      bare .rightParen :: bare .leftBrace :: (towerTokens k ++ bare .rightBrace :: us) := by
  simp [towerTokens]

theorem gives_tower (k : Nat) {n : Nat} (hn : 4 * k + 2 ≤ n) {p : Parser} {us : List Token}
    (hp : p.rest = towerTokens k ++ bare .rightBrace :: us) : Gives (block n) p (tower k) us := by
  induction k generalizing n p us with
  | zero =>
    obtain ⟨n, rfl⟩ : ∃ i, n = i + 2 := ⟨n - 2, by omega⟩
    exact gives_block (fun q hq => gives_blockBody_end n [] hq) hp
  | succ k ih =>
    obtain ⟨n, rfl⟩ : ∃ i, n = i + 4 := ⟨n - 4, by omega⟩
    rw [towerTokens_succ] at hp
    refine gives_block (fun q hq => ?_) hp
    have hfun : q.current = bare .kwFun := Parser.current_cons hq
    have hfunction := gives_function (fun r hr => ih (n := n) (by omega) hr) hq
    refine .of_eq (blockBody_succ _ _ (by rw [hfun]; nofun) (by rw [hfun]; nofun)) ?_
    exact hfunction.bind fun r hr => gives_blockBody_end (n + 1) _ hr

theorem gives_program_tower (k : Nat) {p : Parser} {us : List Token}
    (hp : p.rest = towerTokens (k + 1) ++ bare .endOfInput :: us) :
    Gives (program (4 * k + 5) []) p (tower (k + 1)) (bare .endOfInput :: us) := by
  rw [towerTokens_succ] at hp
  have hfun : p.current = bare .kwFun := Parser.current_cons hp
  have hfunction := gives_function (fun r hr => gives_tower k (Nat.le_refl _) hr) hp
  refine .of_eq (program_succ _ _ (by rw [hfun]; nofun)) (hfunction.bind fun r hr => ?_)
  exact ⟨r, program_end _ (Nat.succ_pos _) (by rw [hr]; rfl), hr, rfl⟩

theorem nesting_tower (k : Nat) : Stmt.nestingOfAll Stmt.encloses (tower k) = k := by
  induction k with
  | zero => rfl
  | succ k ih =>
    rw [tower, Stmt.nestingOfAll, Stmt.nesting, ih, Stmt.nestingOfAll, Nat.max_zero, Nat.add_comm]
    rfl

end Parse

namespace Program

/-- Functions that enclose each other are parsed, however many they are. -/
theorem parse?_tower (k : Nat) :
    parse? (Parse.towerTokens (k + 1) ++ [Parse.bare .endOfInput]) =
      some ⟨Parse.tower (k + 1), []⟩ := by
  obtain ⟨q, hq, -, hfaults⟩ := Parse.gives_program_tower k
    (p := { rest := Parse.towerTokens (k + 1) ++ [Parse.bare .endOfInput] }) rfl
  rw [parse?_of_ok hq, hfaults]
  rfl

/-- Besides the functions, a statement that is parsed nests at most 512 levels deep, whether or not
there are faults: on every way down through it, and through the bodies of functions, there are at
most 512 blocks, branches and loops. -/
theorem nesting_bounded_but_for_functions {tokens : List Token} {p : Program}
    (h : parse? tokens = some p) :
    ∀ s ∈ p.statements, s.nesting Stmt.isCompound ≤ 512 ∧
      s.nesting Stmt.encloses ≤ 512 + s.nesting Stmt.isFunction := by
  intro s hs
  have hcompound := nested_of_parse? Parse.nest_isCompound h s hs
  refine ⟨hcompound, Nat.le_trans ?_ (Nat.add_le_add_right hcompound _)⟩
  exact Stmt.nesting_le_add (fun _ => Stmt.isCompound_or_isFunction) s

/-- A function with a loop in it that has a clause before it. -/
theorem nesting_bounded_but_for_functions_loop :
    let program := parse? (Scan.ofSource
      (utf8 "fun f(a) \x7b for (var b; ; ) \x7b if (a) break; \x7d \x7d")).tokens
    ∃ p, program = some p ∧ p.statements.map (·.nesting Stmt.isCompound) = [4] ∧
      p.statements.map (·.nesting Stmt.encloses) = [5] ∧
      ∀ s ∈ p.statements, s.nesting Stmt.isCompound ≤ 512 ∧
        s.nesting Stmt.encloses ≤ 512 + s.nesting Stmt.isFunction := by
  intro program
  have hp : program.map (fun p => (p.statements.map (·.nesting Stmt.isCompound),
      p.statements.map (·.nesting Stmt.encloses))) = some ([4], [5]) := by decide +kernel
  obtain ⟨p, hp, hnesting⟩ := Option.map_eq_some_iff.1 hp
  obtain ⟨hcompound, hwhole⟩ := Prod.mk.inj hnesting
  exact ⟨p, hp, hcompound, hwhole, nesting_bounded_but_for_functions hp⟩

/-- There is no bound to how deep statements nest that are parsed without a fault: functions may
enclose each other to any depth. -/
theorem nesting_unbounded : ¬ ∃ bound, ∀ tokens p, parse? tokens = some p → p.faults = [] →
    ∀ s ∈ p.statements, s.nesting Stmt.encloses ≤ bound := by
  rintro ⟨bound, hbound⟩
  have hall := hbound _ _ (parse?_tower bound) rfl
  have hle := Stmt.nestingOfAll_le_iff.2 hall
  rw [Parse.nesting_tower] at hle
  exact absurd hle (Nat.not_succ_le_self bound)

end Program
end Lox
