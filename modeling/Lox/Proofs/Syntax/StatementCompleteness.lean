import Lox.Proofs.Syntax.ExpressionCompleteness
import Lox.Proofs.Syntax.StatementSoundness

/-! Every program of the grammar is parsed, with its trees, wherever its nesting has room; where it
has not, too much nesting is reported. -/
namespace Lox.Parse
variable {α β : Type}

/-- Too much nesting has been reported in the end. -/
def TooDeep (r : EStateM.Result Interrupt Parser α) : Prop :=
  ∃ f ∈ (final r).faults, f.error = .tooDeep

/-- The step takes exactly the tokens `ts`, with the result `a`, from every state with `room` more
levels of nesting, and reports too much nesting from all others. The token after `ts` must be such
that the part is complete, and the steps allotted must suffice. -/
def Settles (w : Surroundings) (follow : Kind → Prop) (step : Nat → Parse α) (cost room : Nat)
    (ts : List Token) (a : α) : Prop :=
  ∀ ⦃n : Nat⦄ ⦃p : Parser⦄ ⦃us : List Token⦄, p.surroundings = w → follow (nextKind us) →
    p.rest = ts ++ us → 32 * p.rest.length + cost ≤ n → p.depth ≤ maxNesting →
    (p.depth + room ≤ maxNesting → step n p = .ok a (p.pass ts)) ∧
      (maxNesting < p.depth + room → TooDeep (step n p))

/-- The step takes exactly the tokens wherever there is room, and needs hardly more levels of
nesting than there are tokens. -/
def Suits (w : Surroundings) (follow : Kind → Prop) (step : Nat → Parse α) (cost slack : Nat)
    (ts : List Token) (a : α) : Prop :=
  ∃ room, room ≤ ts.length + slack ∧ Settles w follow step cost room ts a

theorem GivesUp.tooDeep {p : Parser} {us : List Token} {r : EStateM.Result Interrupt Parser α}
    (h : GivesUp p us r) : TooDeep r := by
  obtain ⟨t, q, rfl, hf, -⟩ := h
  exact ⟨⟨.tooDeep, t⟩, by rw [final, hf]; exact List.mem_cons_self, rfl⟩

theorem TooDeep.of_suffix {r : EStateM.Result Interrupt Parser α}
    {r' : EStateM.Result Interrupt Parser β} (h : TooDeep r)
    (hs : (final r).faults <:+ (final r').faults) : TooDeep r' := by
  obtain ⟨f, hf, he⟩ := h
  exact ⟨f, hs.mem hf, he⟩

theorem TooDeep.bind {x : Parse α} {f : α → Parse β} {p : Parser} (h : TooDeep (x p))
    (hf : ∀ a, Steady Kind.passable (f a)) : TooDeep ((x >>= f) p) := by
  cases hx : x p with
  | ok a q =>
    rw [bind_ok hx]
    rw [hx] at h
    exact h.of_suffix ((hf a).follows q).faults
  | error e q =>
    rw [bind_error hx]
    rw [hx] at h
    exact h.of_suffix List.suffix_rfl

/-! Steps in sequence. -/

theorem Suits.of_fits {step : Nat → Parse α} {w : Surroundings} {rank cost slack : Nat}
    {ts : List Token} {a : α} (h : Fits step rank cost slack ts a) :
    Suits w (fun k => rank < k.rank) step cost slack ts a := by
  obtain ⟨room, hroom, h⟩ := h
  refine ⟨room, hroom, fun n p us _ hk hp hn hd => ?_⟩
  obtain ⟨hok, hup⟩ := @h n p us hp hk hn hd
  exact ⟨hok, fun hr => (hup hr).tooDeep⟩

/-- A step of an expression, and what follows it. -/
theorem Suits.after_fits {x : Nat → Parse α} {f : Nat → α → Parse β} {w : Surroundings}
    {follow : Kind → Prop} {r c₁ c₂ s₁ s₂ : Nat} {ts us : List Token} {a : α} {b : β}
    (hx : Fits x r c₁ s₁ ts a) (hf : Suits w follow (fun n => f n a) c₂ s₂ us b) (cost slack : Nat)
    (hr : ∀ vs, follow (nextKind vs) → r < (nextKind (us ++ vs)).rank)
    (hc₁ : c₁ ≤ cost) (hc₂ : c₂ ≤ cost + 32 * ts.length) (hs₁ : s₁ ≤ us.length + slack)
    (hs₂ : s₂ ≤ ts.length + slack) :
    Suits w follow (fun n => x n >>= f n) cost slack (ts ++ us) b := by
  obtain ⟨m₁, hm₁, hx⟩ := hx
  obtain ⟨m₂, hm₂, hf⟩ := hf
  refine ⟨max m₁ m₂, by rw [List.length_append]; omega, fun n p vs hw hk hp hn hd => ?_⟩
  have hts : p.rest = ts ++ (us ++ vs) := by rw [hp, List.append_assoc]
  have hus : (p.pass ts).rest = us ++ vs := Parser.pass_rest hts
  have hlen : p.rest.length = ts.length + (p.pass ts).rest.length := by
    rw [hus, hts, List.length_append]
  obtain ⟨hok₁, hup₁⟩ := @hx n p _ hts (hr vs hk) (by omega) hd
  obtain ⟨hok₂, hup₂⟩ := @hf n (p.pass ts) vs hw hk hus (by omega) hd
  dsimp only [Parser.pass_depth] at hok₂ hup₂ ⊢
  by_cases hm : p.depth + m₁ ≤ maxNesting
  · rw [bind_ok (hok₁ hm)]
    refine ⟨fun h => ?_, fun h => hup₂ (by omega)⟩
    rw [hok₂ (by omega), Parser.pass_pass]
  · exact ⟨fun h => absurd h (by omega), fun _ => (hup₁ (by omega)).bind.tooDeep⟩

/-- A step of a statement, and what follows it. -/
theorem Suits.seq {x : Nat → Parse α} {f : Nat → α → Parse β} {w : Surroundings}
    {follow follow' : Kind → Prop} {c₁ c₂ s₁ s₂ : Nat} {ts us : List Token} {a : α} {b : β}
    (hx : Suits w follow x c₁ s₁ ts a) (hf : Suits w follow' (fun n => f n a) c₂ s₂ us b)
    (hsteady : ∀ n a, Steady Kind.passable (f n a))
    (hr : ∀ vs, follow' (nextKind vs) → follow (nextKind (us ++ vs)))
    (hc : c₂ ≤ c₁ + 32 * ts.length) (hs : s₂ ≤ s₁ + ts.length) :
    Suits w follow' (fun n => x n >>= f n) c₁ s₁ (ts ++ us) b := by
  obtain ⟨m₁, hm₁, hx⟩ := hx
  obtain ⟨m₂, hm₂, hf⟩ := hf
  refine ⟨max m₁ m₂, by rw [List.length_append]; omega, fun n p vs hw hk hp hn hd => ?_⟩
  have hts : p.rest = ts ++ (us ++ vs) := by rw [hp, List.append_assoc]
  have hus : (p.pass ts).rest = us ++ vs := Parser.pass_rest hts
  have hlen : p.rest.length = ts.length + (p.pass ts).rest.length := by
    rw [hus, hts, List.length_append]
  obtain ⟨hok₁, hup₁⟩ := @hx n p _ hw (hr vs hk) hts hn hd
  obtain ⟨hok₂, hup₂⟩ := @hf n (p.pass ts) vs hw hk hus (by omega) hd
  dsimp only [Parser.pass_depth] at hok₂ hup₂ ⊢
  by_cases hm : p.depth + m₁ ≤ maxNesting
  · rw [bind_ok (hok₁ hm)]
    refine ⟨fun h => ?_, fun h => hup₂ (by omega)⟩
    rw [hok₂ (by omega), Parser.pass_pass]
  · exact ⟨fun h => absurd h (by omega), fun _ => (hup₁ (by omega)).bind fun a => hsteady n a⟩

/-- A step that takes one token, and what follows it. -/
theorem Suits.token {x : Nat → Parse α} {f : Nat → α → Parse β} {w : Surroundings}
    {follow : Kind → Prop} {cost slack : Nat} {t : Token} {us : List Token} {a : α} {b : β}
    (hx : Fits x 0 0 0 [t] a) (hf : Suits w follow (fun n => f n a) cost slack us b)
    (hc : cost ≤ 32) (hs : slack ≤ 1) :
    Suits w follow (fun n => x n >>= f n) 0 0 (t :: us) b :=
  .after_fits hx hf 0 0 (fun _ _ => Kind.rank_pos _) (Nat.le_refl 0) (by simpa using hc)
    (Nat.zero_le _) (by simpa using hs)

/-- A step of an expression, and what follows it from a token on that does not belong to it. -/
theorem Suits.before {x : Nat → Parse α} {f : Nat → α → Parse β} {w : Surroundings}
    {follow : Kind → Prop} {r cost slack : Nat} {ts us : List Token} {t : Token} {a : α} {b : β}
    (hx : Fits x r cost slack ts a) (hf : Suits w follow (fun n => f n a) 0 0 (t :: us) b)
    (hr : r < t.kind.rank) (hs : slack ≤ 1) :
    Suits w follow (fun n => x n >>= f n) cost 0 (ts ++ t :: us) b :=
  .after_fits hx hf cost 0 (fun _ _ => hr) (Nat.le_refl _) (Nat.zero_le _) (by simp; omega)
    (Nat.zero_le _)

theorem Suits.map {x : Nat → Parse α} {w : Surroundings} {follow : Kind → Prop} {cost slack : Nat}
    {ts : List Token} {a : α} (g : α → β) (h : Suits w follow x cost slack ts a) :
    Suits w follow (fun n => x n >>= fun y => pure (g y)) cost slack ts (g a) := by
  obtain ⟨room, hroom, h⟩ := h
  refine ⟨room, hroom, fun n p us hw hk hp hn hd => ?_⟩
  obtain ⟨hok, hup⟩ := @h n p us hw hk hp hn hd
  exact ⟨fun hr => bind_ok (hok hr), fun hr => (hup hr).bind fun _ => (keeps_pure _).toSteady⟩

theorem Suits.mono {step : Nat → Parse α} {w : Surroundings} {follow follow' : Kind → Prop}
    {c c' s s' : Nat} {ts : List Token} {a : α} (h : Suits w follow step c s ts a)
    (hf : ∀ k, follow' k → follow k) (hc : c ≤ c') (hs : s ≤ s') :
    Suits w follow' step c' s' ts a := by
  obtain ⟨room, hroom, h⟩ := h
  exact ⟨room, by omega, fun _ _ _ hw hk hp hn hd => h hw (hf _ hk) hp (by omega) hd⟩

theorem Suits.succ {step next : Nat → Parse α} {w : Surroundings} {follow : Kind → Prop}
    {cost slack : Nat} {ts : List Token} {a : α} (hs : ∀ n, step (n + 1) = next n)
    (h : Suits w follow next cost slack ts a) : Suits w follow step (cost + 1) slack ts a := by
  obtain ⟨room, hroom, h⟩ := h
  refine ⟨room, hroom, fun n p us hw hk hp hn hd => ?_⟩
  obtain ⟨n, rfl⟩ : ∃ m, n = m + 1 := ⟨n - 1, by omega⟩
  rw [hs]
  exact h hw hk hp (by omega) hd

theorem Suits.nested {step : Nat → Parse α} {w : Surroundings} {follow : Kind → Prop}
    {cost slack : Nat} {ts : List Token} {a : α} (h : Suits w follow step cost slack ts a) :
    Suits w follow (fun n => nested (step n)) cost (slack + 1) ts a := by
  obtain ⟨room, hroom, h⟩ := h
  refine ⟨room + 1, by omega, fun n p us hw hk hp hn hd => ?_⟩
  dsimp only
  by_cases hlt : p.depth < maxNesting
  · obtain ⟨hok, hup⟩ := @h n (p.atDepth (p.depth + 1)) us hw hk hp hn hlt
    simp only [Parser.atDepth_depth] at hok hup
    rw [nested_ok hlt]
    refine ⟨fun hr => ?_, fun hr => (hup (by omega)).of_suffix ?_⟩
    · rw [hok (by omega)]
      rfl
    · cases step n (p.atDepth (p.depth + 1)) <;> exact List.suffix_rfl
  · refine ⟨fun hr => absurd hr (by omega), fun _ => ?_⟩
    exact (givesUp_nested (by omega) List.nil_suffix).tooDeep

/-- A step in a changed state: what it changes is taken back, and it keeps the rest. -/
theorem Suits.bracket {enter : Parser → Parser} {leave : Parser → Parser → Parser}
    {step : Nat → Parse α} {v w : Surroundings} {follow : Kind → Prop} {cost slack : Nat}
    {ts : List Token} {a : α} (h : Suits v follow step cost slack ts a)
    (hw : ∀ p : Parser, p.surroundings = w → (enter p).surroundings = v)
    (hrest : ∀ p, (enter p).rest = p.rest) (hdepth : ∀ p, (enter p).depth = p.depth)
    (hleave : ∀ p, leave p ((enter p).pass ts) = p.pass ts)
    (hfaults : ∀ p q, (leave p q).faults = q.faults) :
    Suits w follow (fun n => bracket enter leave (step n)) cost slack ts a := by
  obtain ⟨room, hroom, h⟩ := h
  refine ⟨room, hroom, fun n p us hp hk hrest' hn hd => ?_⟩
  obtain ⟨hok, hup⟩ := @h n (enter p) us (hw p hp) hk (by rw [hrest, hrest'])
    (by rw [hrest]; exact hn) (by rw [hdepth]; exact hd)
  rw [hdepth] at hok hup
  dsimp only
  rw [bracket_apply]
  refine ⟨fun hr => ?_, fun hr => (hup hr).of_suffix ?_⟩
  · rw [hok hr]
    exact congrArg _ (hleave p)
  · cases step n (enter p) with
    | ok b q => exact List.suffix_iff_eq_append.2 (by simp [final, hfaults])
    | error e q => exact List.suffix_iff_eq_append.2 (by simp [final, hfaults])

theorem Suits.inLoop {step : Nat → Parse α} {w : Surroundings} {follow : Kind → Prop}
    {cost slack : Nat} {ts : List Token} {a : α} (h : Suits w.loopBody follow step cost slack ts a) :
    Suits w follow (fun n => inLoop (step n)) cost slack ts a :=
  h.bracket (fun p hp => by rw [← hp]; exact loopBody_surroundings p) (fun _ => rfl) (fun _ => rfl)
    (fun _ => rfl) (fun _ _ => rfl)

theorem Suits.inFunction {step : Nat → Parse α} {w : Surroundings} {follow : Kind → Prop}
    {cost slack : Nat} {ts : List Token} {a : α}
    (h : Suits .functionBody follow step cost slack ts a) :
    Suits w follow (fun n => inFunction (step n)) cost slack ts a :=
  h.bracket (fun p _ => functionBody_surroundings p) (fun _ => rfl) (fun _ => rfl)
    (fun _ => rfl) (fun _ _ => rfl)

theorem Suits.inBlock {step : Nat → Parse α} {w : Surroundings} {follow : Kind → Prop}
    {cost slack : Nat} {ts : List Token} {a : α} (h : Suits w follow step cost slack ts a) :
    Suits w follow (fun n => inBlock (step n)) cost slack ts a :=
  h.bracket (fun _ hp => hp) (fun _ => rfl) (fun _ => rfl) (fun _ => rfl) (fun _ _ => rfl)

theorem Suits.recovering {step : Nat → Parse α} {w : Surroundings} {follow : Kind → Prop}
    {cost slack : Nat} {ts : List Token} {a : α} (h : Suits w follow step cost slack ts a) :
    Suits w follow (fun n => recovering (step n)) cost slack ts (some a) := by
  obtain ⟨room, hroom, h⟩ := h
  refine ⟨room, hroom, fun n p us hw hk hp hn hd => ?_⟩
  obtain ⟨hok, hup⟩ := @h n p.startingHere us hw hk hp hn hd
  dsimp only
  rw [recovering_apply]
  refine ⟨fun hr => ?_, fun hr => (hup hr).of_suffix ?_⟩
  · rw [hok hr]
    rfl
  · split <;> rename_i hs <;> rw [hs] <;> exact List.suffix_rfl

/-- A step that, before the given token, takes it and goes on as another step. -/
theorem Suits.of_first {step next : Nat → Parse α} {w : Surroundings} {follow : Kind → Prop}
    {cost slack : Nat} {t : Token} {us : List Token} {a : α}
    (hs : ∀ n (p : Parser) ws, p.rest = t :: ws → step n p = next n (p.pass [t]))
    (h : Suits w follow next cost slack us a) (hc : cost ≤ 32) (hsl : slack ≤ 1) :
    Suits w follow step 0 0 (t :: us) a := by
  obtain ⟨room, hroom, h⟩ := h
  refine ⟨room, by simp; omega, fun n p vs hw hk hp hn hd => ?_⟩
  have hrest : (p.pass [t]).rest = us ++ vs := Parser.pass_one hp
  have hlen : p.rest.length = (p.pass [t]).rest.length + 1 := by rw [hrest, hp]; simp
  rw [hs n p _ hp]
  obtain ⟨hok, hup⟩ := @h n (p.pass [t]) vs hw hk hrest (by omega) hd
  refine ⟨fun hr => ?_, hup⟩
  rw [hok hr, Parser.pass_pass]
  rfl

theorem Fits.fmap {x : Nat → Parse α} {rank cost slack : Nat} {ts : List Token} {a : α} (g : α → β)
    (h : Fits x rank cost slack ts a) :
    Fits (fun n => g <$> x n) rank cost slack ts (g a) := by
  simp only [map_eq_pure_bind]
  exact h.map g

/-! Clauses and statements without parts. -/

/-- An expression and the semicolon after it. -/
theorem fits_terminated {ts : List Token} {e : Expr} {semicolon : Token} (what : String)
    (g : Expr → α) (d : Derives (.phrase .expression e) ts) (hs : semicolon.kind = .semicolon) :
    Fits (fun n => expression n >>= fun e => expect .semicolon what >>= fun _ => pure (g e))
      0 26 0 (ts ++ [semicolon]) (g e) := by
  refine (fits_expression (parsed_of_derives d).reads).before
    (.token (fits_expect _ (by decide) hs) (fits_pure (g e) 0) ?_ ?_) ?_ ?_
  case refine_3 => rw [hs]; decide
  all_goals decide

theorem fits_varDeclaration {keyword : Token} {ts : List Token} {s : Stmt}
    (h : VariableDeclaration s (keyword :: ts)) : Fits varDeclaration 0 0 0 ts s := by
  cases h with
  | bare _ hn hs =>
    refine .token (fits_expect _ (by decide) hn) (.skip ?_ (.token (fits_expect _ (by decide) hs)
      (fits_pure _ 0) ?_ ?_)) ?_ ?_
    case refine_1 => rw [hs]; rfl
    all_goals decide
  | initialized _ hn he d hs =>
    refine .token (fits_expect _ (by decide) hn) (.token (fits_accept rfl (by simp [he]))
      (fits_terminated _ _ d hs) ?_ ?_) ?_ ?_
    all_goals decide

theorem ne_of_starts {t : Token} {k : Kind} {rank : Nat} (ht : t.kind.starts rank = true)
    (hk : k.starts rank = false) : t.kind ≠ k := by
  intro h
  rw [h, hk] at ht
  cases ht

theorem fits_forInitializer {init : Option Stmt} {ts : List Token} (h : Initializer init ts) :
    Fits forInitializer 0 26 0 ts init := by
  cases h with
  | none hs =>
    refine Fits.mono (.token (fits_accept rfl (by simp [hs])) (fits_pure none 0) ?_ ?_) ?_ ?_ ?_
    all_goals decide
  | declared h =>
    obtain ⟨keyword, us, rfl, hv⟩ := h.starts
    refine Fits.mono (.skip ?_ (.token (fits_accept rfl (by simp [hv]))
      ((fits_varDeclaration h).fmap some) ?_ ?_)) ?_ ?_ ?_
    case refine_1 => rw [hv]; rfl
    all_goals decide
  | expression d hs =>
    obtain ⟨t, us, rfl, ht⟩ := d.phrase_starts
    exact .skip (decide_eq_false (ne_of_starts ht rfl)) (.skip (decide_eq_false (ne_of_starts ht rfl))
      ((fits_terminated _ Stmt.expression d hs).fmap some))

theorem optionalExpression_none {stop : Kind} (n : Nat) {p : Parser} {t : Token} {us : List Token}
    (hp : p.rest = t :: us) (ht : t.kind = stop) : optionalExpression stop n p = .ok none p := by
  rw [optionalExpression, bind_ok (check_apply stop p), Parser.current_cons hp, ht]
  simp only [decide_true, if_true]
  rfl

theorem fits_optionalExpression {stop : Kind} {ts : List Token} {e : Expr}
    (d : Derives (.phrase .expression e) ts) (hstop : stop.starts 12 = false) :
    Fits (optionalExpression stop) 12 26 1 ts (some e) := by
  have hfits := (fits_expression (parsed_of_derives d).reads).fmap some
  obtain ⟨s, us, rfl, hs⟩ := d.phrase_starts
  exact .check_false (ne_of_starts hs hstop) hfits

/-- A clause that may be missing, and what follows it from its end on. -/
theorem Suits.optional {stop : Kind} {f : Nat → Option Expr → Parse β} {w : Surroundings}
    {follow : Kind → Prop} {o : Option Expr} {ts us : List Token} {t : Token} {b : β}
    (d : DerivesOptional o ts) (ht : t.kind = stop) (hstop : stop.starts 12 = false)
    (hrank : 12 < stop.rank) (h : Suits w follow (fun n => f n o) 0 0 (t :: us) b) :
    Suits w follow (fun n => optionalExpression stop n >>= f n) 26 0 (ts ++ t :: us) b := by
  cases d with
  | none =>
    obtain ⟨room, hroom, h⟩ := h
    refine ⟨room, hroom, fun n p vs hw hk hp hn hd => ?_⟩
    dsimp only
    rw [bind_ok (optionalExpression_none n hp ht)]
    exact h hw hk hp (by omega) hd
  | some d =>
    exact .before (fits_optionalExpression d hstop) h (by rw [ht]; exact hrank) (Nat.le_refl 1)

theorem parameterList_within (n : Nat) {count : Nat} (h : count < maxArguments)
    (before : List Token) :
    parameterList (n + 1) count before = (do
      let name ← expect .identifier "parameter name"
      match ← accept (· = .comma) with
      | none => pure (name :: before).reverse
      | some _ => parameterList n (count + 1) (name :: before)) := by
  rw [parameterList_succ, tally_within _ h]
  rfl

/-- The parameters are added to those before them. -/
theorem fits_parameterList {names ts : List Token} (h : Parameters names ts) (hne : names ≠ []) :
    ∀ count before, count + names.length ≤ maxArguments →
      Fits (fun n => parameterList n count before) 12 1 0 ts (before.reverse ++ names) := by
  induction h with
  | none => exact absurd rfl hne
  | @one name hn =>
    intro count before hlen
    have last : Fits (fun n => accept (· = .comma) >>= fun
        | none => pure (name :: before).reverse
        | some _ => parameterList n (count + 1) (name :: before)) 12 0 0 [] (name :: before).reverse :=
      (fits_accept_none (rank_le_of_eq (by decide))).finish (fits_pure _ _) (Nat.le_refl _)
        (Nat.le_refl _)
    rw [← List.reverse_cons]
    exact .succ (fun n => parameterList_within n hlen before)
      (.token (fits_expect _ (by decide) hn) last (by decide) (by decide))
  | @more name comma other names ts hn hc _ ih =>
    intro count before hlen
    have more := ih nofun (count + 1) (name :: before) (by simp at hlen ⊢; omega)
    rw [List.reverse_cons, List.append_assoc, List.singleton_append] at more
    refine .succ (fun n => parameterList_within n (by simp at hlen; omega) before)
      (.token (fits_expect _ (by decide) hn) (.token (fits_accept rfl (by simp [hc])) more ?_ ?_)
        ?_ ?_)
    all_goals decide

theorem fits_parameters {left right : Token} {names ts : List Token} (hl : left.kind = .leftParen)
    (h : Parameters names ts) (hlen : names.length ≤ maxArguments) (hr : right.kind = .rightParen) :
    Fits parameters 0 0 0 (left :: (ts ++ [right])) names := by
  have inside : Fits (fun n => optionalParameters n >>= fun names =>
      expect .rightParen "')' after parameters" >>= fun _ => pure names) 0 1 0 (ts ++ [right])
      names := by
    cases names with
    | nil =>
      cases h
      simp only [optionalParameters, bind_assoc]
      exact Fits.mono (.check_true hr ((fits_expect _ (by decide) hr).map (fun _ => [])))
        (Nat.le_refl _) (by decide) (Nat.le_refl _)
    | cons name names =>
      obtain ⟨us, rfl, hn⟩ := h.starts
      have list : Fits optionalParameters 12 1 0 (name :: us) (name :: names) :=
        .check_false (by rw [hn]; decide) (fits_parameterList h (List.cons_ne_nil _ _) 0 [] (by omega))
      refine list.before (.token (fits_expect _ (by decide) hr) (fits_pure (name :: names) 0) ?_ ?_)
        ?_ ?_
      case refine_3 => rw [hr]; decide
      all_goals decide
  simp only [funext parameters_eq]
  exact .token (fits_expect _ (by decide) hl) inside (by decide) (by decide)

/-! Statements. -/

/-- Any token may follow. -/
theorem Suits.of_closed {step : Nat → Parse α} {w : Surroundings} {follow : Kind → Prop}
    {cost slack : Nat} {ts : List Token} {a : α} (h : Fits step 0 cost slack ts a) :
    Suits w follow step cost slack ts a :=
  (Suits.of_fits h).mono (fun k _ => Kind.rank_pos k) (Nat.le_refl _) (Nat.le_refl _)

theorem Suits.demand {holds : Parser → Bool} {error : SyntaxError} {t : Token}
    {f : Nat → Unit → Parse α} {w : Surroundings} {follow : Kind → Prop} {cost slack : Nat}
    {ts : List Token} {a : α} (hw : ∀ p : Parser, p.surroundings = w → holds p = true)
    (h : Suits w follow (fun n => f n ()) cost slack ts a) :
    Suits w follow (fun n => demand holds error t >>= f n) cost slack ts a := by
  obtain ⟨room, hroom, h⟩ := h
  refine ⟨room, hroom, fun n p us hp hk hrest hn hd => ?_⟩
  dsimp only
  rw [bind_ok (demand_true (hw p hp))]
  exact h hp hk hrest hn hd

/-- The tokens that may follow a statement: an `else` belongs to it unless it is closed. -/
def MayFollow (closed : Bool) (k : Kind) : Prop := closed = false → k ≠ .kwElse

theorem suits_statement {w : Surroundings} {follow : Kind → Prop} {ts : List Token} {s : Stmt}
    (h : Suits w follow statementProper 26 0 ts s) : Suits w follow statement 27 1 ts s :=
  .succ statement_succ (.nested h)

/-- A statement that starts with a keyword. -/
theorem suits_keyword {w : Surroundings} {follow : Kind → Prop} {next : Nat → Parse Stmt}
    {cost slack : Nat} {t : Token} {ts : List Token} {s : Stmt}
    (hs : ∀ n (p : Parser), p.current = t → statementProper n p = next n (p.pass [t]))
    (h : Suits w follow next cost slack ts s) (hc : cost ≤ 32) (hsl : slack ≤ 1) :
    Suits w follow statement 27 1 (t :: ts) s :=
  suits_statement ((Suits.of_first (fun n p _ hp => hs n p (Parser.current_cons hp)) h hc hsl).mono
    (fun _ h => h) (by decide) (by decide))

theorem suits_print {w : Surroundings} {follow : Kind → Prop} {keyword semicolon : Token}
    {ts : List Token} {e : Expr} (hk : keyword.kind = .kwPrint)
    (d : Derives (.phrase .expression e) ts) (hs : semicolon.kind = .semicolon) :
    Suits w follow statement 27 1 (keyword :: (ts ++ [semicolon])) (.print keyword e) := by
  refine suits_keyword (fun n p hp => ?_)
    (.of_closed (fits_terminated "';' after value" (Stmt.print keyword) d hs)) (by decide) (by decide)
  simp only [statementProper, hp, hk]
  rfl

theorem suits_break {w : Surroundings} {follow : Kind → Prop} {keyword semicolon : Token}
    (hw : w.loop = true) (hk : keyword.kind = .kwBreak) (hs : semicolon.kind = .semicolon) :
    Suits w follow statement 27 1 [keyword, semicolon] (.breakLoop keyword) := by
  have body : Suits w follow (fun _ => breakStatement keyword) 0 0 [semicolon]
      (.breakLoop keyword) := by
    rw [breakStatement_eq]
    refine .demand (fun p hp => ?_) (.of_closed ((fits_expect _ (by decide) hs).map _))
    rw [← hp] at hw
    exact hw
  refine suits_keyword (fun n p hp => ?_) body (by decide) (by decide)
  simp only [statementProper, hp, hk]

theorem suits_continue {w : Surroundings} {follow : Kind → Prop} {keyword semicolon : Token}
    (hw : w.loop = true) (hk : keyword.kind = .kwContinue) (hs : semicolon.kind = .semicolon) :
    Suits w follow statement 27 1 [keyword, semicolon] (.continueLoop keyword) := by
  have body : Suits w follow (fun _ => continueStatement keyword) 0 0 [semicolon]
      (.continueLoop keyword) := by
    rw [continueStatement_eq]
    refine .demand (fun p hp => ?_) (.of_closed ((fits_expect _ (by decide) hs).map _))
    rw [← hp] at hw
    exact hw
  refine suits_keyword (fun n p hp => ?_) body (by decide) (by decide)
  simp only [statementProper, hp, hk]

theorem suits_return {w : Surroundings} {follow : Kind → Prop} {keyword semicolon : Token}
    {ts : List Token} {value : Option Expr} (hw : w.function = true)
    (hk : keyword.kind = .kwReturn) (d : DerivesOptional value ts)
    (hs : semicolon.kind = .semicolon) :
    Suits w follow statement 27 1 (keyword :: (ts ++ [semicolon])) (.returnValue keyword value) := by
  have body : Suits w follow (fun n => returnStatement n keyword) 26 0 (ts ++ [semicolon])
      (.returnValue keyword value) := by
    simp only [returnStatement_eq]
    refine .demand (fun p hp => ?_) (.optional d hs rfl (by decide)
      (.of_closed ((fits_expect _ (by decide) hs).map _)))
    rw [← hp] at hw
    exact hw
  refine suits_keyword (fun n p hp => ?_) body (by decide) (by decide)
  simp only [statementProper, hp, hk]

theorem suits_empty {w : Surroundings} {follow : Kind → Prop} {semicolon : Token}
    (hs : semicolon.kind = .semicolon) : Suits w follow statement 27 1 [semicolon] .empty := by
  refine suits_keyword (fun n p hp => ?_) (.of_closed (fits_pure Stmt.empty 0)) (by decide)
    (by decide)
  simp only [statementProper, hp, hs]
  rfl

theorem statementProper_expression (n : Nat) {p : Parser} {t : Token} (hp : p.current = t)
    (ht : t.kind.starts 12 = true) : statementProper n p = expressionStatement n p := by
  unfold statementProper
  rw [hp]
  generalize t.kind = k at ht
  cases k <;> first | rfl | cases ht

theorem suits_expressionStatement {w : Surroundings} {follow : Kind → Prop} {semicolon : Token}
    {ts : List Token} {e : Expr} (d : Derives (.phrase .expression e) ts)
    (hs : semicolon.kind = .semicolon) :
    Suits w follow statement 27 1 (ts ++ [semicolon]) (.expression e) := by
  have body : Suits w follow expressionStatement 26 0 (ts ++ [semicolon]) (.expression e) :=
    .of_closed (fits_terminated _ Stmt.expression d hs)
  obtain ⟨t, us, rfl, ht⟩ := d.phrase_starts
  obtain ⟨room, hroom, body⟩ := body
  refine suits_statement ⟨room, hroom, fun n p vs hw hk hp hn hd => ?_⟩
  rw [statementProper_expression n (Parser.current_cons hp) ht]
  exact body hw hk hp hn hd

/-- The declarations are added to those before them, up to a token that ends them. -/
structure Lists (w : Surroundings) (ss : List Stmt) (ts : List Token) : Prop where
  inBlock : ∀ before, Suits w (· = .rightBrace) (fun n => blockBody n before) 29 1 ts
    (before.reverse ++ ss)
  atTop : ∀ before, Suits w (· = .endOfInput) (fun n => program n before) 29 1 ts
    (before.reverse ++ ss)

theorem suits_block {w : Surroundings} {follow : Kind → Prop} {right : Token} {ts : List Token}
    {ss : List Stmt} (body : Lists w ss ts) (hr : right.kind = .rightBrace) :
    Suits w follow block 30 1 (ts ++ [right]) ss := by
  refine .succ (fun _ => rfl) (.inBlock ((body.inBlock []).seq
    (.of_closed ((fits_expect _ (by decide) hr).map (fun _ => ss))) (fun n ss => ?_) ?_ ?_ ?_))
  · exact ((keeps_expect _ rfl rfl).bind fun _ => keeps_pure _).toSteady
  · exact fun _ _ => hr
  · exact Nat.zero_le _
  · exact Nat.zero_le _

theorem suits_bracedBlock {w : Surroundings} {follow : Kind → Prop} {left right : Token}
    {ts : List Token} {ss : List Stmt} (hl : left.kind = .leftBrace) (body : Lists w ss ts)
    (hr : right.kind = .rightBrace) :
    Suits w follow statement 27 1 (left :: (ts ++ [right])) (.block ss) := by
  refine suits_keyword (fun n p hp => ?_) ((suits_block body hr).map Stmt.block) (by decide)
    (by decide)
  simp only [statementProper, hp, hl]

/-- What follows the first branch of an `if`. -/
def elseBranch (n : Nat) (condition : Expr) (yes : Stmt) : Parse Stmt := do
  match ← accept (· = .kwElse) with
  | none => pure (.branch condition yes none)
  | some _ =>
    let no ← statement n
    pure (.branch condition yes (some no))

theorem steady_elseBranch (n : Nat) (condition : Expr) (yes : Stmt) :
    Steady Kind.passable (elseBranch n condition yes) := by
  refine ((keeps_accept_kind rfl rfl).bind fun o => ?_).toSteady
  cases o with
  | none => exact keeps_pure _
  | some _ => exact (statementCourse n).statement.bind fun no => keeps_pure _

/-- A condition in parentheses after the keyword of a statement. -/
theorem suits_condition {w : Surroundings} {follow : Kind → Prop} {f : Nat → Expr → Parse Stmt}
    {left right : Token} {ts us : List Token} {e : Expr} {s : Stmt} (what what' : String)
    (hl : left.kind = .leftParen) (d : Derives (.phrase .expression e) ts)
    (hr : right.kind = .rightParen) (h : Suits w follow (fun n => f n e) 27 1 us s) :
    Suits w follow (fun n => expect .leftParen what >>= fun _ => expression n >>= fun e =>
      expect .rightParen what' >>= fun _ => f n e) 0 0 (left :: (ts ++ right :: us)) s := by
  refine .token (fits_expect _ (by decide) hl) (.before (fits_expression (parsed_of_derives d).reads)
    (.token (fits_expect _ (by decide) hr) h ?_ ?_) ?_ ?_) ?_ ?_
  case refine_3 => rw [hr]; decide
  all_goals decide

theorem suits_branch {w : Surroundings} {closed : Bool} {keyword left right : Token}
    {ts us : List Token} {e : Expr} {s : Stmt} (hk : keyword.kind = .kwIf)
    (hl : left.kind = .leftParen) (d : Derives (.phrase .expression e) ts)
    (hr : right.kind = .rightParen) (yes : Suits w (MayFollow closed) statement 27 1 us s) :
    Suits w (MayFollow false) statement 27 1 (keyword :: left :: (ts ++ right :: us))
      (.branch e s none) := by
  have tail : Suits w (MayFollow false) (fun n => elseBranch n e s) 0 0 [] (.branch e s none) := by
    refine ⟨0, Nat.zero_le _, fun n p vs _ hk hp _ hd => ⟨fun _ => ?_, fun h => absurd h (by omega)⟩⟩
    have hne : p.current.kind ≠ .kwElse := by
      rw [Parser.current_kind, show p.rest = vs from hp]
      exact hk rfl
    exact bind_ok (accept_none (decide_eq_false hne))
  have body := yes.seq tail (fun n yes => steady_elseBranch n e yes) (fun _ h _ => h rfl)
    (Nat.zero_le _) (Nat.zero_le _)
  rw [List.append_nil] at body
  have whole : Suits w (MayFollow false) ifStatement 1 0 (left :: (ts ++ right :: us))
      (.branch e s none) := .succ (fun n => rfl) (suits_condition _ _ hl d hr body)
  refine suits_keyword (fun n p hp => ?_) whole (by decide) (by decide)
  simp only [statementProper, hp, hk]

theorem suits_branches {w : Surroundings} {closed : Bool} {keyword left right other : Token}
    {ts us vs : List Token} {e : Expr} {s s' : Stmt} (hk : keyword.kind = .kwIf)
    (hl : left.kind = .leftParen) (d : Derives (.phrase .expression e) ts)
    (hr : right.kind = .rightParen) (yes : Suits w (MayFollow true) statement 27 1 us s)
    (ho : other.kind = .kwElse) (no : Suits w (MayFollow closed) statement 27 1 vs s') :
    Suits w (MayFollow closed) statement 27 1
      (keyword :: left :: (ts ++ right :: (us ++ other :: vs))) (.branch e s (some s')) := by
  have tail : Suits w (MayFollow closed) (fun n => elseBranch n e s) 0 0 (other :: vs)
      (.branch e s (some s')) :=
    .token (fits_accept rfl (by simp [ho])) (no.map fun no => Stmt.branch e s (some no)) (by decide)
      (by decide)
  have body := yes.seq tail (fun n yes => steady_elseBranch n e yes) (fun _ _ h => nomatch h)
    (Nat.zero_le _) (Nat.zero_le _)
  have whole : Suits w (MayFollow closed) ifStatement 1 0
      (left :: (ts ++ right :: (us ++ other :: vs))) (.branch e s (some s')) :=
    .succ (fun n => rfl) (suits_condition _ _ hl d hr body)
  refine suits_keyword (fun n p hp => ?_) whole (by decide) (by decide)
  simp only [statementProper, hp, hk]

theorem suits_while {w : Surroundings} {closed : Bool} {keyword left right : Token}
    {ts us : List Token} {e : Expr} {s : Stmt} (hk : keyword.kind = .kwWhile)
    (hl : left.kind = .leftParen) (d : Derives (.phrase .expression e) ts)
    (hr : right.kind = .rightParen)
    (body : Suits w.loopBody (MayFollow closed) statement 27 1 us s) :
    Suits w (MayFollow closed) statement 27 1 (keyword :: left :: (ts ++ right :: us))
      (.loop e s none) := by
  have whole : Suits w (MayFollow closed) whileStatement 1 0 (left :: (ts ++ right :: us))
      (.loop e s none) :=
    .succ (fun n => rfl) (suits_condition _ _ hl d hr (body.inLoop.map fun s => Stmt.loop e s none))
  refine suits_keyword (fun n p hp => ?_) whole (by decide) (by decide)
  simp only [statementProper, hp, hk]

theorem suits_for {w : Surroundings} {closed : Bool} {keyword left semicolon right : Token}
    {is cs rs us : List Token} {init : Option Stmt} {condition increment : Option Expr} {s : Stmt}
    (hk : keyword.kind = .kwFor) (hl : left.kind = .leftParen) (hi : Initializer init is)
    (hc : DerivesOptional condition cs) (hs : semicolon.kind = .semicolon)
    (hn : DerivesOptional increment rs) (hr : right.kind = .rightParen)
    (body : Suits w.loopBody (MayFollow closed) statement 27 1 us s) :
    Suits w (MayFollow closed) statement 27 1
      (keyword :: left :: (is ++ (cs ++ semicolon :: (rs ++ right :: us))))
      (.initialized init (.loop (condition.getD (.literal (.bool true))) s increment)) := by
  have whole : Suits w (MayFollow closed) forStatement 1 0
      (left :: (is ++ (cs ++ semicolon :: (rs ++ right :: us))))
      (forLoop init condition increment s) := by
    refine .succ forStatement_succ (.token (fits_expect _ (by decide) hl)
      (.after_fits (fits_forInitializer hi) (.optional hc hs rfl (by decide)
        (.token (fits_expect _ (by decide) hs) (.optional hn hr rfl (by decide)
          (.token (fits_expect _ (by decide) hr) (body.inLoop.map _) ?_ ?_)) ?_ ?_))
        26 0 (fun _ _ => Kind.rank_pos _) ?_ (Nat.le_add_right _ _) (Nat.zero_le _)
        (Nat.zero_le _)) ?_ ?_)
    all_goals decide
  rw [← forLoop_eq]
  refine suits_keyword (fun n p hp => ?_) whole (by decide) (by decide)
  simp only [statementProper, hp, hk]

/-! Declarations. -/

/-- A declaration that starts with a keyword. -/
theorem suits_declaring {w : Surroundings} {follow : Kind → Prop} {next : Nat → Parse Stmt}
    {cost slack : Nat} {t : Token} {ts : List Token} {s : Stmt}
    (hs : ∀ n (p : Parser), p.current = t → declarationProper n p = next n (p.pass [t]))
    (h : Suits w follow next cost slack ts s) (hc : cost ≤ 32) (hsl : slack ≤ 1) :
    Suits w follow declaration 28 1 (t :: ts) (some s) :=
  ((Suits.recovering (.of_first (fun n p _ hp => hs n p (Parser.current_cons hp)) h hc
    hsl)).succ declaration_succ).mono (fun _ h => h) (by decide) (by decide)

theorem suits_variable {w : Surroundings} {follow : Kind → Prop} {ts : List Token} {s : Stmt}
    (h : VariableDeclaration s ts) : Suits w follow declaration 28 1 ts (some s) := by
  obtain ⟨keyword, us, rfl, hv⟩ := h.starts
  refine suits_declaring (fun n p hp => ?_) (.of_closed (fits_varDeclaration h)) (by decide)
    (by decide)
  simp only [declarationProper, hp, hv]

theorem suits_function {w : Surroundings} {follow : Kind → Prop}
    {keyword name leftParen rightParen left right : Token} {names ts us : List Token}
    {ss : List Stmt} (hk : keyword.kind = .kwFun) (hn : name.kind = .identifier)
    (hlp : leftParen.kind = .leftParen) (hp : Parameters names ts)
    (hmax : names.length ≤ maxArguments) (hrp : rightParen.kind = .rightParen)
    (hl : left.kind = .leftBrace) (body : Lists .functionBody ss us)
    (hr : right.kind = .rightBrace) :
    Suits w follow declaration 28 1
      (keyword :: name :: leftParen :: (ts ++ rightParen :: left :: (us ++ [right])))
      (some (.function name names ss)) := by
  have whole : Suits w follow functionDeclaration 1 0
      (name :: (leftParen :: (ts ++ [rightParen]) ++ left :: (us ++ [right])))
      (.function name names ss) := by
    refine .succ (fun n => rfl) (.token (fits_expect _ (by decide) hn)
      (.before (fits_parameters hlp hp hmax hrp) (.token (fits_expect _ (by decide) hl)
        ((suits_block body hr).inFunction.map _) ?_ ?_) (Kind.rank_pos _) ?_) ?_ ?_)
    all_goals decide
  have hshape : leftParen :: (ts ++ [rightParen]) ++ left :: (us ++ [right]) =
      leftParen :: (ts ++ rightParen :: left :: (us ++ [right])) := by simp
  rw [hshape] at whole
  refine suits_declaring (fun n p hp => ?_) whole (by decide) (by decide)
  simp only [declarationProper, hp, hk]

theorem suits_plain {w : Surroundings} {follow : Kind → Prop} {t : Token} {ts : List Token}
    {s : Stmt} (ht : t.kind.startsStatement = true)
    (h : Suits w follow statement 27 1 (t :: ts) s) :
    Suits w follow declaration 28 1 (t :: ts) (some s) := by
  obtain ⟨room, hroom, h⟩ := h
  refine .succ declaration_succ (.recovering ⟨room, hroom, fun n p us hw hk hp hn hd => ?_⟩)
  have hproper : declarationProper n p = statement n p := by
    have hcur : p.current = t := Parser.current_cons hp
    unfold declarationProper
    rw [hcur]
    generalize t.kind = k at ht
    cases k <;> first | rfl | cases ht
  rw [hproper]
  exact h hw hk hp hn hd

theorem lists_done (w : Surroundings) : Lists w [] [] where
  inBlock before := by
    refine ⟨0, Nat.zero_le _, fun n p us _ hk hp hn hd => ⟨fun _ => ?_, fun h => absurd h (by omega)⟩⟩
    obtain ⟨n, rfl⟩ : ∃ m, n = m + 1 := ⟨n - 1, by omega⟩
    have hcheck : check .rightBrace p = .ok true p := by
      rw [check_apply, Parser.current_kind, show p.rest = us from hp, hk]
      rfl
    dsimp only
    rw [blockBody, bind_ok hcheck, List.append_nil]
    rfl
  atTop before := by
    refine ⟨0, Nat.zero_le _, fun n p us _ hk hp hn hd => ⟨fun _ => ?_, fun h => absurd h (by omega)⟩⟩
    obtain ⟨n, rfl⟩ : ∃ m, n = m + 1 := ⟨n - 1, by omega⟩
    have hend : Parse.atEnd p = .ok true p := by
      rw [atEnd_apply, Parser.current_kind, show p.rest = us from hp, hk]
      rfl
    dsimp only
    rw [program, bind_ok hend, List.append_nil]
    rfl

/-- One round of a loop over declarations, in a block or at the top. -/
private theorem suits_round {loop : Nat → List Stmt → Parse (List Stmt)} {w : Surroundings}
    {follow : Kind → Prop} {t : Token} {ts us : List Token} {s : Stmt} {ss : List Stmt}
    (hloop : ∀ n before (p : Parser), p.current.kind.startsDeclaration = true →
      loop (n + 1) before p = (declaration n >>= fun o => match o with
        | none => loop n before
        | some s => loop n (s :: before)) p)
    (hsteady : ∀ n before, Steady Kind.passable (loop n before))
    (ht : t.kind.startsDeclaration = true)
    (first : Suits w (· ≠ .kwElse) declaration 28 1 (t :: ts) (some s))
    (hnext : ∀ vs, follow (nextKind vs) → nextKind (us ++ vs) ≠ .kwElse)
    (others : ∀ before, Suits w follow (fun n => loop n before) 29 1 us (before.reverse ++ ss))
    (before : List Stmt) :
    Suits w follow (fun n => loop n before) 29 1 (t :: ts ++ us) (before.reverse ++ s :: ss) := by
  have hothers := others (s :: before)
  rw [List.reverse_cons, List.append_assoc, List.singleton_append] at hothers
  have hround := first.seq (f := fun n o => match o with
    | none => loop n before
    | some s => loop n (s :: before)) hothers (fun n o => by cases o <;> exact hsteady n _)
    hnext (by simp; omega) (by omega)
  obtain ⟨room, hroom, hround⟩ := hround
  refine ⟨room, hroom, fun n p vs hw hk hp hn hd => ?_⟩
  obtain ⟨n, rfl⟩ : ∃ m, n = m + 1 := ⟨n - 1, by omega⟩
  dsimp only
  rw [hloop n before p (by rw [Parser.current_kind, hp]; exact ht)]
  exact hround hw hk hp (by omega) hd

theorem ne_of_startsDeclaration {j k : Kind} (hj : j.startsDeclaration = true)
    (hk : k.startsDeclaration = false) : j ≠ k := by
  intro h
  rw [h, hk] at hj
  cases hj

theorem blockBody_succ (n : Nat) (before : List Stmt) {p : Parser}
    (hb : p.current.kind ≠ .rightBrace) (he : p.current.kind ≠ .endOfInput) :
    blockBody (n + 1) before p = (declaration n >>= fun o => match o with
      | none => blockBody n before
      | some s => blockBody n (s :: before)) p := by
  have hbrace : check .rightBrace p = .ok false p := by rw [check_apply, decide_eq_false hb]
  have hend : Parse.atEnd p = .ok false p := by rw [atEnd_apply, decide_eq_false he]
  rw [blockBody, bind_ok hbrace]
  exact bind_ok hend

theorem program_end {n : Nat} {p : Parser} (before : List Stmt) (hn : 0 < n)
    (hp : nextKind p.rest = .endOfInput) : program n before p = .ok before.reverse p := by
  obtain ⟨n, rfl⟩ : ∃ m, n = m + 1 := ⟨n - 1, by omega⟩
  have hend : Parse.atEnd p = .ok true p := by
    rw [atEnd_apply, Parser.current_kind, hp]
    rfl
  rw [program, bind_ok hend]
  rfl

theorem program_succ (n : Nat) (before : List Stmt) {p : Parser}
    (he : p.current.kind ≠ .endOfInput) :
    program (n + 1) before p = (declaration n >>= fun o => match o with
      | none => program n before
      | some s => program n (s :: before)) p := by
  have hend : Parse.atEnd p = .ok false p := by rw [atEnd_apply, decide_eq_false he]
  rw [program]
  exact bind_ok hend

theorem Lists.next {w : Surroundings} {t : Token} {ts us : List Token} {s : Stmt} {ss : List Stmt}
    (ht : t.kind.startsDeclaration = true)
    (first : Suits w (· ≠ .kwElse) declaration 28 1 (t :: ts) (some s))
    (hus : us = [] ∨ ∃ u vs, us = u :: vs ∧ u.kind.startsDeclaration = true)
    (others : Lists w ss us) :
    Lists w (s :: ss) (t :: ts ++ us) := by
  have hnext {kind : Kind} (hkind : kind ≠ .kwElse) (vs : List Token) (hk : nextKind vs = kind) :
      nextKind (us ++ vs) ≠ .kwElse := by
    obtain rfl | ⟨u, us, rfl, hu⟩ := hus
    · rw [List.nil_append, hk]
      exact hkind
    · exact ne_of_startsDeclaration hu rfl
  constructor
  · refine suits_round (fun n before p hp => ?_)
      (fun n before => ((statementCourse n).blockBody before).toSteady) ht first (hnext nofun)
      others.inBlock
    exact blockBody_succ n before (ne_of_startsDeclaration hp rfl) (ne_of_startsDeclaration hp rfl)
  · refine suits_round (fun n before p hp => ?_) (fun n before => (keeps_program n before).toSteady)
      ht first (hnext nofun) others.atTop
    exact program_succ n before (ne_of_startsDeclaration hp rfl)

/-- What the grammar composes is taken by the parser of the part. -/
def Taken (w : Surroundings) : Part → List Token → Prop
  | .statement closed s, ts => Suits w (MayFollow closed) statement 27 1 ts s
  | .declaration s, ts => Suits w (· ≠ .kwElse) declaration 28 1 ts (some s)
  | .declarations ss, ts => Lists w ss ts

theorem taken_of_composes {w : Surroundings} {k : Nat} {part : Part} {ts : List Token}
    (h : Composes w k part ts) : Taken w part ts := by
  induction h with
  | empty hs => exact suits_empty hs
  | expression d hs => exact suits_expressionStatement d hs
  | print hk d hs => exact suits_print hk d hs
  | breakLoop hw hk hs => exact suits_break hw hk hs
  | continueLoop hw hk hs => exact suits_continue hw hk hs
  | returnValue hw hk d hs => exact suits_return hw hk d hs
  | block hl _ hr ih => exact suits_bracedBlock hl ih hr
  | branch hk hl d hr _ ih => exact suits_branch hk hl d hr ih
  | branches hk hl d hr _ ho _ ihy ihn => exact suits_branches hk hl d hr ihy ho ihn
  | whileLoop hk hl d hr _ ih => exact suits_while hk hl d hr ih
  | forLoop hk hl hi hc hs hn hr _ ih => exact suits_for hk hl hi hc hs hn hr ih
  | declareVariable h => exact suits_variable h
  | declareFunction hk hn hlp hp hmax hrp hl _ hr ih =>
    exact suits_function hk hn hlp hp hmax hrp hl ih hr
  | statement d ih =>
    obtain ⟨t, us, rfl, ht⟩ := d.starts_statement
    exact suits_plain ht (ih.mono (fun _ h _ => h) (Nat.le_refl _) (Nat.le_refl _))
  | done => exact lists_done _
  | next d ds ihf iho =>
    obtain ⟨t, us, rfl, ht⟩ := d.starts_declaration
    exact Lists.next ht ihf ds.starts_declarations iho

end Lox.Parse
