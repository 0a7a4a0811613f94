import Lox.Syntax.Expression

/-! The grammar of expressions: the token sequences that are expressions, each with its tree. The
rules name their operators and trees themselves; the tables by which the parser goes hold the
same. -/
namespace Lox

/-- The categories of the grammar, from the loosest to the tightest binding; a comma chain is an
expression. -/
inductive Category where
  | chain (l : Level)
  | assignment | conditional | unary | suffixed | call | primary
  deriving DecidableEq

abbrev Category.expression : Category := .chain .comma

/-- The category of the operands of a chain. -/
def Level.operands : Level → Category
  | comma => .assignment
  | or => .chain .and
  | and => .chain .equality
  | equality => .chain .comparison
  | comparison => .chain .term
  | term => .chain .factor
  | factor => .unary

/-- How loosely a category binds. -/
def Category.rank : Category → Nat
  | primary => 0
  | call => 1
  | suffixed => 2
  | unary => 3
  | chain .factor => 4
  | chain .term => 5
  | chain .comparison => 6
  | chain .equality => 7
  | chain .and => 8
  | chain .or => 9
  | conditional => 10
  | assignment => 11
  | chain .comma => 12

/-- What a token sequence may be: a phrase with its tree, or the arguments of a call with theirs. -/
inductive Form where
  | phrase (c : Category) (e : Expr)
  | arguments (es : List Expr)

/-- The tree of a token that is an expression on its own. -/
def Token.atom? (t : Token) : Option Expr :=
  match t.kind with
  | .kwFalse => some (.literal (.bool false))
  | .kwTrue => some (.literal (.bool true))
  | .kwNil => some (.literal .nil)
  | .number | .string => some (.literal t.literal)
  | .identifier => some (.variable t)
  | _ => none

/-- The tree of two operands of a chain around an operator. -/
inductive Joined : Level → Token → Expr → Expr → Expr → Prop where
  | comma {op : Token} {a b : Expr} (hop : op.kind = .comma) : Joined .comma op a b (.comma a b)
  | or {op : Token} {a b : Expr} (hop : op.kind = .kwOr) : Joined .or op a b (.logicalOr op a b)
  | and {op : Token} {a b : Expr} (hop : op.kind = .kwAnd) :
      Joined .and op a b (.logicalAnd op a b)
  | equality {op : Token} {a b : Expr} (hop : op.kind ∈ [.bangEqual, .equalEqual]) :
      Joined .equality op a b (.binary op a b)
  | comparison {op : Token} {a b : Expr}
      (hop : op.kind ∈ [.greater, .greaterEqual, .less, .lessEqual]) :
      Joined .comparison op a b (.binary op a b)
  | term {op : Token} {a b : Expr} (hop : op.kind ∈ [.minus, .plus]) :
      Joined .term op a b (.binary op a b)
  | factor {op : Token} {a b : Expr} (hop : op.kind ∈ [.slash, .star]) :
      Joined .factor op a b (.binary op a b)

/-- The tokens have the given form. -/
inductive Derives : Form → List Token → Prop where
  | operand {l : Level} {ts : List Token} {e : Expr} (h : Derives (.phrase l.operands e) ts) :
      Derives (.phrase (.chain l) e) ts
  /-- One more operand; a chain folds to the left. -/
  | link {l : Level} {ts us : List Token} {op : Token} {a b e : Expr}
      (left : Derives (.phrase (.chain l) a) ts) (hop : Joined l op a b e)
      (right : Derives (.phrase l.operands b) us) :
      Derives (.phrase (.chain l) e) (ts ++ op :: us)
  | assign {name equals : Token} {ts : List Token} {e : Expr} (hn : name.kind = .identifier)
      (heq : equals.kind = .equal) (value : Derives (.phrase .assignment e) ts) :
      Derives (.phrase .assignment (.assign name e)) (name :: equals :: ts)
  | conditional {ts : List Token} {e : Expr} (h : Derives (.phrase .conditional e) ts) :
      Derives (.phrase .assignment e) ts
  | choice {ts us vs : List Token} {question colon : Token} {c a b : Expr}
      (condition : Derives (.phrase (.chain .or) c) ts) (hq : question.kind = .question)
      (yes : Derives (.phrase .assignment a) us) (hc : colon.kind = .colon)
      (no : Derives (.phrase .conditional b) vs) :
      Derives (.phrase .conditional (.conditional question c a b))
        (ts ++ question :: (us ++ colon :: vs))
  | disjunction {ts : List Token} {e : Expr} (h : Derives (.phrase (.chain .or) e) ts) :
      Derives (.phrase .conditional e) ts
  | negation {op : Token} {ts : List Token} {e : Expr} (hop : op.kind ∈ [.bang, .minus])
      (h : Derives (.phrase .unary e) ts) : Derives (.phrase .unary (.unary op e)) (op :: ts)
  | precrement {op : Token} {ts : List Token} {e : Expr} (hop : op.kind ∈ [.plusPlus, .minusMinus])
      (h : Derives (.phrase .unary e) ts) : Derives (.phrase .unary (.crement op e)) (op :: ts)
  | suffixed {ts : List Token} {e : Expr} (h : Derives (.phrase .suffixed e) ts) :
      Derives (.phrase .unary e) ts
  | postcrement {op : Token} {ts : List Token} {e : Expr} (h : Derives (.phrase .call e) ts)
      (hop : op.kind ∈ [.plusPlus, .minusMinus]) :
      Derives (.phrase .suffixed (.crement op e)) (ts ++ [op])
  | call {ts : List Token} {e : Expr} (h : Derives (.phrase .call e) ts) :
      Derives (.phrase .suffixed e) ts
  | apply {ts us : List Token} {left right : Token} {f : Expr} {args : List Expr}
      (callee : Derives (.phrase .call f) ts) (hl : left.kind = .leftParen)
      (arguments : Derives (.arguments args) us) (hn : args.length ≤ 255)
      (hr : right.kind = .rightParen) :
      Derives (.phrase .call (.call f right args)) (ts ++ left :: (us ++ [right]))
  | primary {ts : List Token} {e : Expr} (h : Derives (.phrase .primary e) ts) :
      Derives (.phrase .call e) ts
  | atom {t : Token} {e : Expr} (h : t.atom? = some e) : Derives (.phrase .primary e) [t]
  | grouping {ts : List Token} {left right : Token} {e : Expr} (hl : left.kind = .leftParen)
      (inner : Derives (.phrase .expression e) ts) (hr : right.kind = .rightParen) :
      Derives (.phrase .primary (.grouping e)) (left :: (ts ++ [right]))
  | noArgument : Derives (.arguments []) []
  | oneArgument {ts : List Token} {e : Expr} (h : Derives (.phrase .assignment e) ts) :
      Derives (.arguments [e]) ts
  | moreArguments {ts us : List Token} {comma : Token} {e f : Expr} {es : List Expr}
      (first : Derives (.phrase .assignment e) ts) (hc : comma.kind = .comma)
      (others : Derives (.arguments (f :: es)) us) :
      Derives (.arguments (e :: f :: es)) (ts ++ comma :: us)

/-! The tables of the parser. -/

theorem joined_iff {l : Level} {op : Token} {a b e : Expr} :
    Joined l op a b e ↔ l.joins op.kind = true ∧ e = l.node op a b := by
  constructor
  · intro h
    cases h with
    | comma hop | or hop | and hop => exact ⟨decide_eq_true hop, rfl⟩
    | equality hop | comparison hop | term hop | factor hop =>
      exact ⟨by simpa [Level.joins, or_assoc] using hop, rfl⟩
  · rintro ⟨hop, rfl⟩
    cases l with
    | comma => exact .comma (of_decide_eq_true hop)
    | or => exact .or (of_decide_eq_true hop)
    | and => exact .and (of_decide_eq_true hop)
    | equality => exact .equality (by simpa [Level.joins] using hop)
    | comparison => exact .comparison (by simpa [Level.joins, or_assoc] using hop)
    | term => exact .term (by simpa [Level.joins] using hop)
    | factor => exact .factor (by simpa [Level.joins] using hop)

theorem Kind.isNegation_iff {k : Kind} : k.isNegation = true ↔ k ∈ [.bang, .minus] := by
  simp [Kind.isNegation]

theorem Kind.isCrement_iff {k : Kind} : k.isCrement = true ↔ k ∈ [.plusPlus, .minusMinus] := by
  simp [Kind.isCrement]

section
variable {ts : List Token} {e : Expr}

/-! An operand of tighter operators is one of the looser ones. -/

theorem Derives.term_of_unary (h : Derives (.phrase .unary e) ts) :
    Derives (.phrase (.chain .term) e) ts := .operand (l := .term) (.operand (l := .factor) h)

theorem Derives.equality_of_term (h : Derives (.phrase (.chain .term) e) ts) :
    Derives (.phrase (.chain .equality) e) ts :=
  .operand (l := .equality) (.operand (l := .comparison) h)

theorem Derives.of_equality (h : Derives (.phrase (.chain .equality) e) ts) :
    Derives (.phrase (.chain .or) e) ts := .operand (l := .or) (.operand (l := .and) h)

theorem Derives.of_unary (h : Derives (.phrase .unary e) ts) :
    Derives (.phrase (.chain .or) e) ts := h.term_of_unary.equality_of_term.of_equality

end

theorem Level.operands_rank (l : Level) : l.operands.rank < (Category.chain l).rank := by
  cases l <;> decide

theorem Category.rank_le (c : Category) : c.rank ≤ 12 := by
  cases c with
  | chain l => cases l <;> decide
  | _ => decide

/-- A token of this kind can start an operand. -/
def Kind.opens : Kind → Bool
  | .kwFalse | .kwTrue | .kwNil | .number | .string | .identifier | .leftParen => true
  | _ => false

/-- The first token of a phrase of the given rank can have this kind. -/
def Kind.starts (k : Kind) (rank : Nat) : Bool :=
  k.opens || (3 ≤ rank && (k.isNegation || k.isCrement))

theorem Kind.starts_mono {k : Kind} {r s : Nat} (hrs : r ≤ s) (h : k.starts r = true) :
    k.starts s = true := by
  simp only [Kind.starts, Bool.or_eq_true, Bool.and_eq_true, decide_eq_true_eq] at h ⊢
  rcases h with h | ⟨hr, h⟩
  · exact .inl h
  · exact .inr ⟨by omega, h⟩

theorem Token.opens_of_atom? {t : Token} {e : Expr} (h : t.atom? = some e) :
    t.kind.opens = true := by
  unfold Token.atom? at h
  split at h <;> first | (simp only [*]; rfl) | cases h

/-- The rank of a form; arguments start as the first of them does. -/
def Form.rank : Form → Nat
  | phrase c _ => c.rank
  | arguments _ => 11

/-- Where a form starts. Only arguments may be missing. -/
theorem Derives.starts {f : Form} {ts : List Token} (h : Derives f ts) (hf : f ≠ .arguments []) :
    ∃ t us, ts = t :: us ∧ t.kind.starts f.rank = true := by
  have weaken {ts : List Token} {r s : Nat} (hrs : r ≤ s)
      (h : ∃ t us, ts = t :: us ∧ t.kind.starts r = true) :
      ∃ t us, ts = t :: us ∧ t.kind.starts s = true := by
    obtain ⟨t, us, ht, hk⟩ := h
    exact ⟨t, us, ht, Kind.starts_mono hrs hk⟩
  have extend {ts vs : List Token} {r : Nat} (h : ∃ t us, ts = t :: us ∧ t.kind.starts r = true) :
      ∃ t us, ts ++ vs = t :: us ∧ t.kind.starts r = true := by
    obtain ⟨t, us, rfl, hk⟩ := h
    exact ⟨t, us ++ vs, rfl, hk⟩
  have opened {t : Token} {us : List Token} {r : Nat} (h : t.kind.opens = true) :
      ∃ t' us', t :: us = t' :: us' ∧ t'.kind.starts r = true :=
    ⟨t, us, rfl, by simp [Kind.starts, h]⟩
  induction h with
  | @operand l _ _ _ ih => exact weaken (Nat.le_of_lt l.operands_rank) (ih nofun)
  | conditional _ ih | disjunction _ ih | suffixed _ ih | call _ ih | primary _ ih =>
    exact weaken (by simp only [Form.rank, Category.rank]; omega) (ih nofun)
  | link _ _ _ ih | apply _ _ _ _ _ ih | moreArguments _ _ _ ih => exact extend (ih nofun)
  | choice _ _ _ _ _ ih | postcrement _ _ ih =>
    exact weaken (by simp only [Form.rank, Category.rank]; omega) (extend (ih nofun))
  | assign hn => exact opened (by rw [hn]; rfl)
  | negation hop =>
    have hsign := Kind.isNegation_iff.2 hop
    exact ⟨_, _, rfl, by simp [Kind.starts, Form.rank, Category.rank, hsign]⟩
  | precrement hop =>
    have hsign := Kind.isCrement_iff.2 hop
    exact ⟨_, _, rfl, by simp [Kind.starts, Form.rank, Category.rank, hsign]⟩
  | atom h => exact opened (Token.opens_of_atom? h)
  | grouping hl => exact opened (by rw [hl]; rfl)
  | noArgument => exact absurd rfl hf
  | oneArgument _ ih => exact ih nofun

theorem Derives.phrase_starts {c : Category} {e : Expr} {ts : List Token}
    (h : Derives (.phrase c e) ts) : ∃ t us, ts = t :: us ∧ t.kind.starts c.rank = true :=
  h.starts nofun

theorem Token.kind_of_atom? {t : Token} {e : Expr} (h : t.atom? = some e) :
    t.kind ≠ .endOfInput := by
  intro hk
  simp [Token.atom?, hk] at h

theorem Token.atom?_variable {t name : Token} (h : t.atom? = some (.variable name)) :
    t = name ∧ t.kind = .identifier := by
  unfold Token.atom? at h
  split at h <;> cases h
  exact ⟨rfl, ‹_›⟩

/-- A variable is written as its name alone. -/
theorem Derives.eq_name {f : Form} {ts : List Token} (h : Derives f ts) {c : Category}
    {name : Token} (hf : f = .phrase c (.variable name)) :
    ts = [name] ∧ name.kind = .identifier := by
  induction h generalizing c with
  | operand _ ih | conditional _ ih | disjunction _ ih | suffixed _ ih | call _ ih | primary _ ih =>
    injection hf with _ he
    exact ih (by rw [he])
  | link _ hop =>
    cases hf
    cases hop
  | atom h =>
    injection hf with _ he
    obtain ⟨rfl, hk⟩ := Token.atom?_variable (he ▸ h)
    exact ⟨rfl, hk⟩
  | _ => cases hf

end Lox
