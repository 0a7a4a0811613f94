import Lox.Proofs.Syntax.Outline
import Lox.Proofs.Syntax.Writable

/-! What the JSON value of a tree tells. Equal objects have the same fields, so the values of two
trees agree only if the trees do, but for offsets and for tokens that are left out. -/
namespace Lox

namespace Json

theorem mem_foldl_insertField {fields : List (String × Json)} {sorted : List (Bytes × Json)}
    {key : String} {value : Json} :
    (utf8 key, value) ∈ fields.foldl (fun sorted f => insertField (utf8 f.1) f.2 sorted) sorted ↔
      (key, value) ∈ fields ∨ (utf8 key, value) ∈ sorted := by
  induction fields generalizing sorted with
  | nil => exact (or_iff_right List.not_mem_nil).symm
  | cons field fields ih =>
    obtain ⟨k, v⟩ := field
    have hkey : (utf8 key, value) = (utf8 k, v) ↔ (key, value) = (k, v) := by
      rw [Prod.mk.injEq, Prod.mk.injEq]
      exact and_congr_left' ⟨utf8_inj, congrArg utf8⟩
    rw [List.foldl_cons, ih, mem_insertField, hkey, List.mem_cons]
    exact or_left_comm.trans or_assoc.symm

section
variable {fs gs : List (String × Json)}

/-- Equal objects have the same fields. -/
theorem field_of_ofFields_eq (h : ofFields fs = ofFields gs) {key : String} {value : Json}
    (hmem : (key, value) ∈ fs) : (key, value) ∈ gs := by
  have hsorted : fs.foldl (fun sorted f => insertField (utf8 f.1) f.2 sorted) [] =
      gs.foldl (fun sorted f => insertField (utf8 f.1) f.2 sorted) [] := Json.object.inj h
  have hfield := mem_foldl_insertField.2 (.inl hmem : (key, value) ∈ fs ∨ (utf8 key, value) ∈ [])
  rw [hsorted] at hfield
  exact (mem_foldl_insertField.1 hfield).resolve_right List.not_mem_nil

/-- Equal nodes are of one kind. -/
theorem node_kind {kind kind' : String} (h : node kind fs = node kind' gs)
    (hgs : ∀ f ∈ gs, f.1 ≠ "kind") : kind = kind' := by
  obtain hkind | hmem := List.mem_cons.1 (field_of_ofFields_eq h List.mem_cons_self)
  · exact utf8_inj (Json.string.inj (Prod.mk.inj hkind).2)
  · exact absurd rfl (hgs _ hmem)

/-- Equal nodes have the same fields. -/
theorem node_field {kind kind' : String} (h : node kind fs = node kind' gs) (key : String)
    (hkey : key ≠ "kind") {value : Json} (hmem : (key, value) ∈ fs) : (key, value) ∈ gs := by
  obtain hkind | hmem := List.mem_cons.1 (field_of_ofFields_eq h (List.mem_cons_of_mem _ hmem))
  · exact absurd (Prod.mk.inj hkind).1 hkey
  · exact hmem

/-- Fields under the same keys, each key once, are equal where they are among each other. -/
theorem fields_eq_of_subset (hkeys : fs.map Prod.fst = gs.map Prod.fst)
    (hnodup : (fs.map Prod.fst).Nodup) (hmem : ∀ f ∈ fs, f ∈ gs) : fs = gs := by
  induction fs generalizing gs with
  | nil => exact (List.map_eq_nil_iff.1 hkeys.symm).symm
  | cons f fs ih =>
    cases gs with
    | nil => cases hkeys
    | cons g gs =>
      obtain ⟨-, hkeys⟩ := List.cons.inj hkeys
      obtain ⟨hfirst, hnodup⟩ := List.nodup_cons.1 hnodup
      obtain ⟨hf, hfs⟩ := List.forall_mem_cons.1 hmem
      have heq : f = g := (List.mem_cons.1 hf).resolve_right fun hf =>
        hfirst (hkeys ▸ List.mem_map_of_mem hf)
      have hlater : ∀ x ∈ fs, x ∈ gs := fun x hx =>
        (List.mem_cons.1 (hfs x hx)).resolve_left fun hxg =>
          hfirst (heq ▸ hxg ▸ List.mem_map_of_mem hx)
      rw [heq, ih hkeys hnodup hlater]

/-- Equal nodes with the same keys are equal field by field. -/
theorem node_fields {kind kind' : String} (h : node kind fs = node kind' gs)
    (hkeys : fs.map Prod.fst = gs.map Prod.fst) (hnodup : ("kind" :: fs.map Prod.fst).Nodup) :
    fs = gs := by
  obtain ⟨hkind, hnodup⟩ := List.nodup_cons.1 hnodup
  refine fields_eq_of_subset hkeys hnodup fun f hf => node_field h f.1 (fun hkey => hkind ?_) hf
  exact hkey ▸ List.mem_map_of_mem hf

theorem mem_field? {key key' : String} {o : Option Json} {value : Json} :
    (key, value) ∈ field? key' o ↔ key = key' ∧ o = some value := by
  cases o with
  | none => simp [field?]
  | some v => simp [field?, eq_comm]

/-- Equal nodes agree in a field that may be missing. -/
theorem node_field? {kind kind' key : String} {o o' : Option Json} (fs gs : List (String × Json))
    (h : node kind (fs ++ field? key o) = node kind' (gs ++ field? key o')) (hkey : key ≠ "kind")
    (hfs : ∀ f ∈ fs, f.1 ≠ key) (hgs : ∀ f ∈ gs, f.1 ≠ key) : o = o' := by
  have hmem {fs : List (String × Json)} {o : Option Json} (hfs : ∀ f ∈ fs, f.1 ≠ key) {v : Json} :
      (key, v) ∈ fs ++ field? key o ↔ o = some v := by
    rw [List.mem_append, mem_field?, or_iff_right fun h => hfs _ h rfl, and_iff_right rfl]
  refine Option.ext fun v => ?_
  rw [← hmem hfs, ← hmem hgs]
  exact ⟨node_field h key hkey, node_field h.symm key hkey⟩

end

end Json

open Json (node_kind node_field node_fields mem_field?)

theorem Literal.toJson_inj {v w : Literal} (h : v.toJson = w.toJson) : v = w := by
  cases v <;> cases w <;> simp_all [Literal.toJson]

theorem Token.toJson_inj {t u : Token} (h : t.toJson = u.toJson) : t.lexeme = u.lexeme ∧
    t.position.line = u.position.line ∧ t.position.column = u.position.column := by
  have hlexeme : t.lexeme = u.lexeme := by simpa using Json.field_of_ofFields_eq h (.head _)
  have hline : t.position.line = u.position.line := by
    simpa [Int.natCast_inj] using Json.field_of_ofFields_eq h (.tail _ (.head _))
  have hcolumn : t.position.column = u.position.column := by
    simpa [Int.natCast_inj] using Json.field_of_ofFields_eq h (.tail _ (.tail _ (.head _)))
  exact ⟨hlexeme, hline, hcolumn⟩

theorem Token.Scanned.shown_json {t u : Token} (ht : t.Scanned) (hu : u.Scanned)
    (h : t.toJson = u.toJson) : Mask.json.shown t = Mask.json.shown u := by
  obtain ⟨hlexeme, hline, hcolumn⟩ := toJson_inj h
  obtain ⟨hkind, hliteral⟩ := ht.eq_of_lexeme hu hlexeme
  obtain ⟨kind, lexeme, literal, position⟩ := t
  obtain ⟨kind', lexeme', literal', position'⟩ := u
  cases hkind
  cases hliteral
  cases hlexeme
  simp only [Mask.json, Token.mk.injEq, Position.mk.injEq, true_and]
  exact ⟨hline, hcolumn⟩

theorem exprsToJson_eq_map (es : List Expr) : exprsToJson es = es.map Expr.toJson := by
  induction es with
  | nil => rfl
  | cons e es ih => rw [exprsToJson, List.map_cons, ih]

theorem stmtsToJson_eq_map (ss : List Stmt) : stmtsToJson ss = ss.map Stmt.toJson := by
  induction ss with
  | nil => rfl
  | cons s ss ih => rw [stmtsToJson, List.map_cons, ih]

theorem Expr.toJson_node (e : Expr) :
    ∃ fs, e.toJson = .node e.heading fs ∧ ∀ f ∈ fs, f.1 ≠ "kind" := by
  cases e <;> exact ⟨_, rfl, by simp⟩

theorem Expr.heading_of_toJson {e e' : Expr} (h : e.toJson = e'.toJson) :
    e.heading = e'.heading := by
  obtain ⟨fs, he, -⟩ := e.toJson_node
  obtain ⟨gs, he', hgs⟩ := e'.toJson_node
  rw [he, he'] at h
  exact node_kind h hgs

/-- The JSON values of expressions tell them apart as far as their mask does. -/
theorem Expr.toJson_inj {e e' : Expr} (he : e.MadeOf Token.Scanned) (he' : e'.MadeOf Token.Scanned)
    (h : e.toJson = e'.toJson) : e.masked .json = e'.masked .json := by
  induction e using Expr.of_parts generalizing e' with
  | h e ih =>
    have hpart {a a' : Expr} (ha : a ∈ e.parts) (ha' : a' ∈ e'.parts) (h : a.toJson = a'.toJson) :
        a.masked .json = a'.masked .json := ih a ha (he.part ha) (he'.part ha') h
    have hhere := he.here
    have hhere' := he'.here
    have hname := heading_of_toJson h
    cases e with
    | literal v =>
      cases e' with
      | literal w =>
        have hvalue : v.toJson = w.toJson := by simpa using node_fields h rfl (by simp)
        rw [Literal.toJson_inj hvalue]
      | _ => simp [heading] at hname
    | grouping a =>
      cases e' with
      | grouping a' =>
        have ha : a.toJson = a'.toJson := by simpa using node_fields h rfl (by simp)
        rw [masked, masked, hpart (.head _) (.head _) ha]
      | _ => simp [heading] at hname
    | unary op a =>
      cases e' with
      | unary op' a' =>
        obtain ⟨hop, ha⟩ : op.toJson = op'.toJson ∧ a.toJson = a'.toJson := by
          simpa using node_fields h rfl (by simp)
        rw [masked, masked, hhere.1.shown_json hhere'.1 hop, hpart (.head _) (.head _) ha]
      | _ => simp [heading] at hname
    | binary op a b =>
      cases e' with
      | binary op' a' b' =>
        obtain ⟨hop, ha, hb⟩ : op.toJson = op'.toJson ∧ a.toJson = a'.toJson ∧
            b.toJson = b'.toJson := by
          simpa using node_fields h rfl (by simp)
        rw [masked, masked, hhere.1.shown_json hhere'.1 hop, hpart (.head _) (.head _) ha,
          hpart (.tail _ (.head _)) (.tail _ (.head _)) hb]
      | _ => simp [heading] at hname
    | logicalAnd op a b =>
      cases e' with
      | logicalAnd op' a' b' =>
        obtain ⟨ha, hb⟩ : a.toJson = a'.toJson ∧ b.toJson = b'.toJson := by
          simpa using node_fields h rfl (by simp)
        rw [masked, masked, hpart (.head _) (.head _) ha,
          hpart (.tail _ (.head _)) (.tail _ (.head _)) hb]
      | _ => simp [heading] at hname
    | logicalOr op a b =>
      cases e' with
      | logicalOr op' a' b' =>
        obtain ⟨ha, hb⟩ : a.toJson = a'.toJson ∧ b.toJson = b'.toJson := by
          simpa using node_fields h rfl (by simp)
        rw [masked, masked, hpart (.head _) (.head _) ha,
          hpart (.tail _ (.head _)) (.tail _ (.head _)) hb]
      | _ => simp [heading] at hname
    | conditional question c a b =>
      cases e' with
      | conditional question' c' a' b' =>
        obtain ⟨hc, ha, hb⟩ : c.toJson = c'.toJson ∧ a.toJson = a'.toJson ∧
            b.toJson = b'.toJson := by
          simpa using node_fields h rfl (by simp)
        rw [masked, masked, hpart (.head _) (.head _) hc,
          hpart (.tail _ (.head _)) (.tail _ (.head _)) ha,
          hpart (.tail _ (.tail _ (.head _))) (.tail _ (.tail _ (.head _))) hb]
      | _ => simp [heading] at hname
    | comma a b =>
      cases e' with
      | comma a' b' =>
        obtain ⟨ha, hb⟩ : a.toJson = a'.toJson ∧ b.toJson = b'.toJson := by
          simpa using node_fields h rfl (by simp)
        rw [masked, masked, hpart (.head _) (.head _) ha,
          hpart (.tail _ (.head _)) (.tail _ (.head _)) hb]
      | _ => simp [heading] at hname
    | crement op a =>
      cases e' with
      | crement op' a' =>
        obtain ⟨hop, ha⟩ : op.toJson = op'.toJson ∧ a.toJson = a'.toJson := by
          simpa using node_fields h rfl (by simp)
        rw [masked, masked, hhere.1.shown_json hhere'.1 hop, hpart (.head _) (.head _) ha]
      | _ => simp [heading] at hname
    | «variable» name =>
      cases e' with
      | «variable» name' =>
        have hlexeme : name.toJson = name'.toJson := by simpa using node_fields h rfl (by simp)
        rw [masked, masked, hhere.1.shown_json hhere'.1 hlexeme]
      | _ => simp [heading] at hname
    | assign name a =>
      cases e' with
      | assign name' a' =>
        obtain ⟨hlexeme, ha⟩ : name.toJson = name'.toJson ∧ a.toJson = a'.toJson := by
          simpa using node_fields h rfl (by simp)
        rw [masked, masked, hhere.1.shown_json hhere'.1 hlexeme, hpart (.head _) (.head _) ha]
      | _ => simp [heading] at hname
    | call callee paren args =>
      cases e' with
      | call callee' paren' args' =>
        obtain ⟨hcallee, hargs⟩ : callee.toJson = callee'.toJson ∧
            exprsToJson args = exprsToJson args' := by
          simpa using node_fields h rfl (by simp)
        rw [exprsToJson_eq_map, exprsToJson_eq_map] at hargs
        have hmasked := map_eq_of_determines (fun a ha a' ha' =>
          hpart (List.mem_cons_of_mem callee ha) (List.mem_cons_of_mem callee' ha')) hargs
        rw [masked, masked, hpart (.head _) (.head _) hcallee, maskedArgs_eq_map,
          maskedArgs_eq_map, hmasked]
      | _ => simp [heading] at hname

/-! Statements. -/

theorem Stmt.toJson_node (s : Stmt) :
    ∃ fs, s.toJson = .node s.heading fs ∧ ∀ f ∈ fs, f.1 ≠ "kind" := by
  cases s <;> exact ⟨_, rfl, by simp +contextual [mem_field?]⟩

theorem Stmt.heading_of_toJson {s s' : Stmt} (h : s.toJson = s'.toJson) :
    s.heading = s'.heading := by
  obtain ⟨fs, hs, -⟩ := s.toJson_node
  obtain ⟨gs, hs', hgs⟩ := s'.toJson_node
  rw [hs, hs'] at h
  exact node_kind h hgs

/-- The JSON values of statements tell them apart as far as their mask does. -/
theorem Stmt.toJson_inj {s s' : Stmt} (hs : s.MadeOf Token.Scanned) (hs' : s'.MadeOf Token.Scanned)
    (h : s.toJson = s'.toJson) : s.masked .json = s'.masked .json := by
  induction s using Stmt.of_parts generalizing s' with
  | h s ih =>
    have hpart {t t' : Stmt} (ht : t ∈ s.parts) (ht' : t' ∈ s'.parts) (h : t.toJson = t'.toJson) :
        t.masked .json = t'.masked .json := ih t ht (hs.part ht) (hs'.part ht') h
    have hexpression {e e' : Expr} (he : e ∈ s.expressions) (he' : e' ∈ s'.expressions)
        (h : e.toJson = e'.toJson) : e.masked .json = e'.masked .json :=
      Expr.toJson_inj (hs.expression he) (hs'.expression he') h
    have hbody (ts ts' : List Stmt) (hts : s.parts = ts) (hts' : s'.parts = ts')
        (h : stmtsToJson ts = stmtsToJson ts') : maskedBody .json ts = maskedBody .json ts' := by
      rw [stmtsToJson_eq_map, stmtsToJson_eq_map] at h
      rw [maskedBody_eq_map, maskedBody_eq_map]
      exact map_eq_of_determines (fun t ht t' ht' => hpart (hts ▸ ht) (hts' ▸ ht')) h
    have hhere := hs.here
    have hhere' := hs'.here
    have hname := heading_of_toJson h
    cases s with
    | empty =>
      cases s' with
      | empty => rfl
      | _ => simp [heading] at hname
    | expression e =>
      cases s' with
      | expression e' =>
        have he : e.toJson = e'.toJson := by simpa using node_fields h rfl (by simp)
        rw [masked, masked, hexpression (.head _) (.head _) he]
      | _ => simp [heading] at hname
    | print keyword e =>
      cases s' with
      | print keyword' e' =>
        have he : e.toJson = e'.toJson := by simpa using node_fields h rfl (by simp)
        rw [masked, masked, hexpression (.head _) (.head _) he]
      | _ => simp [heading] at hname
    | declare name init =>
      cases s' with
      | declare name' init' =>
        have hlexeme : name.toJson = name'.toJson := by
          simpa [mem_field?] using node_field h "name" (by decide) (.head _)
        have hinit := Json.node_field? [_] [_] h (by decide) (by simp) (by simp)
        have hmasked := option_map_eq_of_determines (fun e he e' he' => hexpression he he') hinit
        rw [masked, masked, hhere.1.shown_json hhere'.1 hlexeme, hmasked]
      | _ => simp [heading] at hname
    | block body =>
      cases s' with
      | block body' =>
        have hstmts : stmtsToJson body = stmtsToJson body' := by
          simpa using node_fields h rfl (by simp)
        rw [masked, masked, hbody body body' rfl rfl hstmts]
      | _ => simp [heading] at hname
    | branch c yes no =>
      cases s' with
      | branch c' yes' no' =>
        have hc : c.toJson = c'.toJson := by
          simpa [mem_field?] using node_field h "condition" (by decide) (.head _)
        have hyes : yes.toJson = yes'.toJson := by
          simpa [mem_field?] using node_field h "then" (by decide) (.tail _ (.head _))
        have hno := Json.node_field? _ _ h (by decide) (by simp) (by simp)
        rw [elseToJson_eq_map, elseToJson_eq_map] at hno
        have hmasked := option_map_eq_of_determines (fun t ht t' ht' =>
          hpart (List.mem_cons_of_mem yes ht) (List.mem_cons_of_mem yes' ht')) hno
        rw [masked, masked, hexpression (.head _) (.head _) hc, hpart (.head _) (.head _) hyes,
          maskedElse_eq_map, maskedElse_eq_map, hmasked]
      | _ => simp [heading] at hname
    | loop c body increment =>
      cases s' with
      | loop c' body' increment' =>
        have hc : c.toJson = c'.toJson := by
          simpa [mem_field?] using node_field h "condition" (by decide) (.head _)
        have hbody : body.toJson = body'.toJson := by
          simpa [mem_field?] using node_field h "body" (by decide) (.tail _ (.head _))
        have hincrement := Json.node_field? _ _ h (by decide) (by simp) (by simp)
        have hmasked := option_map_eq_of_determines (fun e he e' he' =>
          hexpression (List.mem_cons_of_mem c he) (List.mem_cons_of_mem c' he')) hincrement
        rw [masked, masked, hexpression (.head _) (.head _) hc, hpart (.head _) (.head _) hbody,
          hmasked]
      | _ => simp [heading] at hname
    | breakLoop keyword =>
      cases s' with
      | breakLoop keyword' =>
        have hkeyword : keyword.toJson = keyword'.toJson := by
          simpa using node_fields h rfl (by simp)
        exact congrArg Stmt.breakLoop (hhere.1.shown_json hhere'.1 hkeyword)
      | _ => simp [heading] at hname
    | continueLoop keyword =>
      cases s' with
      | continueLoop keyword' =>
        have hkeyword : keyword.toJson = keyword'.toJson := by
          simpa using node_fields h rfl (by simp)
        exact congrArg Stmt.continueLoop (hhere.1.shown_json hhere'.1 hkeyword)
      | _ => simp [heading] at hname
    | function name params body =>
      cases s' with
      | function name' params' body' =>
        obtain ⟨hlexeme, hparams, hstmts⟩ : name.toJson = name'.toJson ∧
            params.map Token.toJson = params'.map Token.toJson ∧
            stmtsToJson body = stmtsToJson body' := by
          simpa using node_fields h rfl (by simp)
        have hshown := map_eq_of_determines (fun p hp p' hp' =>
          (hhere.2 p hp).1.shown_json (hhere'.2 p' hp').1) hparams
        rw [masked, masked, hhere.1.1.shown_json hhere'.1.1 hlexeme, hshown,
          hbody body body' rfl rfl hstmts]
      | _ => simp [heading] at hname
    | returnValue keyword value =>
      cases s' with
      | returnValue keyword' value' =>
        have hkeyword : keyword.toJson = keyword'.toJson := by
          simpa [mem_field?] using node_field h "keyword" (by decide) (.head _)
        have hvalue := Json.node_field? [_] [_] h (by decide) (by simp) (by simp)
        have hmasked := option_map_eq_of_determines (fun e he e' he' => hexpression he he') hvalue
        have hjump : Mask.json.jump keyword = Mask.json.jump keyword' :=
          hhere.1.shown_json hhere'.1 hkeyword
        rw [masked, masked, hjump, hmasked]
      | _ => simp [heading] at hname

namespace Program

/-- The statements of a source are made of tokens that were scanned. -/
theorem madeOf_scanned {source : Bytes} {p : Program}
    (h : parse? (Scan.ofSource source).tokens = some p) :
    ∀ s ∈ p.statements, s.MadeOf Token.Scanned :=
  madeOf_of_forall (fun _ ht => ⟨source, ht⟩) h

/-- Where the outlines of two sources are the same, their statements are, but for the places of
tokens, for tokens that are not shown and for literals with the same text. Where their JSON values
are the same, the statements are, but for the offsets of tokens and for the tokens that are left
out. -/
theorem dumps_tell_statements {source source' : Bytes} {p q : Program}
    (hp : parse? (Scan.ofSource source).tokens = some p)
    (hq : parse? (Scan.ofSource source').tokens = some q) :
    (Outline.text p.statements = Outline.text q.statements →
      p.statements.map (Stmt.masked .outline) = q.statements.map (Stmt.masked .outline)) ∧
    (stmtsToJson p.statements = stmtsToJson q.statements →
      p.statements.map (Stmt.masked .json) = q.statements.map (Stmt.masked .json)) := by
  have hps := madeOf_scanned hp
  have hqs := madeOf_scanned hq
  refine ⟨Outline.text_inj hps hqs, fun h => ?_⟩
  rw [stmtsToJson_eq_map, stmtsToJson_eq_map] at h
  exact map_eq_of_determines (fun s hs t ht => Stmt.toJson_inj (hps s hs) (hqs t ht)) h

/-- Two sources that differ in a comment. -/
theorem dumps_tell_statements_moved :
    let token (kind : Kind) (lexeme : String) (start column : Nat) : Token :=
      ⟨kind, utf8 lexeme, .nil, ⟨start + column - 1, 2, column⟩⟩
    let statements (start : Nat) : List Stmt :=
      [.loop (.unary (token .minus "-" start 6) (.variable (token .identifier "a" start 7)))
        (.breakLoop (token .kwBreak "break" start 10)) none]
    let p : Program := ⟨statements 3, []⟩
    let q : Program := ⟨statements 5, []⟩
    parse? (Scan.ofSource (utf8 "//\nfor(;-a;)break;")).tokens = some p ∧
      parse? (Scan.ofSource (utf8 "// f\nfor(;-a;)break;")).tokens = some q ∧
      Outline.text p.statements = Outline.text q.statements ∧
      stmtsToJson p.statements = stmtsToJson q.statements ∧
      p.statements.map (Stmt.masked .outline) = q.statements.map (Stmt.masked .outline) ∧
      p.statements.map (Stmt.masked .json) = q.statements.map (Stmt.masked .json) := by
  intro token statements p q
  let tokens (start : Nat) : List Token :=
    [token .kwFor "for" start 1, token .leftParen "(" start 4, token .semicolon ";" start 5,
      token .minus "-" start 6, token .identifier "a" start 7, token .semicolon ";" start 8,
      token .rightParen ")" start 9, token .kwBreak "break" start 10,
      token .semicolon ";" start 15, token .endOfInput "" start 16]
  have hparse (start : Nat) : parse? (tokens start) = some ⟨statements start, []⟩ := by rfl
  have hscan : (Scan.ofSource (utf8 "//\nfor(;-a;)break;")).tokens = tokens 3 := by decide +kernel
  have hscan' : (Scan.ofSource (utf8 "// f\nfor(;-a;)break;")).tokens = tokens 5 := by
    decide +kernel
  have hp := (congrArg parse? hscan).trans (hparse 3)
  have hq := (congrArg parse? hscan').trans (hparse 5)
  have houtline : Outline.text p.statements = Outline.text q.statements := by decide +kernel
  have hjson : stmtsToJson p.statements = stmtsToJson q.statements := rfl
  have hsame := dumps_tell_statements hp hq
  exact ⟨hp, hq, houtline, hjson, hsame.1 houtline, hsame.2 hjson⟩

end Program
end Lox
