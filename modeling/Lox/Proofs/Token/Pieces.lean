import Lox.Proofs.Token.Lexicon

/-! The piece at the head of a source is the longest token there, or else blank or faulty, and what
follows it is the rest of the source. -/
namespace Lox.Piece

/-! Strings. -/

theorem string_nil (s : OpenString) :
    string s [] = ⟨.fault .unterminatedString, s.text.reverse, [], s.escapes.reverse⟩ := by
  rw [string.eq_def]

theorem string_quote (s : OpenString) (rest : Bytes) : string s (ascii '"' :: rest) =
    ⟨.token .string (.string s.value.reverse), (ascii '"' :: s.text).reverse, rest,
      s.escapes.reverse⟩ := by
  rw [string.eq_def]
  simp

theorem string_plain (s : OpenString) {b : UInt8} (hq : b ≠ ascii '"') (hb : b ≠ ascii '\\')
    (rest : Bytes) :
    string s (b :: rest) = string ⟨b :: s.text, b :: s.value, s.escapes⟩ rest := by
  rw [string.eq_def]
  simp [hq, hb]

theorem string_backslash (s : OpenString) : string s [ascii '\\'] =
    ⟨.fault .unterminatedString, (ascii '\\' :: s.text).reverse, [], s.escapes.reverse⟩ := by
  rw [string.eq_def]
  rfl

theorem string_escape (s : OpenString) (e : UInt8) : ∃ t : OpenString,
    t.text = e :: ascii '\\' :: s.text ∧
      ∀ rest, string s (ascii '\\' :: e :: rest) = string t rest := by
  cases he : escaped? e with
  | some v =>
    refine ⟨⟨e :: ascii '\\' :: s.text, v :: s.value, s.escapes⟩, rfl, fun rest => ?_⟩
    rw [string.eq_def]
    simp [show ascii '\\' ≠ ascii '"' by decide, he]
  | none =>
    refine ⟨⟨e :: ascii '\\' :: s.text, e :: s.value, (s.text.length, e) :: s.escapes⟩, rfl,
      fun rest => ?_⟩
    rw [string.eq_def]
    simp [show ascii '\\' ≠ ascii '"' by decide, he]

/-- A string is read up to the quote that closes it, whatever follows. -/
theorem string_closed {w : Bytes} (h : StringBody w) (s : OpenString) :
    ∃ literal escapes, ∀ more, string s (w ++ ascii '"' :: more) =
      ⟨.token .string literal, s.text.reverse ++ (w ++ [ascii '"']), more, escapes⟩ := by
  induction h generalizing s with
  | nil =>
    refine ⟨.string s.value.reverse, s.escapes.reverse, fun more => ?_⟩
    rw [List.nil_append, string_quote, List.reverse_cons, List.nil_append]
  | @plain b w hq hb _ ih =>
    obtain ⟨literal, escapes, hs⟩ := ih ⟨b :: s.text, b :: s.value, s.escapes⟩
    refine ⟨literal, escapes, fun more => ?_⟩
    rw [List.cons_append, string_plain s hq hb, hs]
    simp
  | @escape e w _ ih =>
    obtain ⟨t, ht, hstep⟩ := string_escape s e
    obtain ⟨literal, escapes, hs⟩ := ih t
    refine ⟨literal, escapes, fun more => ?_⟩
    rw [List.cons_append, List.cons_append, hstep, hs, ht]
    simp

/-- A string that nothing closes is read up to the end. -/
theorem string_open : ∀ rest : Bytes, (∀ w, StringBody w → ¬ w ++ [ascii '"'] <+: rest) →
    ∀ s : OpenString, ∃ escapes,
      string s rest = ⟨.fault .unterminatedString, s.text.reverse ++ rest, [], escapes⟩
  | [], _, s => ⟨s.escapes.reverse, by rw [string_nil, List.append_nil]⟩
  | b :: rest, h, s => by
    by_cases hq : b = ascii '"'
    · subst hq
      exact absurd (List.prefix_append [ascii '"'] rest) (h [] .nil)
    by_cases hb : b = ascii '\\'
    · subst hb
      match rest with
      | [] =>
        refine ⟨s.escapes.reverse, ?_⟩
        rw [string_backslash, List.reverse_cons]
      | e :: rest =>
        obtain ⟨t, ht, hstep⟩ := string_escape s e
        obtain ⟨escapes, ho⟩ := string_open rest (fun w hw hp =>
          h (ascii '\\' :: e :: w) (.escape hw) (by simpa using hp)) t
        refine ⟨escapes, ?_⟩
        rw [hstep, ho, ht]
        simp
    · obtain ⟨escapes, ho⟩ := string_open rest (fun w hw hp =>
        h (b :: w) (.plain hq hb hw) (by simpa using hp)) ⟨b :: s.text, b :: s.value, s.escapes⟩
      refine ⟨escapes, ?_⟩
      rw [string_plain s hq hb, ho]
      simp

/-! Comments. -/

theorem pair_infix_cons {x y b : UInt8} {w : Bytes} :
    [x, y] <:+: b :: w ↔ b = x ∧ w.head? = some y ∨ [x, y] <:+: w := by
  rw [List.infix_cons_iff, List.cons_prefix_cons]
  cases w with
  | nil => simp
  | cons c w => simp [List.cons_prefix_cons, eq_comm]

theorem blockComment_nil (text : Bytes) :
    blockComment text [] = ⟨.fault .unterminatedComment, text.reverse, [], []⟩ := by
  rw [blockComment.eq_def]

theorem blockComment_close (text more : Bytes) : blockComment text (ascii '*' :: ascii '/' :: more) =
    ⟨.skipped, (ascii '/' :: ascii '*' :: text).reverse, more, []⟩ := by
  rw [blockComment.eq_def]
  simp

theorem blockComment_step (text : Bytes) {b : UInt8} {rest : Bytes}
    (h : ¬ (b = ascii '*' ∧ rest.head? = some (ascii '/'))) :
    blockComment text (b :: rest) = blockComment (b :: text) rest := by
  rw [blockComment.eq_def]
  by_cases hb : b = ascii '*'
  · cases rest with
    | nil => simp [hb, blockComment_nil]
    | cons c more =>
      have hc : c ≠ ascii '/' := by simpa [hb] using h
      simp [hb, hc]
  · simp [hb]

/-- A comment is read up to the first sign that closes it, whatever follows. -/
theorem blockComment_closed {w : Bytes} (h : ¬ [ascii '*', ascii '/'] <:+: w ++ [ascii '*'])
    (text more : Bytes) : blockComment text (w ++ ascii '*' :: ascii '/' :: more) =
      ⟨.skipped, text.reverse ++ (w ++ [ascii '*', ascii '/']), more, []⟩ := by
  induction w generalizing text with
  | nil =>
    rw [List.nil_append, blockComment_close]
    simp
  | cons b w ih =>
    rw [List.cons_append, pair_infix_cons, not_or] at h
    have hstep : ¬ (b = ascii '*' ∧
        (w ++ ascii '*' :: ascii '/' :: more).head? = some (ascii '/')) := by
      cases w with
      | nil => exact h.1
      | cons c w => exact h.1
    rw [List.cons_append, blockComment_step text hstep, ih h.2]
    simp

/-- A comment that nothing closes is read up to the end. -/
theorem blockComment_open {rest : Bytes} (h : ¬ [ascii '*', ascii '/'] <:+: rest) (text : Bytes) :
    blockComment text rest = ⟨.fault .unterminatedComment, text.reverse ++ rest, [], []⟩ := by
  induction rest generalizing text with
  | nil => rw [blockComment_nil, List.append_nil]
  | cons b rest ih =>
    rw [pair_infix_cons, not_or] at h
    rw [blockComment_step text h.1, ih h.2]
    simp

theorem exists_first_close {rest : Bytes} (h : [ascii '*', ascii '/'] <:+: rest) :
    ∃ w more, rest = w ++ ascii '*' :: ascii '/' :: more ∧
      ¬ [ascii '*', ascii '/'] <:+: w ++ [ascii '*'] := by
  induction rest with
  | nil => simp at h
  | cons b rest ih =>
    by_cases hb : b = ascii '*' ∧ rest.head? = some (ascii '/')
    · obtain ⟨rfl, hr⟩ := hb
      cases rest with
      | nil => cases hr
      | cons c more =>
        cases hr
        exact ⟨[], more, rfl, by simp [pair_infix_cons]⟩
    · obtain ⟨w, more, rfl, hw⟩ := ih ((pair_infix_cons.1 h).resolve_left hb)
      refine ⟨b :: w, more, rfl, ?_⟩
      rw [List.cons_append, pair_infix_cons, not_or]
      refine ⟨fun hbw => hb ⟨hbw.1, ?_⟩, hw⟩
      cases w with
      | nil => exact absurd hbw.2 (by decide)
      | cons c w => simpa using hbw.2

/-! Runs of bytes of one class. -/

theorem prefix_takeWhile {p : UInt8 → Bool} {w l : Bytes} (h : w <+: l) (hw : ∀ b ∈ w, p b = true) :
    w <+: l.takeWhile p := by
  obtain ⟨r, rfl⟩ := h
  rw [List.takeWhile_append_of_pos hw]
  exact List.prefix_append w _

theorem of_mem_takeWhile {p : UInt8 → Bool} {l : Bytes} {b : UInt8} (h : b ∈ l.takeWhile p) :
    p b = true :=
  List.all_eq_true.1 List.all_takeWhile b h

theorem head_dropWhile {p : UInt8 → Bool} {l r : Bytes} {b : UInt8} (h : l.dropWhile p = b :: r) :
    p b = false := by
  have hhead := List.head?_dropWhile_not p l
  rwa [h] at hhead

/-- All tokens that a source can start with, given what they are after its first byte. -/
theorem longest_of_starts {b : UInt8} {kind : Kind} {w after : Bytes} (h : Starts b kind w)
    (hall : ∀ kind' w', Starts b kind' w' → w' <+: w ++ after →
      w' <+: w ∧ (w' = w → kind' = kind)) : Longest kind (b :: w) after := by
  refine ⟨lexeme_iff_starts.2 h, fun kind' text' h' hp => ?_⟩
  cases text' with
  | nil => exact absurd rfl h'.ne_nil
  | cons c w' =>
    rw [List.cons_append, List.cons_prefix_cons] at hp
    obtain ⟨rfl, hp⟩ := hp
    obtain ⟨hwithin, hkind⟩ := hall kind' w' (lexeme_iff_starts.1 h') hp
    refine ⟨List.cons_prefix_cons.2 ⟨rfl, hwithin⟩, fun heq => hkind ?_⟩
    exact (List.cons.inj heq).2

theorem word_longest {b : UInt8} (rest : Bytes) (hb : isLetter b = true) :
    Longest (Kind.ofWord (b :: rest.takeWhile isWordByte)) (b :: rest.takeWhile isWordByte)
      (rest.dropWhile isWordByte) := by
  refine longest_of_starts ?_ fun kind' w' h hp => ?_
  · rw [Starts, Opening.ofByte_letter hb]
    exact ⟨rfl, fun c => of_mem_takeWhile⟩
  · rw [Starts, Opening.ofByte_letter hb] at h
    rw [List.takeWhile_append_dropWhile] at hp
    refine ⟨prefix_takeWhile hp h.2, fun heq => ?_⟩
    rw [h.1, heq]

/-! Numbers. -/

theorem numeral_cases (b : UInt8) (rest : Bytes) :
    numeral b rest = (b :: rest.takeWhile isDigit, rest.dropWhile isDigit) ∧
        (∀ d more, rest.dropWhile isDigit = ascii '.' :: d :: more → isDigit d = false) ∨
      ∃ d more, rest.dropWhile isDigit = ascii '.' :: d :: more ∧ isDigit d = true ∧
        numeral b rest = (b :: (rest.takeWhile isDigit ++ ascii '.' :: d :: more.takeWhile isDigit),
          more.dropWhile isDigit) := by
  cases hrest : rest.dropWhile isDigit with
  | nil => simp [numeral, run, hrest]
  | cons p more =>
    cases more with
    | nil => simp [numeral, run, hrest]
    | cons d more =>
      by_cases hp : p = ascii '.' ∧ isDigit d = true
      · obtain ⟨rfl, hd⟩ := hp
        exact .inr ⟨d, more, rfl, hd, by simp [numeral, run, hrest, hd]⟩
      · left
        have hif : (p == ascii '.' && isDigit d) = false := by simpa using hp
        refine ⟨by simp [numeral, run, hrest, hif], fun d' more' h => ?_⟩
        cases h
        simpa using hp

/-- A numeral at the head of a source takes digits only, or all digits there are, a point, and
digits after it. -/
theorem numeral_prefix {b : UInt8} {w rest : Bytes} (h : Numeral (b :: w)) (hp : w <+: rest) :
    w <+: rest.takeWhile isDigit ∨ ∃ u, Digits u ∧ w = rest.takeWhile isDigit ++ ascii '.' :: u ∧
      ascii '.' :: u <+: rest.dropWhile isDigit := by
  generalize htext : b :: w = text at h
  cases h with
  | whole h =>
    subst htext
    exact .inl (prefix_takeWhile hp fun c hc => h.2 c (List.mem_cons_of_mem b hc))
  | @fraction v u hv hu =>
    cases v with
    | nil => exact absurd rfl hv.1
    | cons c v =>
      obtain ⟨rfl, rfl⟩ := List.cons.inj (htext.trans (List.cons_append ..))
      obtain ⟨r, rfl⟩ := hp
      have hdigits : ∀ c ∈ v, isDigit c = true := fun c hc => hv.2 c (List.mem_cons_of_mem _ hc)
      refine .inr ⟨u, hu, ?_, r, ?_⟩
      · rw [List.append_assoc, List.takeWhile_append_of_pos hdigits, List.cons_append,
          List.takeWhile_cons_of_neg (by decide), List.append_nil]
      · rw [List.append_assoc, List.dropWhile_append_of_pos hdigits, List.cons_append,
          List.dropWhile_cons_of_neg (by decide)]

theorem numeral_longest {b : UInt8} (rest : Bytes) (hb : isDigit b = true) :
    (numeral b rest).1 ++ (numeral b rest).2 = b :: rest ∧
      Longest .number (numeral b rest).1 (numeral b rest).2 := by
  have hwhole : ∀ c ∈ b :: rest.takeWhile isDigit, isDigit c = true :=
    List.forall_mem_cons.2 ⟨hb, fun c => of_mem_takeWhile⟩
  have hsplit := List.takeWhile_append_dropWhile (p := isDigit) (l := rest)
  obtain ⟨heq, hno⟩ | ⟨d, more, hrest, hd, heq⟩ := numeral_cases b rest
  · rw [heq]
    refine ⟨by rw [List.cons_append, hsplit], longest_of_starts ?_ fun kind' w h hp => ?_⟩
    · rw [Starts, Opening.ofByte_digit hb]
      exact ⟨rfl, .whole ⟨List.cons_ne_nil _ _, hwhole⟩⟩
    · rw [Starts, Opening.ofByte_digit hb] at h
      rw [hsplit] at hp
      refine ⟨?_, fun _ => h.1⟩
      obtain h | ⟨u, hu, -, r, hr⟩ := numeral_prefix h.2 hp
      · exact h
      · cases u with
        | nil => exact absurd rfl hu.1
        | cons d u =>
          have hd := hu.2 d List.mem_cons_self
          rw [hno d (u ++ r) hr.symm] at hd
          cases hd
  · rw [hrest] at hsplit
    have hfraction : Digits (d :: more.takeWhile isDigit) :=
      ⟨List.cons_ne_nil _ _, List.forall_mem_cons.2 ⟨hd, fun c => of_mem_takeWhile⟩⟩
    have htext : rest.takeWhile isDigit ++ ascii '.' :: d :: more.takeWhile isDigit ++
        more.dropWhile isDigit = rest := by
      rw [List.append_assoc, List.cons_append, List.cons_append, List.takeWhile_append_dropWhile,
        hsplit]
    rw [heq]
    refine ⟨by rw [List.cons_append, htext], longest_of_starts ?_ fun kind' w h hp => ?_⟩
    · rw [Starts, Opening.ofByte_digit hb]
      have hnumeral : Numeral (b :: rest.takeWhile isDigit ++ ascii '.' :: d ::
          more.takeWhile isDigit) := .fraction ⟨List.cons_ne_nil _ _, hwhole⟩ hfraction
      exact ⟨rfl, hnumeral⟩
    · rw [Starts, Opening.ofByte_digit hb] at h
      rw [htext] at hp
      refine ⟨?_, fun _ => h.1⟩
      obtain h | ⟨u, hu, rfl, hr⟩ := numeral_prefix h.2 hp
      · exact h.trans (List.prefix_append _ _)
      · rw [hrest, List.cons_prefix_cons] at hr
        have hu' := prefix_takeWhile hr.2 hu.2
        rw [List.takeWhile_cons_of_pos hd] at hu'
        rw [List.prefix_append_right_inj, List.cons_prefix_cons]
        exact ⟨rfl, hu'⟩

/-! Signs. -/

theorem single_longest {b : UInt8} {k : Kind} (h : Opening.ofByte b = .single k) (after : Bytes) :
    Longest k [b] after := by
  refine longest_of_starts ?_ fun kind' w' hs _ => ?_
  · rw [Starts, h]
    exact ⟨rfl, rfl⟩
  · rw [Starts, h] at hs
    exact ⟨hs.2 ▸ List.prefix_rfl, fun _ => hs.1⟩

theorem slash_longest {after : Bytes} : Longest .slash [ascii '/'] after := by
  have ho : Opening.ofByte (ascii '/') = .slash := by decide
  refine longest_of_starts ?_ fun kind' w' hs _ => ?_
  · rw [Starts, ho]
    exact ⟨rfl, rfl⟩
  · rw [Starts, ho] at hs
    exact ⟨hs.2 ▸ List.prefix_rfl, fun _ => hs.1⟩

theorem double_longest {b second : UInt8} {two one : Kind}
    (h : Opening.ofByte b = .double second two one) (after : Bytes) :
    Longest two [b, second] after := by
  refine longest_of_starts ?_ fun kind' w' hs _ => ?_
  · rw [Starts, h]
    exact .inr ⟨rfl, rfl⟩
  · rw [Starts, h] at hs
    obtain ⟨-, rfl⟩ | ⟨rfl, rfl⟩ := hs
    · exact ⟨List.nil_prefix, fun h => absurd h.symm (List.cons_ne_nil _ _)⟩
    · exact ⟨List.prefix_rfl, fun _ => rfl⟩

theorem one_longest {b second : UInt8} {two one : Kind}
    (h : Opening.ofByte b = .double second two one) {after : Bytes}
    (hafter : after.head? ≠ some second) : Longest one [b] after := by
  refine longest_of_starts ?_ fun kind' w' hs hp => ?_
  · rw [Starts, h]
    exact .inl ⟨rfl, rfl⟩
  · rw [Starts, h] at hs
    obtain ⟨rfl, rfl⟩ | ⟨-, rfl⟩ := hs
    · exact ⟨List.prefix_rfl, fun _ => rfl⟩
    · obtain ⟨r, hr⟩ := hp
      rw [List.nil_append] at hr
      rw [← hr] at hafter
      exact absurd rfl hafter

/-! The quotes of a string are its own. -/

theorem StringBody.unique {v w x y : Bytes} (hv : StringBody v) (hw : StringBody w)
    (h : v ++ ascii '"' :: x = w ++ ascii '"' :: y) : v = w := by
  induction hv generalizing w with
  | nil =>
    cases hw with
    | nil => rfl
    | plain hq => exact absurd (List.cons.inj h).1.symm hq
    | escape => exact absurd (List.cons.inj h).1 (by decide)
  | plain hq hb _ ih =>
    cases hw with
    | nil => exact absurd (List.cons.inj h).1 hq
    | plain _ _ hw =>
      obtain ⟨rfl, hrest⟩ := List.cons.inj h
      rw [ih hw hrest]
    | escape => exact absurd (List.cons.inj h).1 hb
  | escape _ ih =>
    cases hw with
    | nil => exact absurd (List.cons.inj h).1 (by decide)
    | plain _ hb => exact absurd (List.cons.inj h).1.symm hb
    | escape hw =>
      obtain ⟨rfl, hrest⟩ := List.cons.inj (List.cons.inj h).2
      rw [ih hw hrest]

theorem string_longest {w : Bytes} (h : StringBody w) (after : Bytes) :
    Longest .string (ascii '"' :: (w ++ [ascii '"'])) after := by
  have ho : Opening.ofByte (ascii '"') = .quote := by decide
  refine longest_of_starts ?_ fun kind' w' hs hp => ?_
  · rw [Starts, ho]
    exact ⟨rfl, w, h, rfl⟩
  · rw [Starts, ho] at hs
    obtain ⟨rfl, v, hv, rfl⟩ := hs
    obtain ⟨r, hr⟩ := hp
    rw [List.append_assoc, List.append_assoc] at hr
    rw [StringBody.unique hv h hr]
    exact ⟨List.prefix_rfl, fun _ => rfl⟩

/-- The content is right for `text` where `after` follows. -/
def Content.Describes (content : Content) (text after : Bytes) : Prop :=
  match content with
  | .token kind _ => Longest kind text after
  | .skipped => Blank text after
  | .fault error => Faulty error text after

/-- The piece is at the head of the source. -/
structure Heads (p : Piece) (source : Bytes) : Prop where
  whole : p.text ++ p.rest = source
  proper : p.text ≠ []
  correct : p.content.Describes p.text p.rest

theorem operator_heads {b second : UInt8} {two one : Kind}
    (h : Opening.ofByte b = .double second two one) (rest : Bytes) :
    (operator b second two one rest).Heads (b :: rest) := by
  cases rest with
  | nil => exact ⟨rfl, nofun, one_longest h nofun⟩
  | cons c more =>
    by_cases hc : c = second
    · rw [operator, if_pos (beq_iff_eq.2 hc)]
      exact ⟨rfl, nofun, hc ▸ double_longest h more⟩
    · rw [operator, if_neg (by simpa using hc)]
      exact ⟨rfl, nofun, one_longest h (by simpa using hc)⟩

theorem lineComment_heads (more : Bytes) :
    Heads ⟨.skipped, ascii '/' :: ascii '/' :: more.takeWhile (· != newline),
      more.dropWhile (· != newline), []⟩ (ascii '/' :: ascii '/' :: more) where
  whole := by
    simp only [List.cons_append, List.takeWhile_append_dropWhile]
  proper := nofun
  correct := by
    refine Blank.line (fun h => ?_) ?_
    · have := of_mem_takeWhile h
      simp at this
    · cases hrest : more.dropWhile (· != newline) with
      | nil => exact .inl rfl
      | cons b rest =>
        have hb : b = newline := by simpa using head_dropWhile hrest
        exact .inr ⟨rest, by rw [hb]⟩

theorem blockComment_heads (more : Bytes) :
    (blockComment [ascii '*', ascii '/'] more).Heads (ascii '/' :: ascii '*' :: more) := by
  by_cases h : [ascii '*', ascii '/'] <:+: more
  · obtain ⟨w, rest, rfl, hw⟩ := exists_first_close h
    rw [blockComment_closed hw]
    exact ⟨by simp, by simp, .block hw⟩
  · rw [blockComment_open h]
    exact ⟨by simp, by simp, .comment h⟩

theorem slash_heads (rest : Bytes) : (slash rest).Heads (ascii '/' :: rest) := by
  cases rest with
  | nil => exact ⟨rfl, nofun, slash_longest⟩
  | cons c more =>
    by_cases hs : c = ascii '/'
    · subst hs
      exact lineComment_heads more
    by_cases hb : c = ascii '*'
    · subst hb
      exact blockComment_heads more
    · rw [slash, if_neg (by simpa using hs), if_neg (by simpa using hb)]
      exact ⟨rfl, nofun, slash_longest⟩

theorem string_heads (rest : Bytes) : (string .opened rest).Heads (ascii '"' :: rest) := by
  by_cases h : ∃ w, StringBody w ∧ w ++ [ascii '"'] <+: rest
  · obtain ⟨w, hw, more, rfl⟩ := h
    obtain ⟨literal, escapes, hs⟩ := string_closed hw .opened
    rw [List.append_assoc, List.singleton_append, hs]
    exact ⟨by simp [OpenString.opened], by simp, string_longest hw more⟩
  · have hopen : ∀ w, StringBody w → ¬ w ++ [ascii '"'] <+: rest := fun w hw hp => h ⟨w, hw, hp⟩
    obtain ⟨escapes, hs⟩ := string_open rest hopen .opened
    rw [hs]
    exact ⟨by simp [OpenString.opened], by simp [OpenString.opened], .string hopen⟩

theorem number_heads {b : UInt8} (rest : Bytes) (hb : isDigit b = true) :
    (number b rest).Heads (b :: rest) := by
  obtain ⟨hwhole, hlongest⟩ := numeral_longest rest hb
  unfold number
  cases hx : Decimal.read? (numeral b rest).1 with
  | some x =>
    simp only [hx]
    exact ⟨hwhole, hlongest.lexeme.ne_nil, hlongest⟩
  | none =>
    simp only [hx]
    exact ⟨hwhole, hlongest.lexeme.ne_nil, .number hlongest hx⟩

theorem word_heads {b : UInt8} (rest : Bytes) (hb : isLetter b = true) :
    (word b rest).Heads (b :: rest) :=
  ⟨by simp [word, run], by simp [word, run], word_longest rest hb⟩

theorem utf8Head_size (b : UInt8) (rest : Bytes) : (Utf8.head b rest).2 ≤ 3 := by
  unfold Utf8.head
  split
  · simp
  · split <;> (try split) <;> simp

theorem unexpected_heads {b : UInt8} (rest : Bytes) (h : Opening.ofByte b = .other) :
    (unexpected b rest).Heads (b :: rest) where
  whole := by simp [unexpected]
  proper := nofun
  correct := by
    have hfits := Opening.ofByte_fits b
    rw [h] at hfits
    obtain ⟨hspace, hquote⟩ := Bool.and_eq_true_iff.1 hfits
    have hlen : (rest.take (Utf8.head b rest).2).length ≤ 3 :=
      Nat.le_trans (List.length_take_le _ _) (utf8Head_size b rest)
    refine Faulty.character hlen (by simpa using hspace) (by simpa using hquote) fun kind w hw hp => ?_
    cases w with
    | nil => exact absurd rfl hw.ne_nil
    | cons c w =>
      obtain ⟨rfl, -⟩ := List.cons_prefix_cons.1 hp
      rwa [lexeme_iff_starts, Starts, h] at hw

/-- The piece at the head of a source is correct, and it is not empty. -/
theorem head_heads (b : UInt8) (rest : Bytes) : (head b rest).Heads (b :: rest) := by
  have hfits := Opening.ofByte_fits b
  rw [head_eq]
  cases ho : Opening.ofByte b with
  | space =>
    rw [ho] at hfits
    exact ⟨rfl, nofun, .space hfits⟩
  | single k => exact ⟨rfl, nofun, single_longest ho rest⟩
  | double second two one => exact operator_heads ho rest
  | slash =>
    rw [ho] at hfits
    rw [beq_iff_eq.1 hfits]
    exact slash_heads rest
  | quote =>
    rw [ho] at hfits
    rw [beq_iff_eq.1 hfits]
    exact string_heads rest
  | digit =>
    rw [ho] at hfits
    exact number_heads rest hfits
  | letter =>
    rw [ho] at hfits
    exact word_heads rest hfits
  | other => exact unexpected_heads rest ho

end Lox.Piece
