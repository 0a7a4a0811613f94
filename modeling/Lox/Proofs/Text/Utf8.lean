import Lox.Text.Utf8

/-! Reading back what was encoded as UTF-8. The encoding of a character is read as that character
whatever follows it, and an ASCII byte is always a character of its own; so a text can be taken
apart at each of its characters and at each ASCII byte. -/
namespace Lox.Utf8

/-- The bytes of characters. -/
def ofChars (cs : List Char) : Bytes := cs.flatMap String.utf8EncodeChar

/-- The text is made of whole characters. -/
def Valid (text : Bytes) : Prop := ∃ cs, text = ofChars cs

theorem utf8_eq (s : String) : utf8 s = ofChars s.toList := by
  have hbytes : s.toByteArray = s.toList.utf8Encode := by
    rw [← String.toByteArray_ofList, String.ofList_toList]
  rw [utf8, String.toUTF8, hbytes, List.utf8Encode, List.data_toByteArray, List.toList_toArray]
  rfl

theorem valid_utf8 (s : String) : Valid (utf8 s) := ⟨s.toList, utf8_eq s⟩

theorem ofChars_cons (c : Char) (cs : List Char) :
    ofChars (c :: cs) = String.utf8EncodeChar c ++ ofChars cs := List.flatMap_cons

/-! The bytes of one character. -/

theorem toNat_ofNat {n : Nat} (h : n < 256) : (UInt8.ofNat n).toNat = n :=
  UInt8.toNat_ofNat_of_lt' h

theorem encode_eq (c : Char) : String.utf8EncodeChar c =
    if c.toNat ≤ 127 then [UInt8.ofNat c.toNat]
    else if c.toNat ≤ 2047 then
      [UInt8.ofNat (c.toNat / 64 % 32 + 192), UInt8.ofNat (c.toNat % 64 + 128)]
    else if c.toNat ≤ 65535 then
      [UInt8.ofNat (c.toNat / 4096 % 16 + 224), UInt8.ofNat (c.toNat / 64 % 64 + 128),
        UInt8.ofNat (c.toNat % 64 + 128)]
    else
      [UInt8.ofNat (c.toNat / 262144 % 8 + 240), UInt8.ofNat (c.toNat / 4096 % 64 + 128),
        UInt8.ofNat (c.toNat / 64 % 64 + 128), UInt8.ofNat (c.toNat % 64 + 128)] := rfl

theorem encode_ascii {c : Char} (h : c.toNat < 128) :
    String.utf8EncodeChar c = [UInt8.ofNat c.toNat] :=
  if_pos (Nat.le_of_lt_succ h)

theorem toNat_charOfByte (b : UInt8) : (Char.ofNat b.toNat).toNat = b.toNat := by
  have hvalid : b.toNat.isValidChar := .inl (Nat.lt_trans b.toNat_lt (by decide))
  rw [Char.ofNat, dif_pos hvalid]
  rfl

theorem encode_charOfByte {b : UInt8} (h : b.toNat < 128) :
    String.utf8EncodeChar (Char.ofNat b.toNat) = [b] := by
  rw [encode_ascii (by rwa [toNat_charOfByte]), toNat_charOfByte, UInt8.ofNat_toNat]

theorem head_ascii {b : UInt8} (h : b.toNat < 128) (rest : Bytes) :
    head b rest = (.char (Char.ofNat b.toNat), 0) :=
  if_pos (UInt8.lt_iff_toNat_lt.2 h)

section
variable {b b₁ b₂ b₃ : UInt8}

theorem between_iff {lo hi : UInt8} :
    (lo ≤ b && b ≤ hi) = true ↔ lo.toNat ≤ b.toNat ∧ b.toNat ≤ hi.toNat := by
  simp only [Bool.and_eq_true, decide_eq_true_eq, UInt8.le_iff_toNat_le]

theorem isContinuation_iff : isContinuation b = true ↔ 0x80 ≤ b.toNat ∧ b.toNat ≤ 0xBF :=
  between_iff

theorem not_ascii (h : 0x80 ≤ b.toNat) : ¬ b < 0x80 := by
  rw [UInt8.lt_iff_toNat_lt]
  exact Nat.not_lt_of_le h

theorem head_two (h : 0xC2 ≤ b.toNat ∧ b.toNat < 0xE0) (h₁ : 0x80 ≤ b₁.toNat ∧ b₁.toNat ≤ 0xBF)
    (rest : Bytes) : head b (b₁ :: rest) =
      (.char (Char.ofNat (b.toNat % 32 * 64 + b₁.toNat % 64)), 1) := by
  have hfollow : follow b = some (0x80, 0xBF, 0) := by
    simp only [follow, UInt8.lt_iff_toNat_lt, UInt8.reduceToNat]
    rw [if_neg (by omega), if_pos (by omega)]
  have hbyte : (0x80 ≤ b₁ && b₁ ≤ 0xBF) = true := between_iff.2 h₁
  rw [head.eq_def, if_neg (not_ascii (by omega))]
  simp only [hfollow, hbyte, if_true, low]

theorem head_three (h : 0xE0 ≤ b.toNat ∧ b.toNat < 0xF0)
    (h₁ : (if b.toNat = 0xE0 then 0xA0 else 0x80) ≤ b₁.toNat ∧
      b₁.toNat ≤ if b.toNat = 0xED then 0x9F else 0xBF)
    (h₂ : 0x80 ≤ b₂.toNat ∧ b₂.toNat ≤ 0xBF) (rest : Bytes) : head b (b₁ :: b₂ :: rest) =
      (.char (Char.ofNat ((b.toNat % 16 * 64 + b₁.toNat % 64) * 64 + b₂.toNat % 64)), 2) := by
  have hfollow : follow b = some
      (if b == 0xE0 then 0xA0 else 0x80, if b == 0xED then 0x9F else 0xBF, 1) := by
    simp only [follow, UInt8.lt_iff_toNat_lt, UInt8.reduceToNat]
    rw [if_neg (by omega), if_neg (by omega), if_pos (by omega)]
  have hbyte : ((if b == 0xE0 then 0xA0 else 0x80) ≤ b₁ &&
      b₁ ≤ if b == 0xED then 0x9F else 0xBF) = true := by
    rw [between_iff]
    simp only [beq_iff_eq, ← UInt8.toNat_inj, apply_ite UInt8.toNat, UInt8.reduceToNat]
    exact h₁
  have hcontinuation := isContinuation_iff.2 h₂
  rw [head.eq_def, if_neg (not_ascii (by omega))]
  simp only [hfollow, hbyte, hcontinuation, Bool.and_self, if_true, low]

theorem head_four (h : 0xF0 ≤ b.toNat ∧ b.toNat < 0xF5)
    (h₁ : (if b.toNat = 0xF0 then 0x90 else 0x80) ≤ b₁.toNat ∧
      b₁.toNat ≤ if b.toNat = 0xF4 then 0x8F else 0xBF)
    (h₂ : 0x80 ≤ b₂.toNat ∧ b₂.toNat ≤ 0xBF) (h₃ : 0x80 ≤ b₃.toNat ∧ b₃.toNat ≤ 0xBF)
    (rest : Bytes) : head b (b₁ :: b₂ :: b₃ :: rest) =
      (.char (Char.ofNat (((b.toNat % 8 * 64 + b₁.toNat % 64) * 64 + b₂.toNat % 64) * 64 +
        b₃.toNat % 64)), 3) := by
  have hfollow : follow b = some
      (if b == 0xF0 then 0x90 else 0x80, if b == 0xF4 then 0x8F else 0xBF, 2) := by
    simp only [follow, UInt8.lt_iff_toNat_lt, UInt8.reduceToNat]
    rw [if_neg (by omega), if_neg (by omega), if_neg (by omega), if_pos (by omega)]
  have hbyte : ((if b == 0xF0 then 0x90 else 0x80) ≤ b₁ &&
      b₁ ≤ if b == 0xF4 then 0x8F else 0xBF) = true := by
    rw [between_iff]
    simp only [beq_iff_eq, ← UInt8.toNat_inj, apply_ite UInt8.toNat, UInt8.reduceToNat]
    exact h₁
  have hcontinuation₂ := isContinuation_iff.2 h₂
  have hcontinuation₃ := isContinuation_iff.2 h₃
  rw [head.eq_def, if_neg (not_ascii (by omega))]
  simp only [hfollow, hbyte, hcontinuation₂, hcontinuation₃, Bool.and_self, if_true, low]

end

/-- A character is read from its encoding, whatever follows. -/
theorem exists_encode (c : Char) : ∃ b tail, String.utf8EncodeChar c = b :: tail ∧
    ∀ rest, head b (tail ++ rest) = (.char c, tail.length) := by
  have hscalar : c.toNat < 0xD800 ∨ 0xDFFF < c.toNat ∧ c.toNat < 0x110000 := c.valid
  have hchar {n : Nat} (h : n = c.toNat) : Symbol.char (Char.ofNat n) = .char c := by
    rw [h, Char.ofNat_toNat]
  rw [encode_eq]
  split
  next h =>
    refine ⟨_, [], rfl, fun rest => ?_⟩
    have hb := toNat_ofNat (n := c.toNat) (by omega)
    rw [head_ascii (by omega), hchar hb]
    rfl
  next h =>
    split
    next h' =>
      refine ⟨_, [_], rfl, fun rest => ?_⟩
      have hb := toNat_ofNat (n := c.toNat / 64 % 32 + 192) (by omega)
      have hb₁ := toNat_ofNat (n := c.toNat % 64 + 128) (by omega)
      rw [List.singleton_append, head_two (by omega) (by omega), hchar (by omega)]
      rfl
    next h' =>
      split
      next h'' =>
        refine ⟨_, [_, _], rfl, fun rest => ?_⟩
        have hb := toNat_ofNat (n := c.toNat / 4096 % 16 + 224) (by omega)
        have hb₁ := toNat_ofNat (n := c.toNat / 64 % 64 + 128) (by omega)
        have hb₂ := toNat_ofNat (n := c.toNat % 64 + 128) (by omega)
        rw [List.cons_append, List.singleton_append,
          head_three (by omega) (by rw [hb, hb₁]; split <;> split <;> omega) (by omega),
          hchar (by omega)]
        rfl
      next h'' =>
        refine ⟨_, [_, _, _], rfl, fun rest => ?_⟩
        have hb := toNat_ofNat (n := c.toNat / 262144 % 8 + 240) (by omega)
        have hb₁ := toNat_ofNat (n := c.toNat / 4096 % 64 + 128) (by omega)
        have hb₂ := toNat_ofNat (n := c.toNat / 64 % 64 + 128) (by omega)
        have hb₃ := toNat_ofNat (n := c.toNat % 64 + 128) (by omega)
        rw [List.cons_append, List.cons_append, List.singleton_append,
          head_four (by omega) (by rw [hb, hb₁]; split <;> split <;> omega) (by omega) (by omega),
          hchar (by omega)]
        rfl

/-- The bytes of a character beyond ASCII are beyond ASCII. -/
theorem le_of_mem_encode {c : Char} (h : 128 ≤ c.toNat) :
    ∀ b ∈ String.utf8EncodeChar c, 128 ≤ b.toNat := by
  have hbyte {n k : Nat} (hk : 0 < k) (hlow : 128 ≤ n) (hhigh : k + n ≤ 256) (m : Nat) :
      128 ≤ (UInt8.ofNat (m % k + n)).toNat := by
    have hm := Nat.mod_lt m hk
    rw [toNat_ofNat (by omega)]
    omega
  rw [encode_eq, if_neg (by omega)]
  split <;> try split
  all_goals
    simp only [List.forall_mem_cons, List.not_mem_nil, hbyte, Nat.reduceLT, Nat.reduceLeDiff,
      Nat.reduceAdd, false_imp_iff, implies_true, and_self]

theorem mem_encode_ascii {c : Char} {b : UInt8} (hb : b.toNat < 128)
    (h : b ∈ String.utf8EncodeChar c) : String.utf8EncodeChar c = [b] := by
  by_cases hc : c.toNat < 128
  · rw [encode_ascii hc] at h ⊢
    rw [List.mem_singleton.1 h]
  · have hle := le_of_mem_encode (Nat.le_of_not_lt hc) b h
    omega

/-- The first byte of a character is its number for ASCII characters and for one other. -/
theorem ofNat_first_byte {c : Char} {e : UInt8} {tail : Bytes}
    (h : String.utf8EncodeChar c = e :: tail) :
    Char.ofNat e.toNat = c ↔ c.toNat < 128 ∨ c = 'Ã' := by
  by_cases hc : c.toNat < 128
  · rw [encode_ascii hc] at h
    cases h
    rw [toNat_ofNat (by omega), Char.ofNat_toNat]
    exact ⟨fun _ => .inl hc, fun _ => rfl⟩
  constructor
  · intro heq
    have hbyte : e.toNat < 256 := e.toNat_lt
    have hnumber : c.toNat = e.toNat := by rw [← heq, toNat_charOfByte]
    rw [encode_eq, if_neg (by omega), if_pos (by omega)] at h
    obtain ⟨he, -⟩ := List.cons.inj h
    have hfirst := toNat_ofNat (n := c.toNat / 64 % 32 + 192) (by omega)
    rw [he] at hfirst
    have hvalue : c.toNat = 195 := by omega
    right
    rw [← Char.ofNat_toNat c, hvalue]
  · rintro (h' | rfl)
    · exact absurd h' hc
    · cases h
      decide

/-! Texts. -/

/-- An ASCII byte of a text is one of its characters, so the text is whole on either side of it. -/
theorem Valid.split {u v : Bytes} {b : UInt8} (hb : b.toNat < 128) (h : Valid (u ++ b :: v)) :
    Valid u ∧ Valid (b :: v) ∧ Valid v := by
  obtain ⟨cs, h⟩ := h
  induction cs generalizing u with
  | nil => cases u <;> cases h
  | cons c cs ih =>
    rw [ofChars_cons, eq_comm, List.append_eq_append_iff] at h
    obtain ⟨w, rfl, hrest⟩ | ⟨w, hc, hw⟩ := h
    · obtain ⟨⟨us, rfl⟩, hboth⟩ := ih hrest.symm
      exact ⟨⟨c :: us, (ofChars_cons c us).symm⟩, hboth⟩
    -- The byte is one of the first character, or the first after it.
    cases w with
    | nil =>
      rw [List.append_nil] at hc
      obtain ⟨-, hboth⟩ := ih (u := []) hw
      exact ⟨⟨[c], hc ▸ (List.append_nil _).symm⟩, hboth⟩
    | cons b' w =>
      obtain ⟨rfl, rfl⟩ := List.cons.inj hw
      have hsingle := mem_encode_ascii hb (c := c) (hc ▸ List.mem_append_right u List.mem_cons_self)
      have hends : u = [] ∧ w = [] := by
        rw [hsingle] at hc
        cases u with
        | nil => exact ⟨rfl, (List.cons.inj hc).2.symm⟩
        | cons a u => simpa using congrArg List.length hc
      obtain ⟨rfl, rfl⟩ := hends
      exact ⟨⟨[], rfl⟩, ⟨c :: cs, by rw [ofChars_cons, hsingle]; rfl⟩, cs, rfl⟩

theorem decodeOnto_append (symbols : List Symbol) (skip : Nat) (text : Bytes) :
    decodeOnto symbols skip text = symbols.reverse ++ decodeOnto [] skip text := by
  induction text generalizing symbols skip with
  | nil => simp [decodeOnto]
  | cons b rest ih =>
    cases skip with
    | zero =>
      rw [decodeOnto, decodeOnto, ih, ih [_]]
      simp
    | succ skip => rw [decodeOnto, decodeOnto, ih]

theorem decodeOnto_skip (tail rest : Bytes) :
    decodeOnto [] tail.length (tail ++ rest) = decode rest := by
  induction tail with
  | nil => rfl
  | cons b tail ih => exact ih

theorem decode_cons (b : UInt8) (rest : Bytes) :
    decode (b :: rest) = (head b rest).1 :: decodeOnto [] (head b rest).2 rest := by
  rw [decode, decodeOnto, decodeOnto_append]
  rfl

theorem decode_encode (c : Char) (rest : Bytes) :
    decode (String.utf8EncodeChar c ++ rest) = .char c :: decode rest := by
  obtain ⟨b, tail, hencode, hhead⟩ := exists_encode c
  rw [hencode, List.cons_append, decode_cons, hhead, decodeOnto_skip]

/-- The encodings of two characters at the head of one text are the same. -/
theorem encode_head_unique {c d : Char} {rest : Bytes}
    (h : String.utf8EncodeChar d <+: String.utf8EncodeChar c ++ rest) : d = c := by
  obtain ⟨more, hmore⟩ := h
  have hdecode := congrArg decode hmore
  rw [decode_encode, decode_encode] at hdecode
  exact Symbol.char.inj (List.cons.inj hdecode).1

end Lox.Utf8
