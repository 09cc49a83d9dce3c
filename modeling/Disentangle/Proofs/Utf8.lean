import Disentangle.Utf8

/-!
What has been encoded is read back, and what can be read has been encoded. The first byte of a
character says how many bytes belong to it, and the limits on the second byte leave out no character
and let no other bytes pass, since a text holds no surrogates. So a cut between two characters of a
text is a cut between their bytes.
-/

namespace Disentangle.Utf8

theorem toNat_valid (c : Char) : c.toNat < 0xD800 ∨ 0xDFFF < c.toNat ∧ c.toNat < 0x110000 :=
  c.valid

@[simp] theorem toNat_byte {n : Nat} (h : n < 0x100) : (UInt8.ofNat n).toNat = n := by
  rw [UInt8.toNat_ofNat']
  exact Nat.mod_eq_of_lt h

theorem byte_eq_iff {n m : Nat} (hn : n < 0x100) (hm : m < 0x100) :
    UInt8.ofNat n = UInt8.ofNat m ↔ n = m := by
  rw [← UInt8.toNat_inj, toNat_byte hn, toNat_byte hm]

/-- A byte behind the first one, which holds six bits. -/
def tailByte (bits : Nat) : UInt8 :=
  UInt8.ofNat (0x80 + bits % 0x40)

theorem toNat_tailByte (bits : Nat) : (tailByte bits).toNat = 0x80 + bits % 0x40 :=
  toNat_byte (by omega)

@[simp] theorem payload_tailByte (bits : Nat) : payload (tailByte bits) = bits % 0x40 := by
  rw [payload, toNat_tailByte]
  omega

@[simp] theorem isContinuation_tailByte (bits : Nat) : isContinuation (tailByte bits) = true := by
  simp only [isContinuation, toNat_tailByte, Bool.and_eq_true, decide_eq_true_eq]
  omega

/-- The second byte of a character lies within the limits that its first byte sets. -/
theorem mayFollow_tailByte (lead bits : Nat) (hlead : lead < 0x100)
    (hE0 : lead = 0xE0 → 0x20 ≤ bits % 0x40) (hED : lead = 0xED → bits % 0x40 < 0x20)
    (hF0 : lead = 0xF0 → 0x10 ≤ bits % 0x40) (hF4 : lead = 0xF4 → bits % 0x40 < 0x10) :
    mayFollow (UInt8.ofNat lead) (tailByte bits) = true := by
  have hbyte (m : Nat) (hm : m < 0x100) : UInt8.ofNat lead = UInt8.ofNat m → lead = m :=
    (byte_eq_iff hlead hm).mp
  rw [mayFollow, isContinuation_tailByte, Bool.true_and, toNat_tailByte]
  split
  next h =>
    have hbits := hE0 (hbyte 0xE0 (by omega) h)
    simpa using by omega
  next =>
    split
    next h =>
      have hbits := hED (hbyte 0xED (by omega) h)
      simpa using by omega
    next =>
      split
      next h =>
        have hbits := hF0 (hbyte 0xF0 (by omega) h)
        simpa using by omega
      next =>
        split
        next h =>
          have hbits := hF4 (hbyte 0xF4 (by omega) h)
          simpa using by omega
        next => rfl

section Widths

variable {lead b1 b2 b3 : UInt8} (rest : List UInt8)

theorem decodeChar_one (hlead : lead.toNat < 0x80) :
    decodeChar lead rest = .ok (Char.ofNat lead.toNat, rest) := by
  simp only [decodeChar, hlead, if_true]

theorem decodeChar_two (hlow : 0xC2 ≤ lead.toNat) (hhigh : lead.toNat < 0xE0)
    (h1 : mayFollow lead b1 = true) :
    decodeChar lead (b1 :: rest) = .ok (Char.ofNat (lead.toNat % 32 * 64 + payload b1), rest) := by
  have hone : ¬ lead.toNat < 0x80 := by omega
  have hstart : ¬ (lead.toNat < 0xC2 ∨ 0xF4 < lead.toNat) := by omega
  simp [decodeChar, hone, hstart, h1, hhigh]

theorem decodeChar_three (hlow : 0xE0 ≤ lead.toNat) (hhigh : lead.toNat < 0xF0)
    (h1 : mayFollow lead b1 = true) (h2 : isContinuation b2 = true) :
    decodeChar lead (b1 :: b2 :: rest) =
      .ok (Char.ofNat ((lead.toNat % 16 * 64 + payload b1) * 64 + payload b2), rest) := by
  have hone : ¬ lead.toNat < 0x80 := by omega
  have hstart : ¬ (lead.toNat < 0xC2 ∨ 0xF4 < lead.toNat) := by omega
  have htwo : ¬ lead.toNat < 0xE0 := by omega
  simp [decodeChar, hone, hstart, h1, htwo, h2, hhigh]

theorem decodeChar_four (hlow : 0xF0 ≤ lead.toNat) (hhigh : lead.toNat ≤ 0xF4)
    (h1 : mayFollow lead b1 = true) (h2 : isContinuation b2 = true)
    (h3 : isContinuation b3 = true) :
    decodeChar lead (b1 :: b2 :: b3 :: rest) =
      .ok (Char.ofNat
        (((lead.toNat % 8 * 64 + payload b1) * 64 + payload b2) * 64 + payload b3), rest) := by
  have hone : ¬ lead.toNat < 0x80 := by omega
  have hstart : ¬ (lead.toNat < 0xC2 ∨ 0xF4 < lead.toNat) := by omega
  have htwo : ¬ lead.toNat < 0xE0 := by omega
  have hthree : ¬ lead.toNat < 0xF0 := by omega
  simp [decodeChar, hone, hstart, h1, htwo, h2, hthree, h3]

end Widths

/-- A character is read back from its encoding, whatever stands behind it. -/
theorem decodeChar_encodeChar (c : Char) (rest : List UInt8) :
    ∃ lead tail, encodeChar c = lead :: tail ∧ decodeChar lead (tail ++ rest) = .ok (c, rest) := by
  have hvalid := toNat_valid c
  have hback {n : Nat} (h : n = c.toNat) : Char.ofNat n = c := h ▸ Char.ofNat_toNat c
  by_cases hone : c.toNat < 0x80
  · have hlead := toNat_byte (show c.toNat < 0x100 by omega)
    refine ⟨UInt8.ofNat c.toNat, [], by simp [encodeChar, hone], ?_⟩
    rw [List.nil_append, decodeChar_one rest (by omega), hback hlead]
  by_cases htwo : c.toNat < 0x800
  · have hlead := toNat_byte (show 0xC0 + c.toNat / 0x40 < 0x100 by omega)
    have hfollows := mayFollow_tailByte (0xC0 + c.toNat / 0x40) (c.toNat / 1) (by omega)
      (by omega) (by omega) (by omega) (by omega)
    refine ⟨UInt8.ofNat (0xC0 + c.toNat / 0x40), [tailByte (c.toNat / 1)],
      by simp only [encodeChar, hone, htwo, if_true, if_false, tailByte], ?_⟩
    rw [List.singleton_append, decodeChar_two rest (by omega) (by omega) hfollows, hlead,
      payload_tailByte, hback (by omega)]
  by_cases hthree : c.toNat < 0x10000
  · have hlead := toNat_byte (show 0xE0 + c.toNat / 0x1000 < 0x100 by omega)
    have hfollows := mayFollow_tailByte (0xE0 + c.toNat / 0x1000) (c.toNat / 0x40) (by omega)
      (by omega) (by omega) (by omega) (by omega)
    refine ⟨UInt8.ofNat (0xE0 + c.toNat / 0x1000), [tailByte (c.toNat / 0x40),
      tailByte (c.toNat / 1)],
      by simp only [encodeChar, hone, htwo, hthree, if_true, if_false, tailByte], ?_⟩
    rw [List.cons_append, List.singleton_append, decodeChar_three rest (by omega) (by omega)
      hfollows (isContinuation_tailByte _), hlead, payload_tailByte, payload_tailByte,
      hback (by omega)]
  · have hlead := toNat_byte (show 0xF0 + c.toNat / 0x40000 < 0x100 by omega)
    have hfollows := mayFollow_tailByte (0xF0 + c.toNat / 0x40000) (c.toNat / 0x1000) (by omega)
      (by omega) (by omega) (by omega) (by omega)
    refine ⟨UInt8.ofNat (0xF0 + c.toNat / 0x40000), [tailByte (c.toNat / 0x1000),
      tailByte (c.toNat / 0x40), tailByte (c.toNat / 1)],
      by simp only [encodeChar, hone, htwo, hthree, if_false, tailByte], ?_⟩
    rw [List.cons_append, List.cons_append, List.singleton_append, decodeChar_four rest (by omega)
      (by omega) hfollows (isContinuation_tailByte _) (isContinuation_tailByte _), hlead,
      payload_tailByte, payload_tailByte, payload_tailByte, hback (by omega)]

theorem decodeFrom_encode (t : Text) (n position : Nat) (h : (encode t).length ≤ n) :
    decodeFrom n position (encode t) = .ok t := by
  induction t generalizing n position with
  | nil =>
    have hencode : encode [] = [] := rfl
    rw [hencode]
    cases n <;> rfl
  | cons c t ih =>
    obtain ⟨lead, tail, hchar, hdecode⟩ := decodeChar_encodeChar c (encode t)
    have hencode : encode (c :: t) = lead :: (tail ++ encode t) := by
      rw [encode, List.flatMap_cons, hchar, List.cons_append]
      rfl
    rw [hencode] at h ⊢
    cases n with
    | zero => simp at h
    | succ n =>
      have hshorter : (encode t).length ≤ n := by
        simp only [List.length_cons, List.length_append] at h
        omega
      simp only [decodeFrom, hdecode, ih n _ hshorter, Except.map]

/-- A text that has been encoded is read back. -/
@[simp] theorem decode_encode (t : Text) : decode (encode t) = .ok t :=
  decodeFrom_encode t _ 0 (Nat.le_refl _)

section Backwards

variable {lead b1 b2 b3 : UInt8} {rest left : List UInt8} {c : Char}

theorem toNat_of_isContinuation {b : UInt8} (h : isContinuation b = true) :
    0x80 ≤ b.toNat ∧ b.toNat < 0xC0 := by
  simpa [isContinuation] using h

/-- The limits that the first byte of a character sets to the second one. -/
theorem of_mayFollow (h : mayFollow lead b1 = true) :
    (0x80 ≤ b1.toNat ∧ b1.toNat < 0xC0) ∧ (lead.toNat = 0xE0 → 0xA0 ≤ b1.toNat) ∧
      (lead.toNat = 0xED → b1.toNat < 0xA0) ∧ (lead.toNat = 0xF0 → 0x90 ≤ b1.toNat) ∧
      (lead.toNat = 0xF4 → b1.toNat < 0x90) := by
  have hlead {m : Nat} (hm : m < 0x100) (heq : lead.toNat = m) : lead = UInt8.ofNat m := by
    rw [← UInt8.toNat_inj, toNat_byte hm, heq]
  rw [mayFollow, Bool.and_eq_true] at h
  refine ⟨toNat_of_isContinuation h.1, fun heq => ?_, fun heq => ?_, fun heq => ?_,
    fun heq => ?_⟩
  all_goals
    obtain rfl := hlead (by decide) heq
    simpa using h.2

/-- A byte is what its value says. -/
theorem ofNat_eq {b : UInt8} {n : Nat} (h : n = b.toNat) : UInt8.ofNat n = b := by
  rw [h, UInt8.ofNat_toNat]

theorem toNat_char {n : Nat} (h : n < 0xD800 ∨ 0xDFFF < n ∧ n < 0x110000) :
    (Char.ofNat n).toNat = n := by
  rw [Char.ofNat, dif_pos (show n.isValidChar from h)]
  rfl

theorem encodeChar_two {n : Nat} (hlow : 0x80 ≤ n) (hhigh : n < 0x800) :
    encodeChar (Char.ofNat n) = [UInt8.ofNat (0xC0 + n / 0x40), UInt8.ofNat (0x80 + n % 0x40)] := by
  simp only [encodeChar, toNat_char (Or.inl (show n < 0xD800 by omega)), Nat.div_one]
  rw [if_neg (by omega), if_pos hhigh]

theorem encodeChar_three {n : Nat} (hlow : 0x800 ≤ n) (hhigh : n < 0x10000)
    (h : n < 0xD800 ∨ 0xDFFF < n) :
    encodeChar (Char.ofNat n) =
      [UInt8.ofNat (0xE0 + n / 0x1000), UInt8.ofNat (0x80 + n / 0x40 % 0x40),
        UInt8.ofNat (0x80 + n % 0x40)] := by
  have hvalid : n < 0xD800 ∨ 0xDFFF < n ∧ n < 0x110000 := by omega
  simp only [encodeChar, toNat_char hvalid, Nat.div_one]
  rw [if_neg (by omega), if_neg (by omega), if_pos hhigh]

theorem encodeChar_four {n : Nat} (hlow : 0x10000 ≤ n) (hhigh : n < 0x110000) :
    encodeChar (Char.ofNat n) =
      [UInt8.ofNat (0xF0 + n / 0x40000), UInt8.ofNat (0x80 + n / 0x1000 % 0x40),
        UInt8.ofNat (0x80 + n / 0x40 % 0x40), UInt8.ofNat (0x80 + n % 0x40)] := by
  simp only [encodeChar, toNat_char (Or.inr ⟨show 0xDFFF < n by omega, hhigh⟩), Nat.div_one]
  rw [if_neg (by omega), if_neg (by omega), if_neg (by omega)]

/-- The bytes from which a character is read are its encoding. -/
theorem encodeChar_of_decodeChar (h : decodeChar lead rest = .ok (c, left)) :
    lead :: rest = encodeChar c ++ left := by
  unfold decodeChar at h
  dsimp only at h
  split at h
  next hone =>
    cases h
    have hchar : encodeChar (Char.ofNat lead.toNat) = [lead] := by
      simp [encodeChar, toNat_char (Or.inl (show lead.toNat < 0xD800 by omega)), hone]
    rw [hchar, List.singleton_append]
  split at h
  · cases h
  rename_i hone hstart
  simp only [Bool.or_eq_true, decide_eq_true_eq, not_or, Nat.not_lt] at hstart
  split at h
  · cases h
  next b1 rest =>
    split at h
    · cases h
    next h1 =>
      obtain ⟨hb1, hE0, hED, hF0, hF4⟩ := of_mayFollow (by simpa using h1)
      split at h
      next htwo =>
        cases h
        rw [encodeChar_two (by unfold payload; omega) (by unfold payload; omega),
          ofNat_eq (b := lead) (by unfold payload; omega),
          ofNat_eq (b := b1) (by unfold payload; omega)]
        rfl
      next htwo =>
        split at h
        · cases h
        next b2 rest =>
          split at h
          · cases h
          next h2 =>
            have hb2 := toNat_of_isContinuation (by simpa using h2)
            split at h
            next hthree =>
              cases h
              rw [encodeChar_three (by unfold payload; omega) (by unfold payload; omega)
                  (by unfold payload; omega),
                ofNat_eq (b := lead) (by unfold payload; omega),
                ofNat_eq (b := b1) (by unfold payload; omega),
                ofNat_eq (b := b2) (by unfold payload; omega)]
              rfl
            next hthree =>
              split at h
              · cases h
              next b3 rest =>
                split at h
                · cases h
                next h3 =>
                  cases h
                  have hb3 := toNat_of_isContinuation (by simpa using h3)
                  rw [encodeChar_four (by unfold payload; omega) (by unfold payload; omega),
                    ofNat_eq (b := lead) (by unfold payload; omega),
                    ofNat_eq (b := b1) (by unfold payload; omega),
                    ofNat_eq (b := b2) (by unfold payload; omega),
                    ofNat_eq (b := b3) (by unfold payload; omega)]
                  rfl

theorem encodeChar_ne_nil (c : Char) : encodeChar c ≠ [] := by
  obtain ⟨lead, tail, hchar, -⟩ := decodeChar_encodeChar c []
  rw [hchar]
  exact List.cons_ne_nil lead tail

theorem encode_append (s t : Text) : encode (s ++ t) = encode s ++ encode t :=
  List.flatMap_append

theorem encode_of_decodeFrom {n position : Nat} {bytes : List UInt8} {t : Text}
    (hlength : bytes.length ≤ n) (h : decodeFrom n position bytes = .ok t) : encode t = bytes := by
  induction n generalizing position bytes t with
  | zero =>
    obtain rfl := List.length_eq_zero_iff.mp (Nat.le_zero.mp hlength)
    cases h
    rfl
  | succ n ih =>
    cases bytes with
    | nil =>
      cases h
      rfl
    | cons lead rest =>
      rw [decodeFrom] at h
      split at h
      · cases h
      next c left hchar =>
        have hbytes := encodeChar_of_decodeChar hchar
        have hpos := List.length_pos_iff.mpr (encodeChar_ne_nil c)
        have hshorter : left.length ≤ n := by
          have hcount := congrArg List.length hbytes
          rw [List.length_cons, List.length_append] at hcount
          rw [List.length_cons] at hlength
          omega
        cases hrest : decodeFrom n (position + 1 + (rest.length - left.length)) left with
        | error e =>
          rw [hrest] at h
          cases h
        | ok t =>
          rw [hrest] at h
          cases h
          rw [encode, List.flatMap_cons, hbytes]
          exact congrArg (encodeChar c ++ ·) (ih hshorter hrest)

/-- Bytes that can be read are the encoding of what is read. -/
theorem encode_of_decode {bytes : List UInt8} {t : Text} (h : decode bytes = .ok t) :
    encode t = bytes :=
  encode_of_decodeFrom (Nat.le_refl _) h

theorem decode_eq_ok_iff {bytes : List UInt8} {t : Text} :
    decode bytes = .ok t ↔ bytes = encode t :=
  ⟨fun h => (encode_of_decode h).symm, fun h => h ▸ decode_encode t⟩

theorem encode_injective {s t : Text} (h : encode s = encode t) : s = t := by
  have hback := decode_encode t
  rw [← h, decode_encode] at hback
  exact Except.ok.inj hback

theorem isText_iff {bytes : List UInt8} : IsText bytes ↔ ∃ t, bytes = encode t := by
  unfold IsText
  cases h : decode bytes with
  | ok t => exact ⟨fun _ => ⟨t, decode_eq_ok_iff.mp h⟩, fun _ => rfl⟩
  | error e =>
    refine ⟨fun hfalse => absurd hfalse Bool.false_ne_true, ?_⟩
    rintro ⟨t, rfl⟩
    cases (decode_encode t).symm.trans h

theorem isText_encode (t : Text) : IsText (encode t) :=
  isText_iff.mpr ⟨t, rfl⟩

/-- The text of bytes is the one that they encode. -/
theorem textOf_eq {bytes : List UInt8} {t : Text} (h : IsText bytes) (hbytes : bytes = encode t) :
    textOf bytes h = t := by
  unfold textOf
  split
  next text hdecode => exact encode_injective ((decode_eq_ok_iff.mp hdecode).symm.trans hbytes)
  next e hdecode =>
    rw [hbytes, decode_encode] at hdecode
    cases hdecode

theorem encode_cons (c : Char) (t : Text) : encode (c :: t) = encodeChar c ++ encode t :=
  List.flatMap_cons

/-- No character's encoding begins with that of another one. -/
theorem encodeChar_append_inj {d : Char} {later later' : List UInt8}
    (h : encodeChar c ++ later = encodeChar d ++ later') : c = d ∧ later = later' := by
  obtain ⟨lead, tail, hc, hread⟩ := decodeChar_encodeChar c later
  obtain ⟨lead', tail', hd, hread'⟩ := decodeChar_encodeChar d later'
  rw [hc, hd, List.cons_append, List.cons_append, List.cons.injEq] at h
  obtain ⟨rfl, htail⟩ := h
  rw [htail, hread', Except.ok.injEq, Prod.mk.injEq] at hread
  exact ⟨hread.1.symm, hread.2.symm⟩

/-- Behind the encoding of its front stands the encoding of the rest of a text. -/
theorem exists_of_encode_eq_append {text front : Text} {later : List UInt8}
    (h : encode text = encode front ++ later) :
    ∃ back, text = front ++ back ∧ later = encode back := by
  induction front generalizing text with
  | nil => exact ⟨text, rfl, h.symm⟩
  | cons c front ih =>
    rw [encode_cons, List.append_assoc] at h
    cases text with
    | nil => exact absurd (List.append_eq_nil_iff.mp h.symm).1 (encodeChar_ne_nil c)
    | cons d text =>
      rw [encode_cons] at h
      obtain ⟨rfl, hrest⟩ := encodeChar_append_inj h
      obtain ⟨back, rfl, hback⟩ := ih hrest
      exact ⟨back, rfl, hback⟩

theorem encode_textOf {bytes : List UInt8} (h : IsText bytes) : encode
    (textOf bytes h) = bytes := by
  obtain ⟨t, rfl⟩ := isText_iff.mp h
  rw [textOf_eq h rfl]

end Backwards

section Cuts

variable {text : Text} {n m : Nat}

theorem encode_eq_append (text : Text) (n : Nat) :
    encode text = encode (text.take n) ++ encode (text.drop n) := by
  rw [← encode_append, List.take_append_drop]

/-- A cut between characters is a cut between their bytes. -/
theorem take_bytesBefore (text : Text) (n : Nat) :
    (encode text).take (bytesBefore text n) = encode (text.take n) := by
  rw [encode_eq_append text n, bytesBefore, List.take_left]

theorem drop_bytesBefore (text : Text) (n : Nat) :
    (encode text).drop (bytesBefore text n) = encode (text.drop n) := by
  rw [encode_eq_append text n, bytesBefore, List.drop_left]

theorem bytesBefore_le (text : Text) (n : Nat) : bytesBefore text n ≤ (encode text).length := by
  rw [encode_eq_append text n, List.length_append, bytesBefore]
  exact Nat.le_add_right _ _

theorem bytesBefore_add (text : Text) (n width : Nat) :
    bytesBefore text (n + width) = bytesBefore text n + bytesBefore (text.drop n) width := by
  rw [bytesBefore, List.take_add, encode_append, List.length_append]
  rfl

theorem bytesBefore_mono (h : n ≤ m) : bytesBefore text n ≤ bytesBefore text m := by
  obtain ⟨width, rfl⟩ := Nat.exists_eq_add_of_le h
  rw [bytesBefore_add]
  exact Nat.le_add_right _ _

theorem bytesBefore_lt (h : n < m) (hm : m ≤ text.length) :
    bytesBefore text n < bytesBefore text m := by
  obtain ⟨width, rfl⟩ := Nat.exists_eq_add_of_le (Nat.le_of_lt h)
  rw [bytesBefore_add]
  refine Nat.lt_add_of_pos_right (List.length_pos_iff.mpr fun hnil => ?_)
  have hempty : (text.drop n).take width = [] := encode_injective hnil
  have hlength := congrArg List.length hempty
  rw [List.length_take, List.length_drop, List.length_nil] at hlength
  omega

theorem take_drop_bytesBefore (text : Text) (n width : Nat) :
    ((encode text).drop (bytesBefore text n)).take
        (bytesBefore text (n + width) - bytesBefore text n) =
      encode ((text.drop n).take width) := by
  rw [drop_bytesBefore, bytesBefore_add, Nat.add_sub_cancel_left, take_bytesBefore]

end Cuts

end Disentangle.Utf8
