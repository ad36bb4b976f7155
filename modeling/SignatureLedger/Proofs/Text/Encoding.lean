import SignatureLedger.Proofs.Text.Utf8

/-!
# Texts and code points

The well-formed characters are the encodings of the Unicode scalar values, so the texts are the
encodings of their sequences (`encoded_iff_text`). The strict reading stops behind the longest
prefix that is such an encoding (`longest_validPrefix`).
-/

namespace SignatureLedger.Utf8

/-- The bytes are the encodings of Unicode scalar values, one behind the other. -/
def Encoded (s : Bytes) : Prop := ∃ cs : List Char, s = cs.flatMap String.utf8EncodeChar

/-- The length of the longest prefix that is such a sequence of encodings. -/
structure LongestEncoded (s : Bytes) (k : Nat) : Prop where
  le : k ≤ s.length
  encoded : Encoded (s.take k)
  longest : ∀ j ≤ s.length, Encoded (s.take j) → j ≤ k

/-! ## Bytes as numbers -/

variable {b : UInt8} {n : Nat}

/-- A byte is at most a small number exactly if its value is. -/
theorem le_ofNat_iff (hn : n < 256) : b ≤ UInt8.ofNat n ↔ b.toNat ≤ n := by
  rw [UInt8.le_iff_toNat_le, UInt8.toNat_ofNat_of_lt' hn]

/-- A byte is at least a small number exactly if its value is. -/
theorem ofNat_le_iff (hn : n < 256) : UInt8.ofNat n ≤ b ↔ n ≤ b.toNat := by
  rw [UInt8.le_iff_toNat_le, UInt8.toNat_ofNat_of_lt' hn]

/-- A byte is a small number exactly if its value is. -/
theorem ofNat_eq_iff (hn : n < 256) : UInt8.ofNat n = b ↔ n = b.toNat := by
  rw [← UInt8.toNat_inj, UInt8.toNat_ofNat_of_lt' hn]

/-- The continuations are the bytes from `0x80` to `0xBF`. -/
theorem isContinuation_iff : isContinuation b = true ↔ 0x80 ≤ b.toNat ∧ b.toNat ≤ 0xBF := by
  simp [isContinuation, UInt8.le_iff_toNat_le]

/-- The byte of a character that carries six bits of the code point. -/
theorem isContinuation_ofNat (n : Nat) : isContinuation (UInt8.ofNat (n % 64 + 128)) = true := by
  rw [isContinuation_iff, UInt8.toNat_ofNat_of_lt' (by simp [UInt8.size]; omega)]
  omega

/-- A byte in a range, given by the number it stands for. -/
theorem between_ofNat {low high : UInt8} (hn : n < 256) (h : low.toNat ≤ n ∧ n ≤ high.toNat) :
    low ≤ UInt8.ofNat n ∧ UInt8.ofNat n ≤ high :=
  ⟨(le_ofNat_iff hn).mpr h.1, (ofNat_le_iff hn).mpr h.2⟩

/-! ## From code points to characters -/

/-- Every character is encoded as one of the sequences. There is one case for each number of bytes
and each range of lead bytes. -/
theorem character_utf8EncodeChar (ch : Char) : Character (String.utf8EncodeChar ch) := by
  have hvalid : ch.val.toNat < 0xD800 ∨ 0xDFFF < ch.val.toNat ∧ ch.val.toNat < 0x110000 := ch.valid
  have hcont := isContinuation_ofNat
  unfold String.utf8EncodeChar
  generalize ch.val.toNat = v at hvalid
  dsimp only
  split
  · -- one byte
    refine .ascii ?_
    rw [UInt8.lt_iff_toNat_lt, UInt8.toNat_ofNat']
    simp
    omega
  split
  · exact .two (between_ofNat (by omega) (by simp; omega)) (hcont v)
  split
  · -- the second byte of the first lead and of the one before the surrogates has a range of its own
    by_cases hlow : v < 0x1000
    · rw [(ofNat_eq_iff (b := 0xE0) (by omega)).mpr (by simp; omega)]
      exact .threeLow (between_ofNat (by omega) (by simp; omega)) (hcont v)
    by_cases hmid : 0xD000 ≤ v ∧ v < 0xE000
    · rw [(ofNat_eq_iff (b := 0xED) (by omega)).mpr (by simp; omega)]
      exact .threeMid (between_ofNat (by omega) (by simp; omega)) (hcont v)
    · have hne : UInt8.ofNat (v / 4096 % 16 + 0xE0) ≠ 0xED := by
        rw [ne_eq, ofNat_eq_iff (by omega)]
        simp
        omega
      have hlead : 0xE1 ≤ UInt8.ofNat (v / 4096 % 16 + 0xE0) ∧
          UInt8.ofNat (v / 4096 % 16 + 0xE0) ≤ 0xEF := between_ofNat (by omega) (by simp; omega)
      exact .three ⟨hlead.1, hlead.2, hne⟩ (hcont (v / 64)) (hcont v)
  · by_cases hlow : v < 0x40000
    · rw [(ofNat_eq_iff (b := 0xF0) (by omega)).mpr (by simp; omega)]
      exact .fourLow (between_ofNat (by omega) (by simp; omega)) (hcont (v / 64)) (hcont v)
    by_cases hhigh : 0x100000 ≤ v
    · rw [(ofNat_eq_iff (b := 0xF4) (by omega)).mpr (by simp; omega)]
      exact .fourHigh (between_ofNat (by omega) (by simp; omega)) (hcont (v / 64)) (hcont v)
    · exact .four (between_ofNat (by omega) (by simp; omega)) (hcont (v / 4096)) (hcont (v / 64))
        (hcont v)

/-! ## From characters to code points -/

section

variable {ch : Char} {a c d : UInt8}

/-- A byte is the number that is its value. -/
theorem eq_ofNat (h : b.toNat = n) : UInt8.ofNat n = b := by rw [← h, UInt8.ofNat_toNat]

/-- A character of one byte. -/
theorem utf8EncodeChar_one (hch : ch.val.toNat ≤ 0x7F) (ha : a.toNat = ch.val.toNat) :
    String.utf8EncodeChar ch = [a] := by
  refine (if_pos hch).trans ?_
  rw [eq_ofNat ha]

/-- A character of two bytes. -/
theorem utf8EncodeChar_two (hch : 0x7F < ch.val.toNat ∧ ch.val.toNat ≤ 0x7FF)
    (ha : a.toNat = ch.val.toNat / 64 + 0xC0) (hb : b.toNat = ch.val.toNat % 64 + 0x80) :
    String.utf8EncodeChar ch = [a, b] := by
  refine (if_neg (by omega)).trans ((if_pos hch.2).trans ?_)
  rw [eq_ofNat (b := a) (by omega), eq_ofNat hb]

/-- A character of three bytes. -/
theorem utf8EncodeChar_three (hch : 0x7FF < ch.val.toNat ∧ ch.val.toNat ≤ 0xFFFF)
    (ha : a.toNat = ch.val.toNat / 4096 + 0xE0) (hb : b.toNat = ch.val.toNat / 64 % 64 + 0x80)
    (hc : c.toNat = ch.val.toNat % 64 + 0x80) : String.utf8EncodeChar ch = [a, b, c] := by
  refine (if_neg (by omega)).trans ((if_neg (by omega)).trans ((if_pos hch.2).trans ?_))
  rw [eq_ofNat (b := a) (by omega), eq_ofNat hb, eq_ofNat hc]

/-- A character of four bytes. -/
theorem utf8EncodeChar_four (hch : 0xFFFF < ch.val.toNat)
    (ha : a.toNat = ch.val.toNat / 262144 + 0xF0) (hb : b.toNat = ch.val.toNat / 4096 % 64 + 0x80)
    (hc : c.toNat = ch.val.toNat / 64 % 64 + 0x80) (hd : d.toNat = ch.val.toNat % 64 + 0x80) :
    String.utf8EncodeChar ch = [a, b, c, d] := by
  have hvalid : ch.val.toNat < 0xD800 ∨ 0xDFFF < ch.val.toNat ∧ ch.val.toNat < 0x110000 := ch.valid
  refine (if_neg (by omega)).trans ((if_neg (by omega)).trans ((if_neg (by omega)).trans ?_))
  rw [eq_ofNat (b := a) (by omega), eq_ofNat hb, eq_ofNat hc, eq_ofNat hd]

end

/-- Every number that is no surrogate and small enough is a character. -/
theorem exists_char {v : Nat} (hv : v < 0xD800 ∨ 0xDFFF < v ∧ v < 0x110000) :
    ∃ ch : Char, ch.val.toNat = v :=
  ⟨Char.ofNatAux v hv, rfl⟩

/-- The code point of a character is put together from the payloads of its bytes. -/
theorem Character.exists_encoding {s : Bytes} (hs : Character s) :
    ∃ ch, String.utf8EncodeChar ch = s := by
  cases hs with
  | @ascii a ha =>
    rw [UInt8.lt_iff_toNat_lt] at ha
    obtain ⟨ch, hch⟩ := exists_char (.inl (Nat.lt_trans ha (by decide)))
    exact ⟨ch, utf8EncodeChar_one (hch ▸ Nat.le_of_lt_succ ha) hch.symm⟩
  | @two a b ha hb =>
    simp only [UInt8.le_iff_toNat_le, UInt8.reduceToNat] at ha
    rw [isContinuation_iff] at hb
    obtain ⟨ch, hch⟩ := exists_char (v := (a.toNat - 0xC0) * 64 + (b.toNat - 0x80)) (by omega)
    exact ⟨ch, utf8EncodeChar_two (by omega) (by omega) (by omega)⟩
  | @three a b c ha hb hc =>
    simp only [UInt8.le_iff_toNat_le, ne_eq, ← UInt8.toNat_inj, UInt8.reduceToNat] at ha
    rw [isContinuation_iff] at hb hc
    obtain ⟨ch, hch⟩ := exists_char
      (v := (a.toNat - 0xE0) * 4096 + (b.toNat - 0x80) * 64 + (c.toNat - 0x80)) (by omega)
    exact ⟨ch, utf8EncodeChar_three (by omega) (by omega) (by omega) (by omega)⟩
  | @threeLow b c hb hc =>
    simp only [UInt8.le_iff_toNat_le, UInt8.reduceToNat] at hb
    rw [isContinuation_iff] at hc
    obtain ⟨ch, hch⟩ := exists_char (v := (b.toNat - 0x80) * 64 + (c.toNat - 0x80)) (by omega)
    have hlead : (0xE0 : UInt8).toNat = 0xE0 := rfl
    exact ⟨ch, utf8EncodeChar_three (by omega) (by omega) (by omega) (by omega)⟩
  | @threeMid b c hb hc =>
    simp only [UInt8.le_iff_toNat_le, UInt8.reduceToNat] at hb
    rw [isContinuation_iff] at hc
    obtain ⟨ch, hch⟩ := exists_char
      (v := 0xD000 + (b.toNat - 0x80) * 64 + (c.toNat - 0x80)) (by omega)
    have hlead : (0xED : UInt8).toNat = 0xED := rfl
    exact ⟨ch, utf8EncodeChar_three (by omega) (by omega) (by omega) (by omega)⟩
  | @four a b c d ha hb hc hd =>
    simp only [UInt8.le_iff_toNat_le, UInt8.reduceToNat] at ha
    rw [isContinuation_iff] at hb hc hd
    obtain ⟨ch, hch⟩ := exists_char (v := (a.toNat - 0xF0) * 262144 + (b.toNat - 0x80) * 4096 +
      (c.toNat - 0x80) * 64 + (d.toNat - 0x80)) (by omega)
    exact ⟨ch, utf8EncodeChar_four (by omega) (by omega) (by omega) (by omega) (by omega)⟩
  | @fourLow b c d hb hc hd =>
    simp only [UInt8.le_iff_toNat_le, UInt8.reduceToNat] at hb
    rw [isContinuation_iff] at hc hd
    obtain ⟨ch, hch⟩ := exists_char
      (v := (b.toNat - 0x80) * 4096 + (c.toNat - 0x80) * 64 + (d.toNat - 0x80)) (by omega)
    have hlead : (0xF0 : UInt8).toNat = 0xF0 := rfl
    exact ⟨ch, utf8EncodeChar_four (by omega) (by omega) (by omega) (by omega) (by omega)⟩
  | @fourHigh b c d hb hc hd =>
    simp only [UInt8.le_iff_toNat_le, UInt8.reduceToNat] at hb
    rw [isContinuation_iff] at hc hd
    obtain ⟨ch, hch⟩ := exists_char (v := 0x100000 + (b.toNat - 0x80) * 4096 +
      (c.toNat - 0x80) * 64 + (d.toNat - 0x80)) (by omega)
    have hlead : (0xF4 : UInt8).toNat = 0xF4 := rfl
    exact ⟨ch, utf8EncodeChar_four (by omega) (by omega) (by omega) (by omega) (by omega)⟩

/-! ## Texts -/

/-- **The texts are the encodings of sequences of Unicode scalar values.** -/
theorem encoded_iff_text (s : Bytes) : Encoded s ↔ Text s := by
  constructor
  · rintro ⟨cs, rfl⟩
    induction cs with
    | nil => exact .nil
    | cons ch cs ih => exact .cons (character_utf8EncodeChar ch) ih
  · intro hs
    induction hs with
    | nil => exact ⟨[], rfl⟩
    | cons hc _ ih =>
      obtain ⟨ch, rfl⟩ := hc.exists_encoding
      obtain ⟨cs, rfl⟩ := ih
      exact ⟨ch :: cs, rfl⟩

/-- What is a text at the front belongs to the longest valid prefix. -/
theorem Text.length_le_validPrefix {u v : Bytes} (hu : Text u) :
    u.length ≤ validPrefix (u ++ v) := by
  induction hu with
  | nil => exact Nat.zero_le _
  | @cons c u hc _ ih =>
    rw [List.append_assoc, validPrefix]
    split
    · rename_i h
      rw [hc.validWidth?_append] at h
      exact absurd h (by simp)
    · rename_i w h
      rw [hc.validWidth?_append] at h
      obtain rfl := Option.some.inj h
      rw [List.drop_left, List.length_append]
      exact Nat.add_le_add_left ih _

/-- **The strict reading stops behind the longest encoded prefix.** -/
theorem longest_validPrefix (s : Bytes) : LongestEncoded s (validPrefix s) := by
  obtain ⟨u, v, rfl, hu, hlen⟩ := exists_text_validPrefix s
  refine ⟨by rw [← hlen, List.length_append]; omega, ?_, fun j hj h => ?_⟩
  · rwa [← hlen, List.take_left, encoded_iff_text]
  · rw [encoded_iff_text] at h
    have := h.length_le_validPrefix (v := (u ++ v).drop j)
    rwa [List.take_append_drop, List.length_take_of_le hj] at this

end SignatureLedger.Utf8
