import SignatureLedger.Proofs.Text.Bytes
import SignatureLedger.Proofs.Text.Encoding
import SignatureLedger.Source.Map

/-!
# Places between characters

The lenient reading gives the code points of a text, whatever stands behind the text
(`columns_flatMap`). So at an offset between two characters the column that is counted up to the
offset is the one that is counted inside the whole line (`SourceFile.exists_marks`).
-/

namespace SignatureLedger

open Utf8

/-! ## The lenient reading of a text -/

namespace Utf8

/-- The payload of a continuation is what it is above the least of them. -/
theorem payload?_of_isContinuation :
    ∀ b : UInt8, isContinuation b = true → payload? b = some (b.toNat - 0x80) :=
  forall_byte (by decide +kernel)

/-! The bits that tell the lead bytes apart, and the payload of each of them. -/

/-- The bits of a byte that leads two. -/
theorem bits_of_lead_two : ∀ b : UInt8, (0xC0 ≤ b.toNat ∧ b.toNat ≤ 0xDF) →
    ¬ b < 0x80 ∧ b &&& 0xE0 = 0xC0 ∧ (b &&& 0x1F).toNat = b.toNat - 0xC0 :=
  forall_byte (by decide +kernel)

/-- The bits of a byte that leads three. -/
theorem bits_of_lead_three : ∀ b : UInt8, (0xE0 ≤ b.toNat ∧ b.toNat ≤ 0xEF) →
    ¬ b < 0x80 ∧ b &&& 0xE0 ≠ 0xC0 ∧ b &&& 0xF0 = 0xE0 ∧ (b &&& 0x0F).toNat = b.toNat - 0xE0 :=
  forall_byte (by decide +kernel)

/-- The bits of a byte that leads four. -/
theorem bits_of_lead_four : ∀ b : UInt8, (0xF0 ≤ b.toNat ∧ b.toNat ≤ 0xF7) →
    ¬ b < 0x80 ∧ b &&& 0xE0 ≠ 0xC0 ∧ b &&& 0xF0 ≠ 0xE0 ∧ b &&& 0xF8 = 0xF0
      ∧ (b &&& 0x07).toNat = b.toNat - 0xF0 :=
  forall_byte (by decide +kernel)

/-- The scalar has this code point and this width. -/
structure Scalar.Is (x : Scalar) (value width : Nat) : Prop where
  value : x.value = value
  width : x.width = width

section

variable {a b c d : UInt8} {x y z : Nat}

/-- A plain byte is read as itself. -/
theorem Scalar.ofBytes_one (ha : a.toNat < 0x80) (rest : Bytes) :
    (Scalar.ofBytes a rest).Is a.toNat 1 := by
  have hlt : a < 0x80 := UInt8.lt_iff_toNat_lt.mpr ha
  rw [Scalar.ofBytes, if_pos hlt]
  exact ⟨rfl, rfl⟩

/-- A lead and its continuation are read as one scalar. -/
theorem Scalar.ofBytes_two (ha : 0xC0 ≤ a.toNat ∧ a.toNat ≤ 0xDF) (hb : payload? b = some x)
    (rest : Bytes) : (Scalar.ofBytes a (b :: rest)).Is ((a.toNat - 0xC0) * 64 + x) 2 := by
  obtain ⟨hplain, hlead, hpayload⟩ := bits_of_lead_two a ha
  rw [Scalar.ofBytes, if_neg hplain, if_pos (beq_iff_eq.mpr hlead), hpayload]
  simp only [List.take_succ_cons, List.take_zero, List.map_cons, List.map_nil, hb]
  exact ⟨rfl, rfl⟩

/-- A lead and its two continuations are read as one scalar. -/
theorem Scalar.ofBytes_three (ha : 0xE0 ≤ a.toNat ∧ a.toNat ≤ 0xEF) (hb : payload? b = some x)
    (hc : payload? c = some y) (rest : Bytes) :
    (Scalar.ofBytes a (b :: c :: rest)).Is (((a.toNat - 0xE0) * 64 + x) * 64 + y) 3 := by
  obtain ⟨hplain, htwo, hlead, hpayload⟩ := bits_of_lead_three a ha
  rw [Scalar.ofBytes, if_neg hplain, if_neg (by simpa using htwo), if_pos (beq_iff_eq.mpr hlead),
    hpayload]
  simp only [List.take_succ_cons, List.take_zero, List.map_cons, List.map_nil, hb, hc]
  exact ⟨rfl, rfl⟩

/-- A lead and its three continuations are read as one scalar. -/
theorem Scalar.ofBytes_four (ha : 0xF0 ≤ a.toNat ∧ a.toNat ≤ 0xF7) (hb : payload? b = some x)
    (hc : payload? c = some y) (hd : payload? d = some z) (rest : Bytes) :
    (Scalar.ofBytes a (b :: c :: d :: rest)).Is
      ((((a.toNat - 0xF0) * 64 + x) * 64 + y) * 64 + z) 4 := by
  obtain ⟨hplain, htwo, hthree, hlead, hpayload⟩ := bits_of_lead_four a ha
  rw [Scalar.ofBytes, if_neg hplain, if_neg (by simpa using htwo), if_neg (by simpa using hthree),
    if_pos (beq_iff_eq.mpr hlead), hpayload]
  simp only [List.take_succ_cons, List.take_zero, List.map_cons, List.map_nil, hb, hc, hd]
  exact ⟨rfl, rfl⟩

end

/-- The continuation for six bits carries them. -/
theorem payload?_ofNat (n : Nat) : payload? (UInt8.ofNat (n % 64 + 128)) = some (n % 64) := by
  rw [payload?_of_isContinuation _ (isContinuation_ofNat n),
    UInt8.toNat_ofNat_of_lt' (by simp [UInt8.size]; omega), Nat.add_sub_cancel]

/-- **The lenient reading takes the encoding of a character for it.** It has one to four bytes by
the size of the character, and the payloads of these are put together again. -/
theorem exists_ofBytes_utf8EncodeChar (ch : Char) :
    ∃ b t, String.utf8EncodeChar ch = b :: t ∧
      ∀ rest, (Scalar.ofBytes b (t ++ rest)).Is ch.toNat (t.length + 1) := by
  have hvalid : ch.val.toNat < 0xD800 ∨ 0xDFFF < ch.val.toNat ∧ ch.val.toNat < 0x110000 := ch.valid
  have hlead : ∀ n < 256, (UInt8.ofNat n).toNat = n := fun n hn => UInt8.toNat_ofNat_of_lt' hn
  have hof : ∀ {x : Scalar} {v w : Nat}, x.Is v w → v = ch.val.toNat → x.Is ch.toNat w :=
    fun hx hv => ⟨hx.value.trans hv, hx.width⟩
  unfold String.utf8EncodeChar
  generalize ch.val.toNat = v at hvalid hof
  dsimp only
  split
  · refine ⟨_, [], rfl, fun rest => hof (Scalar.ofBytes_one ?_ rest) (hlead v (by omega))⟩
    rw [hlead v (by omega)]
    omega
  split
  · refine ⟨_, [_], rfl, fun rest => hof (Scalar.ofBytes_two ?_ (payload?_ofNat v) rest) ?_⟩ <;>
    · rw [hlead _ (by omega)]
      omega
  split
  · refine ⟨_, [_, _], rfl, fun rest => hof
      (Scalar.ofBytes_three ?_ (payload?_ofNat (v / 64)) (payload?_ofNat v) rest) ?_⟩ <;>
    · rw [hlead _ (by omega)]
      omega
  · refine ⟨_, [_, _, _], rfl, fun rest => hof (Scalar.ofBytes_four ?_ (payload?_ofNat (v / 4096))
      (payload?_ofNat (v / 64)) (payload?_ofNat v) rest) ?_⟩ <;>
    · rw [hlead _ (by omega)]
      omega

end Utf8

/-- The columns of characters one behind the other. -/
def displayWidth : List Char → Nat
  | [] => 0
  | ch :: cs => columnsOf ch.toNat + displayWidth cs

/-- **The columns of a text are those of its characters**, whatever stands behind it. -/
theorem columns_flatMap (cs : List Char) (rest : Bytes) :
    columns (cs.flatMap String.utf8EncodeChar).length (cs.flatMap String.utf8EncodeChar ++ rest)
      = displayWidth cs := by
  induction cs with
  | nil => cases rest <;> simp [columns, displayWidth]
  | cons ch cs ih =>
    obtain ⟨b, t, hch, hread⟩ := exists_ofBytes_utf8EncodeChar ch
    have hscalar := hread (cs.flatMap String.utf8EncodeChar ++ rest)
    have hbudget : (b :: t ++ cs.flatMap String.utf8EncodeChar).length
        = t.length + 1 + (cs.flatMap String.utf8EncodeChar).length := List.length_append
    rw [List.flatMap_cons, hch, hbudget, List.append_assoc, List.cons_append, columns]
    dsimp only
    rw [if_neg (by omega), hscalar.value, hscalar.width, Nat.add_sub_cancel,
      Nat.add_sub_cancel_left, List.drop_left, ih]
    rfl

/-! ## Lines -/

namespace Bytes

variable {sep : UInt8} {front part : Bytes}

/-- The text is empty or ends with a separator. -/
def EndsLine (sep : UInt8) (s : Bytes) : Prop := s = [] ∨ ∃ t, s = t ++ [sep]

/-- Behind a separator the parts of a text are those of the rest. -/
theorem splitOn_append_separator (s t : Bytes) :
    (splitOn sep (s ++ sep :: t)).drop (s.count sep + 1) = splitOn sep t := by
  induction s with
  | nil =>
    rw [List.nil_append, splitOn_cons_self]
    rfl
  | cons b s ih =>
    by_cases hb : b = sep
    · rw [List.cons_append, hb, splitOn_cons_self, List.count_cons_self, List.drop_succ_cons, ih]
    · obtain ⟨p, ps, hs⟩ := List.exists_cons_of_ne_nil (splitOn_ne_nil sep (s ++ sep :: t))
      rw [hs, List.drop_succ_cons] at ih
      rw [List.cons_append, splitOn_cons_of_ne hb hs, List.count_cons_of_ne hb,
        List.drop_succ_cons, ih]

/-- The first part of a text reaches up to the first separator. -/
theorem exists_head_splitOn (h : sep ∉ part) (rest : Bytes) :
    ∃ tail parts, splitOn sep (part ++ rest) = (part ++ tail) :: parts ∧ tail <+: rest ∧
      sep ∉ tail := by
  by_cases hrest : sep ∈ rest
  · obtain ⟨tail, more, rfl, htail⟩ := List.eq_append_cons_of_mem hrest
    refine ⟨tail, splitOn sep more, ?_, List.prefix_append _ _, htail⟩
    rw [← List.append_assoc, splitOn_append_cons (by simp [h, htail])]
  · exact ⟨rest, [], splitOn_of_not_mem (by simp [h, hrest]), List.prefix_rfl, hrest⟩

/-- The line that is cut is found by the number of separators before the cut. -/
theorem exists_getD_splitOn (hfront : EndsLine sep front) (h : sep ∉ part) (rest : Bytes) :
    ∃ tail, (splitOn sep (front ++ part ++ rest)).getD ((front ++ part).count sep) []
      = part ++ tail ∧ tail <+: rest ∧ sep ∉ tail := by
  obtain ⟨tail, parts, hsplit, htail⟩ := exists_head_splitOn h rest
  refine ⟨tail, ?_, htail⟩
  rw [List.count_append, List.count_eq_zero.mpr h, Nat.add_zero]
  rcases hfront with rfl | ⟨front, rfl⟩
  · rw [List.nil_append, hsplit]
    rfl
  · have hdrop : (splitOn sep (front ++ sep :: (part ++ rest))).drop (front.count sep + 1) = _ :=
      splitOn_append_separator front (part ++ rest)
    rw [List.append_assoc, List.append_assoc, List.singleton_append, List.count_append,
      List.count_singleton_self, ← Nat.add_zero (List.count sep front + 1),
      List.getD_eq_getElem?_getD, ← List.getElem?_drop, hdrop, hsplit]
    rfl

/-- What stands behind the last separator, or all of the text. -/
theorem exists_lastLine (sep : UInt8) (s : Bytes) :
    ∃ front, s = front ++ (s.reverse.takeWhile (· != sep)).reverse ∧ EndsLine sep front ∧
      sep ∉ (s.reverse.takeWhile (· != sep)).reverse := by
  refine ⟨(s.reverse.dropWhile (· != sep)).reverse, ?_, ?_, ?_⟩
  · rw [← List.reverse_append, List.takeWhile_append_dropWhile, List.reverse_reverse]
  · cases h : s.reverse.dropWhile (· != sep) with
    | nil => exact .inl rfl
    | cons b t =>
      have hb := List.head?_dropWhile_not (· != sep) s.reverse
      rw [h] at hb
      have hb : b = sep := by simpa using hb
      exact .inr ⟨t.reverse, by rw [hb, List.reverse_cons]⟩
  · intro hmem
    have := List.mem_takeWhile_imp (List.mem_reverse.mp hmem)
    simp at this

end Bytes

/-! ## Places -/

/-- These characters stand between the last line feed before the offset, or the start of the text,
and the offset. -/
def LineFront (content : Bytes) (offset : Nat) (cs : List Char) : Prop :=
  ∃ front, content.take offset = front ++ cs.flatMap String.utf8EncodeChar ∧
    Bytes.EndsLine Byte.lineFeed front ∧ Byte.lineFeed ∉ cs.flatMap String.utf8EncodeChar

/-- Behind the end of a line, the rest of a text is a text. -/
theorem Utf8.Text.of_endsLine {front part : Bytes} (hfront : Bytes.EndsLine Byte.lineFeed front)
    (h : Text (front ++ part)) : Text part := by
  rcases hfront with rfl | ⟨front, rfl⟩
  · exact h
  · rw [List.append_assoc, List.singleton_append] at h
    exact (h.of_append_cons (by decide)).2

namespace SourceFile

variable {f : SourceFile} {offset : Nat}

/-- Before an offset between two characters stand characters. -/
theorem exists_lineFront (h : Text (f.content.take offset)) :
    ∃ cs, LineFront f.content offset cs ∧
      f.lineBefore offset = cs.flatMap String.utf8EncodeChar := by
  obtain ⟨front, hcontent, hfront, hpart⟩ := Bytes.exists_lastLine Byte.lineFeed
    (f.content.take offset)
  obtain ⟨cs, hcs⟩ := (encoded_iff_text _).mpr (Text.of_endsLine hfront (hcontent ▸ h))
  exact ⟨cs, ⟨front, hcs ▸ hcontent, hfront, hcs ▸ hpart⟩, hcs⟩

/-- A span that starts behind these characters of a line is shown there: its place, the line with
the span underlined, and the lines around it agree on the number of the line and on the columns
before the span. -/
structure Marks (f : SourceFile) (span : Span) (line : Nat) (cs : List Char) : Prop where
  place : f.lineColumn span.lo = ⟨line, displayWidth cs + 1⟩
  snippet : (f.snippet span).line = line ∧ (f.snippet span).column = displayWidth cs + 1 ∧
    (f.snippet span).before = displayWidth cs
  text : ∃ tail, (f.snippet span).text = cs.flatMap String.utf8EncodeChar ++ tail ∧
    tail <+: f.content.drop span.lo ∧ Byte.lineFeed ∉ tail
  block : ∀ context : UInt32,
    (f.block span context).firstLine + (f.block span context).caret = line ∧
      (f.block span context).column = displayWidth cs + 1 ∧
      (f.block span context).before = displayWidth cs

variable {span : Span} {cs : List Char}

/-- The column of a place is one more than the width of the characters before it on the line. -/
theorem lineColumn_eq (hcs : f.lineBefore offset = cs.flatMap String.utf8EncodeChar) :
    f.lineColumn offset = ⟨f.lineIndex offset + 1, displayWidth cs + 1⟩ := by
  have hcolumns := columns_flatMap cs []
  rw [List.append_nil] at hcolumns
  rw [lineColumn, hcs, hcolumns]

/-- The line of an offset starts with the characters before the offset. -/
theorem exists_line_eq (h : LineFront f.content offset cs) :
    ∃ tail, f.lines.getD (f.lineIndex offset) [] = cs.flatMap String.utf8EncodeChar ++ tail ∧
      tail <+: f.content.drop offset ∧ Byte.lineFeed ∉ tail := by
  obtain ⟨front, hcontent, hfront, hpart⟩ := h
  have hline := Bytes.exists_getD_splitOn hfront hpart (f.content.drop offset)
  rwa [← hcontent, List.take_append_drop] at hline

/-- **At an offset between two characters the columns agree**: those before the underlining are the
ones that the place of the offset counts. -/
theorem exists_marks (hlo : span.lo ≤ f.content.length) (h : Text (f.content.take span.lo)) :
    ∃ cs, LineFront f.content span.lo cs ∧ f.Marks span (f.lineIndex span.lo + 1) cs := by
  obtain ⟨cs, hcs, hbefore⟩ := exists_lineFront h
  obtain ⟨tail, hline, htail⟩ := exists_line_eq hcs
  have hplace := lineColumn_eq hbefore
  obtain ⟨hnumber, hcolumn, hcaret, htext⟩ :
      (f.snippet span).line = f.lineIndex span.lo + 1 ∧
        (f.snippet span).column = displayWidth cs + 1 ∧
        (f.snippet span).before = displayWidth cs ∧
        (f.snippet span).text = cs.flatMap String.utf8EncodeChar ++ tail := by
    unfold snippet
    dsimp only
    rw [Nat.min_eq_left hlo, hplace, hline, hbefore, columns_flatMap]
    exact ⟨rfl, rfl, rfl, rfl⟩
  refine ⟨cs, hcs, hplace, ⟨hnumber, hcolumn, hcaret⟩, ⟨tail, htext, htail⟩, fun context => ?_⟩
  unfold block
  dsimp only
  rw [hnumber, hcolumn, hcaret]
  exact ⟨by omega, rfl, rfl⟩

end SourceFile

end SignatureLedger
