import SignatureLedger.Text.Utf8
import Mathlib.Data.List.Basic

/-!
# Characters of a text

The strict reading takes exactly the sequences of well-formed characters (`isValid_iff`). A byte of
ASCII is a character of its own and never a part of a longer one, so a text that is cut beside such
a byte is cut between characters (`Text.of_append_cons`).
-/

namespace SignatureLedger.Utf8

open Byte

/-! ## Well-formed characters -/

/-- The well-formed byte sequences of one character, by their length and the range of the second
byte. -/
inductive Character : Bytes → Prop
  | ascii {a : UInt8} (ha : a < 0x80) : Character [a]
  | two {a b : UInt8} (ha : 0xC2 ≤ a ∧ a ≤ 0xDF) (hb : isContinuation b = true) : Character [a, b]
  | three {a b c : UInt8} (ha : 0xE1 ≤ a ∧ a ≤ 0xEF ∧ a ≠ 0xED) (hb : isContinuation b = true)
      (hc : isContinuation c = true) : Character [a, b, c]
  | threeLow {b c : UInt8} (hb : 0xA0 ≤ b ∧ b ≤ 0xBF) (hc : isContinuation c = true) :
      Character [0xE0, b, c]
  | threeMid {b c : UInt8} (hb : 0x80 ≤ b ∧ b ≤ 0x9F) (hc : isContinuation c = true) :
      Character [0xED, b, c]
  | four {a b c d : UInt8} (ha : 0xF1 ≤ a ∧ a ≤ 0xF3) (hb : isContinuation b = true)
      (hc : isContinuation c = true) (hd : isContinuation d = true) : Character [a, b, c, d]
  | fourLow {b c d : UInt8} (hb : 0x90 ≤ b ∧ b ≤ 0xBF) (hc : isContinuation c = true)
      (hd : isContinuation d = true) : Character [0xF0, b, c, d]
  | fourHigh {b c d : UInt8} (hb : 0x80 ≤ b ∧ b ≤ 0x8F) (hc : isContinuation c = true)
      (hd : isContinuation d = true) : Character [0xF4, b, c, d]

/-- A sequence of well-formed characters. -/
inductive Text : Bytes → Prop
  | nil : Text []
  | cons {c s : Bytes} (hc : Character c) (hs : Text s) : Text (c ++ s)

namespace Character

variable {c t : Bytes}

/-- A character has at least one byte. -/
theorem ne_nil (hc : Character c) : c ≠ [] := by
  cases hc <;> simp

/-- A character is a byte of ASCII or has no such byte in it. -/
theorem plain_or_high (hc : Character c) :
    (∃ a, isHigh a = false ∧ c = [a]) ∨ ∀ b ∈ c, isHigh b = true := by
  cases hc with
  | @ascii a ha => exact .inl ⟨a, by simpa [isHigh] using ha, rfl⟩
  | _ =>
    right
    simp only [isContinuation, isHigh, List.mem_cons, List.not_mem_nil, or_false] at *
    grind

/-- A character is read off the front of a text. There is one case for each kind of character, told
by its lead byte. -/
theorem validWidth?_append (hc : Character c) (t : Bytes) :
    validWidth? (c ++ t) = some c.length := by
  cases hc with
  | ascii ha => simp [validWidth?, ha]
  | two ha hb =>
    have h : lead? _ = some ⟨2, 0x80, 0xBF, by decide⟩ := if_pos (by simpa using ha)
    simp_all [validWidth?, Lead.keptBy, isContinuation]
    grind
  | @three a _ _ ha hb hc =>
    have h : lead? a = some ⟨3, 0x80, 0xBF, by decide⟩ := by
      unfold lead?
      rw [if_neg (by grind), if_neg (by grind), if_neg (by grind), if_pos (by grind)]
    simp_all [validWidth?, Lead.keptBy, isContinuation]
    grind
  | threeLow hb hc => simp_all [validWidth?, lead?, Lead.keptBy, isContinuation]
  | threeMid hb hc => simp_all [validWidth?, lead?, Lead.keptBy, isContinuation]
  | @four a _ _ _ ha hb hc hd =>
    have h : lead? a = some ⟨4, 0x80, 0xBF, by decide⟩ := by
      unfold lead?
      rw [if_neg (by grind), if_neg (by grind), if_neg (by grind), if_neg (by grind),
        if_neg (by grind), if_neg (by grind), if_pos (by grind)]
    simp_all [validWidth?, Lead.keptBy, isContinuation]
    grind
  | fourLow hb hc hd => simp_all [validWidth?, lead?, Lead.keptBy, isContinuation]
  | fourHigh hb hc hd => simp_all [validWidth?, lead?, Lead.keptBy, isContinuation]

/-- The bytes behind the first one continue the character, and the first one continues none. -/
theorem exists_cons (hc : Character c) :
    ∃ a t, c = a :: t ∧ isContinuation a = false ∧ ∀ b ∈ t, isContinuation b = true := by
  cases hc <;> refine ⟨_, _, rfl, ?_, ?_⟩ <;>
    simp only [isContinuation, List.mem_cons, List.not_mem_nil, or_false] at * <;> grind

/-- Only one character stands at the front of a text. -/
theorem append_inj {d u : Bytes} (hc : Character c) (hd : Character d) (h : c ++ t = d ++ u) :
    c = d ∧ t = u := by
  have hlen : c.length = d.length :=
    Option.some.inj ((hc.validWidth?_append t).symm.trans (h ▸ hd.validWidth?_append u))
  exact List.append_inj h hlen

end Character

/-- What keeps the promise of a lead byte. -/
theorem Lead.of_keptBy {l : Lead} {rest : Bytes} (h : l.keptBy rest = true) :
    ∃ b cs t, rest = b :: (cs ++ t) ∧ (l.low ≤ b ∧ b ≤ l.high) ∧ cs.length = l.width - 2 ∧
      ∀ c ∈ cs, isContinuation c = true := by
  cases rest with
  | nil => exact absurd h (by simp [keptBy])
  | cons b tail =>
    simp only [keptBy, Bool.and_eq_true, decide_eq_true_eq, beq_iff_eq, List.all_eq_true] at h
    obtain ⟨⟨hrange, hlen⟩, hcont⟩ := h
    exact ⟨b, tail.take (l.width - 2), tail.drop (l.width - 2), by rw [List.take_append_drop],
      hrange, hlen, hcont⟩

/-- A lead byte with what it promises is a character. There is one case for each range of lead
bytes, with the range that it leaves to the second byte. -/
theorem character_of_lead? {a b : UInt8} {cs : Bytes} {l : Lead} (hl : lead? a = some l)
    (hb : l.low ≤ b ∧ b ≤ l.high) (hlen : cs.length = l.width - 2)
    (hcs : ∀ c ∈ cs, isContinuation c = true) : Character (a :: b :: cs) := by
  unfold lead? at hl
  split at hl
  · cases hl
    obtain rfl := List.length_eq_zero_iff.mp hlen
    exact .two (by grind) (by grind [isContinuation])
  split at hl
  · cases hl
    obtain ⟨c, rfl⟩ := List.length_eq_one_iff.mp hlen
    grind [Character.threeLow]
  split at hl
  · cases hl
    obtain ⟨c, rfl⟩ := List.length_eq_one_iff.mp hlen
    grind [Character.threeMid]
  split at hl
  · cases hl
    obtain ⟨c, rfl⟩ := List.length_eq_one_iff.mp hlen
    exact .three (by grind) (by grind [isContinuation]) (hcs c List.mem_cons_self)
  split at hl
  · cases hl
    obtain ⟨c, d, rfl⟩ := List.length_eq_two.mp hlen
    grind [Character.fourLow]
  split at hl
  · cases hl
    obtain ⟨c, d, rfl⟩ := List.length_eq_two.mp hlen
    grind [Character.fourHigh]
  split at hl
  · cases hl
    obtain ⟨c, d, rfl⟩ := List.length_eq_two.mp hlen
    exact .four (by grind) (by grind [isContinuation]) (hcs c (by simp)) (hcs d (by simp))
  · exact absurd hl (by simp)

/-- Where a width is valid, a character of that width stands in front. -/
theorem exists_character {s : Bytes} {w : Nat} (h : validWidth? s = some w) :
    ∃ c t, s = c ++ t ∧ Character c ∧ c.length = w := by
  cases s with
  | nil => exact absurd h (by simp [validWidth?])
  | cons a rest =>
    rw [validWidth?] at h
    split at h
    · rename_i ha
      exact ⟨[a], rest, rfl, .ascii ha, Option.some.inj h⟩
    split at h
    · rename_i l hl
      obtain ⟨hkept, hw⟩ := Option.ite_none_right_eq_some.mp h
      obtain ⟨b, cs, t, rfl, hb, hlen, hcs⟩ := Lead.of_keptBy hkept
      refine ⟨a :: b :: cs, t, rfl, character_of_lead? hl hb hlen hcs, ?_⟩
      have := l.two_le
      have := Option.some.inj hw
      rw [List.length_cons, List.length_cons]
      omega
    · exact absurd h (by simp)

/-! ## Texts -/

/-- What is read of a text are its characters up to the first place where none stands. -/
theorem exists_text_validPrefix (s : Bytes) :
    ∃ u v, s = u ++ v ∧ Text u ∧ u.length = validPrefix s := by
  fun_induction validPrefix s with
  | case1 s => exact ⟨[], s, rfl, .nil, rfl⟩
  | case2 s w hw ih =>
    obtain ⟨c, t, rfl, hc, rfl⟩ := exists_character hw
    rw [List.drop_left] at ih ⊢
    obtain ⟨u, v, rfl, hu, hlen⟩ := ih
    exact ⟨c ++ u, v, by rw [List.append_assoc], .cons hc hu, by rw [List.length_append, hlen]⟩

namespace Text

variable {u v : Bytes}

/-- All of a text is valid. -/
theorem validPrefix_eq {s : Bytes} (hs : Text s) : validPrefix s = s.length := by
  induction hs with
  | nil => rw [validPrefix]; rfl
  | @cons c s hc _ ih =>
    rw [validPrefix]
    split
    · rename_i h
      rw [hc.validWidth?_append] at h
      exact absurd h (by simp)
    · rename_i w h
      rw [hc.validWidth?_append] at h
      obtain rfl := Option.some.inj h
      rw [List.drop_left, ih, List.length_append]

/-- One character is a text. -/
theorem of_character {c : Bytes} (hc : Character c) : Text c := List.append_nil c ▸ .cons hc .nil

/-- One plain byte is a text. -/
theorem of_plain {b : UInt8} (hb : isHigh b = false) : Text [b] :=
  of_character (.ascii (by simpa [isHigh] using hb))

/-- Two texts put together are a text. -/
theorem append (hu : Text u) (hv : Text v) : Text (u ++ v) := by
  induction hu with
  | nil => exact hv
  | cons hc _ ih =>
    rw [List.append_assoc]
    exact .cons hc ih

/-- Behind whole characters come whole characters. -/
theorem of_append (hu : Text u) (h : Text (u ++ v)) : Text v := by
  induction hu with
  | nil => exact h
  | @cons c u hc _ ih =>
    rw [List.append_assoc] at h
    generalize hs : c ++ (u ++ v) = s at h
    cases h with
    | nil => exact absurd (List.append_eq_nil_iff.mp hs).1 hc.ne_nil
    | cons hd ht =>
      obtain ⟨-, rfl⟩ := hc.append_inj hd hs
      exact ih ht

/-- No text starts inside a character. -/
theorem isContinuation_eq_false {b : UInt8} (h : Text (b :: v)) : isContinuation b = false := by
  generalize hs : b :: v = s at h
  cases h with
  | nil => exact absurd hs (by simp)
  | cons hc _ =>
    obtain ⟨a, _, rfl, hlead, -⟩ := hc.exists_cons
    rwa [(List.cons.inj hs).1]

/-- Before whole characters come whole characters. -/
theorem of_append_text (h : Text (u ++ v)) (hv : Text v) : Text u := by
  generalize hs : u ++ v = s at h
  induction h generalizing u with
  | nil => exact (List.append_eq_nil_iff.mp hs).1 ▸ .nil
  | @cons c t hc ht ih =>
    rcases List.append_eq_append_iff.mp hs with ⟨w, rfl, hw⟩ | ⟨w, rfl, rfl⟩
    · match u, w with
      | [], _ => exact .nil
      | a :: u, [] => exact of_character (List.append_nil (a :: u) ▸ hc)
      | a :: u, b :: w =>
        -- a character that reaches over the end of `u` goes on where another one starts
        obtain ⟨_, _, heq, -, htail⟩ := hc.exists_cons
        have hb : isContinuation b = true := htail b (by simp [← (List.cons.inj heq).2])
        rw [hw, List.cons_append] at hv
        exact absurd (hv.isContinuation_eq_false.symm.trans hb) (by simp)
    · exact .cons hc (ih rfl)

/-- **A byte of ASCII is a character of its own.** What is before it and what is behind it are
whole characters. -/
theorem of_append_cons {b : UInt8} (hb : isHigh b = false) (h : Text (u ++ b :: v)) :
    Text u ∧ Text v := by
  generalize hs : u ++ b :: v = s at h
  induction h generalizing u with
  | nil => exact absurd hs (by simp)
  | @cons c t hc ht ih =>
    rcases List.append_eq_append_iff.mp hs with ⟨w, rfl, hw⟩ | ⟨w, rfl, rfl⟩
    · -- the character ends with `u` or takes in the byte behind it
      cases w with
      | nil =>
        rw [List.append_nil] at hc
        exact ⟨of_character hc, (ih (u := []) hw).2⟩
      | cons d w =>
        obtain ⟨rfl, rfl⟩ := List.cons.inj hw
        rcases hc.plain_or_high with ⟨a, -, hsingle⟩ | hhigh
        · rcases List.append_eq_singleton_iff.mp hsingle with ⟨rfl, hw⟩ | ⟨-, hw⟩
          · obtain rfl := (List.cons.inj hw).2
            exact ⟨.nil, ht⟩
          · exact absurd hw (by simp)
        · rw [hhigh b (by simp)] at hb
          exact absurd hb (by simp)
    · obtain ⟨hw, hv⟩ := ih rfl
      exact ⟨.cons hc hw, hv⟩

end Text

/-- **The strict reading takes the sequences of characters.** -/
theorem isValid_iff (s : Bytes) : isValid s = true ↔ Text s := by
  obtain ⟨u, v, rfl, hu, hlen⟩ := exists_text_validPrefix s
  rw [isValid, Option.isNone_iff_eq_none, firstInvalid?, ite_eq_right_iff, ← hlen,
    List.length_append]
  constructor
  · intro h
    cases v with
    | nil => rwa [List.append_nil]
    | cons b v => exact absurd (h (by simp)) (by simp)
  · intro h hlt
    have := h.validPrefix_eq
    rw [← hlen, List.length_append] at this
    omega

/-! ## Cuts -/

/-- A place in a text, behind so many bytes, that is between two characters whatever the text is: it
is the end, or a byte of ASCII is next to it. -/
inductive CutsAt (s : Bytes) : Nat → Prop
  | atEnd {k : Nat} (h : s.length ≤ k) : CutsAt s k
  | before {k : Nat} {b : UInt8} (h : s[k]? = some b) (hb : isHigh b = false) : CutsAt s k
  | behind {k : Nat} {b : UInt8} (h : s[k]? = some b) (hb : isHigh b = false) : CutsAt s (k + 1)

namespace CutsAt

variable {s : Bytes} {b : UInt8} {i k : Nat}

/-- A cut of a text is one behind a further byte, too. -/
theorem cons (b : UInt8) (h : CutsAt s k) : CutsAt (b :: s) (k + 1) := by
  cases h with
  | atEnd h => exact .atEnd (Nat.succ_le_succ h)
  | before h hb => exact .before h hb
  | behind h hb => exact .behind h hb

/-- A cut of the rest is one of the whole. -/
theorem of_drop (h : CutsAt (s.drop i) k) : CutsAt s (i + k) := by
  cases h with
  | atEnd h =>
    rw [List.length_drop] at h
    exact .atEnd (by omega)
  | before h hb => exact .before (List.getElem?_drop.symm.trans h) hb
  | behind h hb => exact .behind (List.getElem?_drop.symm.trans h) hb

/-- Behind bytes of ASCII a text may be cut. -/
theorem of_plain (hk : k < s.length) (h : ∀ b ∈ s.take (k + 1), isHigh b = false) :
    CutsAt s (k + 1) := by
  have hget : s[k]? = some s[k] := List.getElem?_eq_getElem hk
  exact .behind hget (h _ (List.mem_take_iff_getElem.mpr ⟨k, by omega, rfl⟩))

/-- Both sides of the cut are whole characters. -/
theorem text (h : CutsAt s k) (hs : Text s) : Text (s.take k) ∧ Text (s.drop k) := by
  cases h with
  | atEnd h =>
    rw [List.take_of_length_le h, List.drop_eq_nil_of_le h]
    exact ⟨hs, .nil⟩
  | @before k b h hb =>
    obtain ⟨hk, rfl⟩ := List.getElem?_eq_some_iff.mp h
    have hdrop : s.drop k = s[k] :: s.drop (k + 1) := List.drop_eq_getElem_cons hk
    have hsides := hs
    rw [← List.take_append_drop k s, hdrop] at hsides
    refine ⟨(hsides.of_append_cons hb).1, hdrop ▸ ?_⟩
    exact (Text.of_plain hb).append (hsides.of_append_cons hb).2
  | @behind k b h hb =>
    obtain ⟨hk, rfl⟩ := List.getElem?_eq_some_iff.mp h
    have hdrop : s.drop k = s[k] :: s.drop (k + 1) := List.drop_eq_getElem_cons hk
    have hsides := hs
    rw [← List.take_append_drop k s, hdrop] at hsides
    rw [List.take_succ_eq_append_getElem hk]
    exact ⟨(hsides.of_append_cons hb).1.append (.of_plain hb), (hsides.of_append_cons hb).2⟩

end CutsAt

end SignatureLedger.Utf8
