import SignatureLedger.Text.Comment
import Mathlib.Data.List.Infix

/-!
# Where comments start and end

The text of a comment is what stands before the first end of a comment (`commentWidth?_closed`,
`exists_of_commentWidth?`).
-/

namespace SignatureLedger

open Byte

/-- Two bytes stand at the front of a text. -/
theorem prefix_pair_iff {a c b : UInt8} {s : Bytes} :
    [a, c] <+: b :: s ↔ b = a ∧ s.head? = some c := by
  cases s with
  | nil => simp
  | cons d s =>
    rw [List.cons_prefix_cons, List.cons_prefix_cons, List.head?_cons, Option.some_inj]
    simp [eq_comm]

/-- A pair of bytes is not in two texts, if it is in neither and the second byte does not start the
second text. -/
theorem pair_infix_append_iff {a b : UInt8} {s t : Bytes} (ht : t.head? ≠ some b) :
    [a, b] <:+: s ++ t ↔ [a, b] <:+: s ∨ [a, b] <:+: t := by
  induction s with
  | nil => simp
  | cons c s ih =>
    have hpre : [a, b] <+: c :: (s ++ t) ↔ [a, b] <+: c :: s := by
      rw [prefix_pair_iff, prefix_pair_iff]
      cases s with
      | nil => simp [ht]
      | cons d s => rfl
    rw [List.cons_append, List.infix_cons_iff, List.infix_cons_iff, hpre, ih, or_assoc]

/-- Without its first byte a pair does not stand in a text. -/
theorem not_pair_infix_of_not_mem {a b : UInt8} {s : Bytes} (hs : a ∉ s) : ¬ [a, b] <:+: s :=
  fun h => hs (h.subset (by simp))

/-- A comment starts here. -/
def OpensComment (s : Bytes) : Prop := s.take 2 = [slash, slash] ∨ s.take 2 = [slash, star]

instance (s : Bytes) : Decidable (OpensComment s) := inferInstanceAs (Decidable (_ ∨ _))

/-- A comment opens with a slash and one of two bytes behind it. -/
theorem opensComment_cons {b : UInt8} {s : Bytes} :
    OpensComment (b :: s) ↔ b = slash ∧ (s.head? = some slash ∨ s.head? = some star) := by
  cases s with
  | nil => simp [OpensComment]
  | cons c s => simp [OpensComment, and_or_left]

/-- A text without the end of a comment is read up to the end that follows it. -/
theorem commentWidth?_closed {c : Bytes} (hc : ¬ [star, slash] <:+: c) (s : Bytes) :
    commentWidth? (c ++ star :: slash :: s) = some (c.length + 2) := by
  rw [commentWidth?, Option.map_eq_some_iff]
  refine ⟨c.length, ?_, rfl⟩
  induction c with
  | nil => rfl
  | cons b c ih =>
    rw [List.infix_cons_iff, not_or] at hc
    -- the end can not start in `c` and go on in the end behind it, which starts with a star
    have hpre : ¬ [star, slash] <+: b :: (c ++ star :: slash :: s) := by
      rw [prefix_pair_iff] at hc ⊢
      rintro ⟨hb, hhead⟩
      cases c with
      | nil => exact absurd (Option.some.inj hhead) (by decide)
      | cons d c => exact hc.1 ⟨hb, hhead⟩
    rw [List.cons_append, Bytes.indexOf?, if_neg (by rwa [List.isPrefixOf_iff_prefix]), ih hc.2]
    rfl

/-- What is read ends with the first end of a comment. -/
theorem exists_of_commentWidth? {s : Bytes} {w : Nat} (h : commentWidth? s = some w) :
    ∃ c t, s = c ++ star :: slash :: t ∧ w = c.length + 2 ∧ ¬ [star, slash] <:+: c := by
  obtain ⟨n, hn, rfl⟩ := Option.map_eq_some_iff.mp h
  clear h
  induction s generalizing n with
  | nil => exact absurd hn (by simp [Bytes.indexOf?])
  | cons b s ih =>
    rw [Bytes.indexOf?] at hn
    split at hn
    · rename_i hprefix
      obtain rfl := Option.some.inj hn
      obtain ⟨t, ht⟩ := List.isPrefixOf_iff_prefix.mp hprefix
      exact ⟨[], t, ht.symm, rfl, by simp⟩
    · rename_i hprefix
      obtain ⟨k, hk, rfl⟩ := Option.map_eq_some_iff.mp hn
      obtain ⟨c, t, rfl, hlen, hc⟩ := ih k hk
      refine ⟨b :: c, t, rfl, by rw [List.length_cons]; omega, ?_⟩
      rw [List.infix_cons_iff, not_or]
      refine ⟨fun hpre => hprefix (List.isPrefixOf_iff_prefix.mpr ?_), hc⟩
      exact hpre.trans (List.prefix_append (b :: c) _)

/-- Where no comment width is found, no end of a comment stands. -/
theorem not_infix_of_commentWidth? {s : Bytes} (h : commentWidth? s = none) :
    ¬ [star, slash] <:+: s := by
  have hn : Bytes.indexOf? [star, slash] s = none := by simpa [commentWidth?] using h
  clear h
  induction s with
  | nil => simp
  | cons b s ih =>
    rw [Bytes.indexOf?] at hn
    split at hn
    · exact absurd hn (by simp)
    · rename_i hprefix
      rw [List.infix_cons_iff, not_or]
      exact ⟨fun hpre => hprefix (List.isPrefixOf_iff_prefix.mpr hpre), ih (by simpa using hn)⟩

/-- Where no end of a comment stands, no width is found. -/
theorem commentWidth?_eq_none {s : Bytes} (h : ¬ [star, slash] <:+: s) :
    commentWidth? s = none := by
  cases hw : commentWidth? s with
  | none => rfl
  | some n =>
    obtain ⟨c, t, rfl, -, -⟩ := exists_of_commentWidth? hw
    exact absurd ⟨c, t, by simp⟩ h

end SignatureLedger
