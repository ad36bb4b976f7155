import SignatureLedger.Proofs.Text.Bytes
import SignatureLedger.Proofs.Token.Widths

/-!
# What numbers are made of

A number is a digit or a dot and then letters, digits, separators, dots and signs
(`NumberLit.isText_more`).
-/

namespace SignatureLedger

open Byte

namespace NumberLit

/-- A byte that a number can have. -/
def isByte (b : UInt8) : Bool :=
  isAlphanumeric b || b == underscore || b == dot || b == plus || b == minus

/-- Every byte is one that a number can have. -/
def IsText (s : Bytes) : Prop := ∀ b ∈ s, isByte b = true

/-- The empty text has no byte that a number cannot have. -/
theorem IsText.nil : IsText [] := fun _ hb => absurd hb List.not_mem_nil

/-- A number byte in front. -/
theorem IsText.cons {b : UInt8} {s : Bytes} (hb : isByte b = true) (hs : IsText s) :
    IsText (b :: s) := by
  rintro c (_ | ⟨_, hc⟩)
  · exact hb
  · exact hs c hc

/-- Two such texts one behind the other. -/
theorem IsText.append {s t : Bytes} (hs : IsText s) (ht : IsText t) : IsText (s ++ t) :=
  fun b hb => (List.mem_append.mp hb).elim (hs b) (ht b)

/-- A run over number bytes is such a text. -/
theorem isText_take_run {p : UInt8 → Bool} (hp : ∀ b, p b = true → isByte b = true) (s : Bytes) :
    IsText (s.take (Bytes.run p s)) := by
  rw [Bytes.take_run]
  exact fun b hb => hp b (List.mem_takeWhile_imp hb)

/-- Digits are number bytes. -/
theorem isByte_of_isDigit {b : UInt8} (h : isDigit b = true) : isByte b = true := by
  grind [isByte, isAlphanumeric]

/-- So are hexadecimal digits. -/
theorem isByte_of_isHexDigit {b : UInt8} (h : isHexDigit b = true) : isByte b = true := by
  grind [isHexDigit, isByte, isAlphanumeric, isAlpha, isUpper, isLower]

/-- A run of digits is the text of a number. -/
theorem isText_digitRun (s : Bytes) : IsText (s.take (digitRun s)) := by
  refine isText_take_run (fun b hb => ?_) s
  rcases Bool.or_eq_true_iff.mp hb with hb | hb
  · exact isByte_of_isDigit hb
  · rw [eq_of_beq hb]
    decide

/-- So is the fraction of a number. -/
theorem isText_fractionWidth (s : Bytes) : IsText (s.take (fractionWidth s)) := by
  unfold fractionWidth
  split
  · rename_i h
    obtain ⟨t, rfl⟩ := List.head?_eq_some_iff.mp h
    rw [Nat.add_comm, List.take_succ_cons]
    exact .cons (by decide) (isText_digitRun t)
  · exact .nil

/-- So is its exponent. -/
theorem isText_exponentWidth (s : Bytes) : IsText (s.take (exponentWidth s)) := by
  unfold exponentWidth
  split
  · rename_i e rest
    split
    · rename_i he
      have hletter : isByte e = true := by rcases he with rfl | rfl <;> decide
      split
      · rename_i c tail
        split
        · rw [Nat.add_comm, List.take_succ_cons]
          exact .cons hletter (isText_digitRun _)
        split
        · rename_i hsign
          have hsign : isByte c = true := by rcases hsign.1 with rfl | rfl <;> decide
          rw [Nat.add_comm, List.take_succ_cons, List.take_succ_cons]
          exact .cons hletter (.cons hsign (isText_digitRun tail))
        · exact .nil
      · exact .nil
    · exact .nil
  · exact .nil

/-- So is its suffix. -/
theorem isText_suffixWidth (s : Bytes) : IsText (s.take (suffixWidth s)) := by
  unfold suffixWidth
  split
  · rename_i h
    obtain ⟨t, rfl⟩ := List.head?_eq_some_iff.mp h
    exact .cons (by decide) .nil
  · exact .nil

/-- A part of a number behind others. -/
theorem isText_take_add {f : Bytes → Nat} (hf : ∀ s : Bytes, IsText (s.take (f s))) {n : Nat}
    {s : Bytes} (hn : IsText (s.take n)) : IsText (s.take (n + f (s.drop n))) := by
  rw [List.take_add]
  exact hn.append (hf _)

/-- All that is taken of a number is its text. -/
theorem isText_more (first : UInt8) (rest : Bytes) : IsText (rest.take (more first rest)) := by
  unfold more
  split
  · rename_i hbase
    refine isText_take_add isText_suffixWidth ?_
    obtain ⟨letter, digits, rfl⟩ : ∃ b t, rest = b :: t :=
      List.exists_cons_of_ne_nil fun hnil => by simp [hnil] at hbase
    have hletter : isBaseLetter letter = true := by simpa using hbase.2
    rw [List.tail_cons, Nat.add_comm, List.take_succ_cons]
    refine .cons ?_ (isText_take_run (fun b hb => ?_) _)
    · grind [isBaseLetter, isByte, isAlphanumeric, isAlpha, isUpper, isLower]
    · rcases Bool.or_eq_true_iff.mp hb with hb | hb
      · exact isByte_of_isHexDigit hb
      · rw [eq_of_beq hb]
        decide
  · have hmantissa : IsText (rest.take (digitRun rest + (if first = dot then 0 else fractionWidth
        (rest.drop (digitRun rest))))) := by
      split
      · exact isText_digitRun rest
      · exact isText_take_add isText_fractionWidth (isText_digitRun rest)
    exact isText_take_add isText_suffixWidth (isText_take_add isText_exponentWidth hmantissa)

/-- **A number is made of bytes that a number can have.** -/
theorem isText_of_first {b : UInt8} {rest : Bytes}
    (h : (isDigit b || (b == dot && rest.head?.any isDigit)) = true) :
    IsText (b :: rest.take (more b rest)) := by
  refine .cons ?_ (isText_more b rest)
  rcases Bool.or_eq_true_iff.mp h with hb | hb
  · exact isByte_of_isDigit hb
  · rw [eq_of_beq (Bool.and_eq_true_iff.mp hb).1]
    decide

end NumberLit

end SignatureLedger
