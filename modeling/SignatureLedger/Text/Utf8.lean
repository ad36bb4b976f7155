import SignatureLedger.Text.Bytes

/-!
# UTF-8

Two readings of the same encoding. `validWidth?` is strict: it takes exactly the encodings of
Unicode scalar values, so there are no overlong forms, no surrogates and nothing above U+10FFFF.
`Scalar.ofBytes` is lenient and never fails: it is what column counting uses, also inside text that
is cut in the middle of a character.
-/

namespace SignatureLedger.Utf8

/-! ## The strict reading -/

/-- A byte that continues a character. -/
def isContinuation (b : UInt8) : Bool := 0x80 ≤ b && b ≤ 0xBF

/-- What a lead byte promises: the number of bytes in all, and the range of the second byte. -/
structure Lead where
  width : Nat
  low : UInt8
  high : UInt8
  two_le : 2 ≤ width

/-- The promise of a lead byte, for the leads that start a multi-byte character. -/
def lead? (b : UInt8) : Option Lead :=
  if 0xC2 ≤ b && b ≤ 0xDF then some ⟨2, 0x80, 0xBF, by decide⟩
  else if b == 0xE0 then some ⟨3, 0xA0, 0xBF, by decide⟩
  else if b == 0xED then some ⟨3, 0x80, 0x9F, by decide⟩
  else if 0xE1 ≤ b && b ≤ 0xEF then some ⟨3, 0x80, 0xBF, by decide⟩
  else if b == 0xF0 then some ⟨4, 0x90, 0xBF, by decide⟩
  else if b == 0xF4 then some ⟨4, 0x80, 0x8F, by decide⟩
  else if 0xF1 ≤ b && b ≤ 0xF3 then some ⟨4, 0x80, 0xBF, by decide⟩
  else none

/-- The bytes after a lead byte keep its promise. -/
def Lead.keptBy (l : Lead) : Bytes → Bool
  | [] => false
  | second :: tail =>
    l.low ≤ second && second ≤ l.high && (tail.take (l.width - 2)).length == l.width - 2
      && (tail.take (l.width - 2)).all isContinuation

/-- The width of the well-formed character at the front, if there is one. -/
def validWidth? : Bytes → Option Nat
  | [] => none
  | b :: rest =>
    if b < 0x80 then some 1
    else match lead? b with
      | some l => if l.keptBy rest then some l.width else none
      | none => none

/-- An encoding has at least one byte. -/
theorem validWidth?_pos {s : Bytes} {w : Nat} (h : validWidth? s = some w) : 0 < w := by
  cases s with
  | nil => simp [validWidth?] at h
  | cons b rest =>
    rw [validWidth?] at h
    split at h
    · simp at h; omega
    · cases hl : lead? b with
      | none => simp [hl] at h
      | some l =>
        have := l.two_le
        simp only [hl, Option.ite_none_right_eq_some, Option.some.injEq] at h
        omega

/-- Behind an encoding less is left. -/
theorem length_drop_validWidth?_lt {s : Bytes} {w : Nat} (h : validWidth? s = some w) :
    (s.drop w).length < s.length := by
  have hw := validWidth?_pos h
  cases s with
  | nil => simp [validWidth?] at h
  | cons b t => simp only [List.length_drop, List.length_cons]; omega

/-- The length of the longest prefix that is a sequence of well-formed characters. -/
def validPrefix (s : Bytes) : Nat :=
  match _hw : validWidth? s with
  | none => 0
  | some w => w + validPrefix (s.drop w)
termination_by s.length
decreasing_by exact length_drop_validWidth?_lt _hw

/-- The offset of the first byte that is not part of a well-formed character. -/
def firstInvalid? (s : Bytes) : Option Nat :=
  let n := validPrefix s
  if n < s.length then some n else none

/-- The whole string is a sequence of well-formed characters. -/
def isValid (s : Bytes) : Bool := (firstInvalid? s).isNone

/-! ## The lenient reading -/

/-- One step of the lenient reading: a code point and the number of bytes it took. -/
structure Scalar where
  value : Nat
  width : Nat
  width_pos : 0 < width := by decide

/-- What stands for a byte that starts no character. -/
def Scalar.replacement : Scalar := ⟨0xFFFD, 1, by decide⟩

/-- A byte of the form `10xxxxxx` and its six payload bits. -/
def payload? (b : UInt8) : Option Nat :=
  if b &&& 0xC0 == 0x80 then some (b &&& 0x3F).toNat else none

/-- Reads a code point from a non-empty text by the bit patterns alone: overlong forms and
surrogates are taken as they stand, and anything else gives the replacement character for one
byte. -/
def Scalar.ofBytes (b : UInt8) (rest : Bytes) : Scalar :=
  if b < 0x80 then ⟨b.toNat, 1, by decide⟩
  else if b &&& 0xE0 == 0xC0 then
    match (rest.take 1).map payload? with
    | [some x] => ⟨(b &&& 0x1F).toNat * 64 + x, 2, by decide⟩
    | _ => .replacement
  else if b &&& 0xF0 == 0xE0 then
    match (rest.take 2).map payload? with
    | [some x, some y] => ⟨((b &&& 0x0F).toNat * 64 + x) * 64 + y, 3, by decide⟩
    | _ => .replacement
  else if b &&& 0xF8 == 0xF0 then
    match (rest.take 3).map payload? with
    | [some x, some y, some z] =>
      ⟨(((b &&& 0x07).toNat * 64 + x) * 64 + y) * 64 + z, 4, by decide⟩
    | _ => .replacement
  else .replacement

end SignatureLedger.Utf8
