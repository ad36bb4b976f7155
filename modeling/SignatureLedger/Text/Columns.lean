import SignatureLedger.Text.Utf8

/-!
# Display columns

How wide a text is on a terminal: wide characters take two columns, combining and control characters
none, a tab one, and every other character one.
-/

namespace SignatureLedger

/-- Both ends belong to the range. -/
def inRange (n lo hi : Nat) : Bool := lo ≤ n && n ≤ hi

/-- Characters without width: controls, combining marks, and the zero-width ones. -/
def isZeroWidth (c : Nat) : Bool :=
  c < 0x20 || inRange c 0x7F 0x9F || inRange c 0x0300 0x036F || inRange c 0x1AB0 0x1AFF
    || inRange c 0x1DC0 0x1DFF || inRange c 0x20D0 0x20FF || inRange c 0xFE20 0xFE2F || c == 0x200B
    || c == 0xFEFF

/-- East Asian wide and full-width characters, and pictographs. -/
def isWide (c : Nat) : Bool :=
  inRange c 0x1100 0x115F || inRange c 0x2E80 0xA4CF || inRange c 0xAC00 0xD7A3
    || inRange c 0xF900 0xFAFF || inRange c 0xFE30 0xFE6F || inRange c 0xFF00 0xFF60
    || inRange c 0xFFE0 0xFFE6 || inRange c 0x1F300 0x1FAFF

/-- The columns of one code point. -/
def columnsOf (c : Nat) : Nat :=
  if c = 0x09 then 1 else if isZeroWidth c then 0 else if isWide c then 2 else 1

/-- The columns of the characters that start in the first `budget` bytes of a text. -/
def columns (budget : Nat) (s : Bytes) : Nat :=
  match s with
  | [] => 0
  | b :: rest =>
    if budget = 0 then 0
    else
      let c := Utf8.Scalar.ofBytes b rest
      columnsOf c.value + columns (budget - c.width) (rest.drop (c.width - 1))
termination_by s.length
decreasing_by simp only [List.length_drop, List.length_cons]; omega

end SignatureLedger
