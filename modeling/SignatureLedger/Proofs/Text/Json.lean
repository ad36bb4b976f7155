import SignatureLedger.Proofs.Text.Bytes
import SignatureLedger.Text.Quoted

/-!
# Reading JSON

A decoder for JSON texts, after the grammar of RFC 8259, that works on bytes: between quotes a byte
that needs no escape stands for itself, whatever encoding it is part of. The second half says what
it reads in texts that are put together: quoted texts (`string?_escape`), decimal numbers
(`number?_signedDecimal`), and objects and arrays of what is read back (`reads_object`,
`reads_array`).
-/

namespace SignatureLedger

open Byte

/-- A JSON value. The number is `mantissa` times ten to the power `exponent`; the members of an
object stand in the order of the text, and no name is left out or put together with another one. -/
inductive Json where
  | null
  | bool (b : Bool)
  | number (mantissa exponent : Int)
  | string (s : Bytes)
  | array (items : List Json)
  | object (members : List (Bytes × Json))

namespace Json

/-! ## Blanks -/

/-- The blanks that may stand around tokens. -/
def isBlank (b : UInt8) : Bool := b == space || b == tab || b == lineFeed || b == carriageReturn

/-- The text behind its blanks. -/
def skipBlanks (s : Bytes) : Bytes := s.dropWhile isBlank

/-! ## Strings -/

/-- A part of a string: a byte that is known already, or a UTF-16 code unit by its number. -/
inductive Piece where
  | byte (b : UInt8)
  | unit (n : Nat)
deriving DecidableEq, Repr

/-- The byte that a backslash and the given byte stand for. -/
def shortEscape? (b : UInt8) : Option UInt8 :=
  if b = doubleQuote ∨ b = backslash ∨ b = slash then some b
  else if b = 0x62 then some 0x08
  else if b = 0x66 then some 0x0C
  else if b = 0x6E then some lineFeed
  else if b = 0x72 then some carriageReturn
  else if b = 0x74 then some tab
  else none

/-- The value of a hexadecimal digit of either case. -/
def hexValue? (b : UInt8) : Option Nat :=
  if isDigit b then some (b.toNat - 0x30)
  else if 0x61 ≤ b ∧ b ≤ 0x66 then some (b.toNat - 0x57)
  else if 0x41 ≤ b ∧ b ≤ 0x46 then some (b.toNat - 0x37)
  else none

/-- The number with four hexadecimal digits. -/
def codeUnit? (a b c d : UInt8) : Option Nat := do
  let a ← hexValue? a
  let b ← hexValue? b
  let c ← hexValue? c
  let d ← hexValue? d
  pure (((a * 16 + b) * 16 + c) * 16 + d)

/-- Puts a piece in front. -/
def withPiece (p : Piece) (x : Option (List Piece × Bytes)) : Option (List Piece × Bytes) :=
  x.map fun (ps, rest) => (p :: ps, rest)

/-- The pieces up to the closing quote, and what is behind it. A control byte, an unknown escape and
the end of the text are faults. -/
def pieces? : Bytes → Option (List Piece × Bytes)
  | [] => none
  | b :: s =>
    if b = doubleQuote then some ([], s)
    else if b < space then none
    else if b ≠ backslash then withPiece (.byte b) (pieces? s)
    else match s with
      | [] => none
      | c :: s =>
        match shortEscape? c with
        | some e => withPiece (.byte e) (pieces? s)
        | none =>
          if c ≠ 0x75 then none
          else match s with
            | w :: x :: y :: z :: s =>
              match codeUnit? w x y z with
              | some n => withPiece (.unit n) (pieces? s)
              | none => none
            | _ => none

/-- The unit is the first half of a pair. -/
def isHighSurrogate (n : Nat) : Bool := 0xD800 ≤ n && n ≤ 0xDBFF

/-- The unit is the second half of a pair. -/
def isLowSurrogate (n : Nat) : Bool := 0xDC00 ≤ n && n ≤ 0xDFFF

/-- The bytes of the pieces. Two surrogates are one code point, and one alone is a fault. -/
def text? : List Piece → Option Bytes
  | [] => some []
  | .byte b :: ps => (text? ps).map (b :: ·)
  | .unit n :: ps =>
    if isHighSurrogate n then
      match ps with
      | .unit m :: ps =>
        if isLowSurrogate m then
          let point := 0x10000 + (n - 0xD800) * 0x400 + (m - 0xDC00)
          (text? ps).map (String.utf8EncodeChar (Char.ofNat point) ++ ·)
        else none
      | _ => none
    else if isLowSurrogate n then none
    else (text? ps).map (String.utf8EncodeChar (Char.ofNat n) ++ ·)

/-- Reads a string behind its opening quote. -/
def string? (s : Bytes) : Option (Bytes × Bytes) := do
  let (ps, rest) ← pieces? s
  let t ← text? ps
  pure (t, rest)

/-! ## Numbers and words -/

/-- The digits behind a dot, of which there must be one; without a dot there are none. -/
def fraction? (s : Bytes) : Option (Bytes × Bytes) :=
  if s.head? = some dot then
    let digits := s.tail.takeWhile isDigit
    if digits.isEmpty then none else some (digits, s.tail.dropWhile isDigit)
  else some ([], s)

/-- The exponent with its letter, its sign and its digits; without a letter it is zero. -/
def exponent? (s : Bytes) : Option (Int × Bytes) :=
  if s.head? = some 0x65 ∨ s.head? = some 0x45 then
    let unsigned :=
      if s.tail.head? = some plus ∨ s.tail.head? = some minus then s.tail.tail else s.tail
    let digits := unsigned.takeWhile isDigit
    if digits.isEmpty then none
    else
      let n : Int := Bytes.digitsValue digits
      some (if s.tail.head? = some minus then -n else n, unsigned.dropWhile isDigit)
  else some (0, s)

/-- Reads a number without a sign: its mantissa and its exponent. The whole part has no zero in
front. -/
def unsigned? (s : Bytes) : Option ((Int × Int) × Bytes) :=
  let whole := s.takeWhile isDigit
  if whole.isEmpty || (whole.head? == some zero && 1 < whole.length) then none
  else match fraction? (s.dropWhile isDigit) with
    | none => none
    | some (fraction, s₁) =>
      match exponent? s₁ with
      | none => none
      | some (exponent, s₂) =>
        some ((Bytes.digitsValue (whole ++ fraction), exponent - fraction.length), s₂)

/-- A number at the front of the text, with its sign, and what follows it. -/
def number? (s : Bytes) : Option (Json × Bytes) :=
  if s.head? = some minus then (unsigned? s.tail).map fun ((m, e), rest) => (.number (-m) e, rest)
  else (unsigned? s).map fun ((m, e), rest) => (.number m e, rest)

/-- The values that are words. -/
def words : List (Bytes × Json) :=
  [(bytes "null", .null), (bytes "true", .bool true), (bytes "false", .bool false)]

/-- One of the words with a meaning, and what follows it. -/
def word? (s : Bytes) : Option (Json × Bytes) :=
  words.findSome? fun (w, v) => if w.isPrefixOf s then some (v, s.drop w.length) else none

/-! ## Lists, objects and values -/

/-- Reads one item and those behind it, with commas between them, up to the closing bracket. An item
has a byte of its own. -/
def items {α : Type} (item : Bytes → Option (α × Bytes)) (close : UInt8) (s : Bytes) :
    Option (List α × Bytes) :=
  match item s with
  | none => none
  | some (x, rest) =>
    match skipBlanks rest with
    | [] => none
    | b :: after =>
      if b = close then some ([x], after)
      else if _h : b = comma ∧ after.length < s.length then
        (items item close after).map fun (xs, rest) => (x :: xs, rest)
      else none
termination_by s.length
decreasing_by exact _h.2

/-- Reads a list behind its opening bracket. -/
def list {α : Type} (item : Bytes → Option (α × Bytes)) (close : UInt8) (s : Bytes) :
    Option (List α × Bytes) :=
  match skipBlanks s with
  | [] => none
  | b :: rest => if b = close then some ([], rest) else items item close s

/-- Reads the name and the value of a member. A colon stands between the two, and blanks may be
before each. -/
def member (value : Bytes → Option (Json × Bytes)) (s : Bytes) :
    Option ((Bytes × Json) × Bytes) :=
  match skipBlanks s with
  | [] => none
  | b :: rest =>
    if b ≠ doubleQuote then none
    else do
      let (name, s₁) ← string? rest
      match skipBlanks s₁ with
      | [] => none
      | c :: s₂ =>
        if c ≠ colon then none
        else
          let (v, s₃) ← value s₂
          pure ((name, v), s₃)

/-- Reads a value that has no more than `depth` levels, and the blanks before it. -/
def value : Nat → Bytes → Option (Json × Bytes)
  | 0, _ => none
  | depth + 1, s =>
    match skipBlanks s with
    | [] => none
    | b :: rest =>
      if b = doubleQuote then (string? rest).map fun (t, r) => (.string t, r)
      else if b = openBracket then
        (list (value depth) closeBracket rest).map fun (vs, r) => (.array vs, r)
      else if b = openBrace then
        (list (member (value depth)) closeBrace rest).map fun (ms, r) => (.object ms, r)
      else if isDigit b || b == minus then number? (b :: rest)
      else word? (b :: rest)

/-- Reads a text that is one value with blanks around it. Every level takes a byte of the text. -/
def parse (s : Bytes) : Option Json :=
  match value (s.length + 1) s with
  | some (v, rest) => if (skipBlanks rest).isEmpty then some v else none
  | none => none

/-! ## Reading what is put together -/

/-- What may stand behind a number: nothing that goes on with it. -/
def Follows (rest : Bytes) : Prop :=
  ∀ b ∈ rest.head?, isDigit b = false ∧ b ≠ dot ∧ b ≠ 0x65 ∧ b ≠ 0x45

/-- The bytes are blanks. -/
def Blanks (s : Bytes) : Prop := ∀ b ∈ s, isBlank b = true

/-- Behind any blanks, and whatever follows, the text is read as `x`. -/
def Reads {α : Type} (item : Bytes → Option (α × Bytes)) (text : Bytes) (x : α) : Prop :=
  ∀ lead rest, Blanks lead → Follows rest → item (lead ++ (text ++ rest)) = some (x, rest)

section

variable {lead tail rest s t : Bytes} {b : UInt8}

/-- Blanks in front are skipped. -/
theorem skipBlanks_append (h : Blanks lead) (s : Bytes) :
    skipBlanks (lead ++ s) = skipBlanks s := by
  rw [skipBlanks, List.dropWhile_append_of_pos h, skipBlanks]

/-- Where no blank stands, none is skipped. -/
theorem skipBlanks_cons (h : isBlank b = false) (s : Bytes) : skipBlanks (b :: s) = b :: s :=
  List.dropWhile_cons_of_neg (by simp [h])

theorem blanks_nil : Blanks [] := fun _ h => absurd h List.not_mem_nil

/-- Blanks and more blanks are blanks. -/
theorem Blanks.append (hs : Blanks s) (ht : Blanks t) : Blanks (s ++ t) :=
  List.forall_mem_append.mpr ⟨hs, ht⟩

theorem follows_nil : Follows [] := fun _ h => absurd h (by simp)

/-- A text follows a number if it starts with none of the bytes a number goes on with. -/
theorem follows_cons (h : isDigit b = false ∧ b ≠ dot ∧ b ≠ 0x65 ∧ b ≠ 0x45) :
    Follows (b :: s) := by
  intro c hc
  obtain rfl := Option.some.inj hc
  exact h

/-- Blanks may stand between a number and what follows it. -/
theorem Blanks.follows (h : Blanks tail) (hrest : Follows rest) : Follows (tail ++ rest) := by
  have hblank : ∀ b : UInt8, isBlank b = true → isDigit b = false ∧ b ≠ dot ∧ b ≠ 0x65 ∧ b ≠ 0x45 :=
    forall_byte (by decide +kernel)
  cases tail with
  | nil => exact hrest
  | cons b tail => exact follows_cons (hblank b (h b List.mem_cons_self))

/-- Blanks may stand before an item. -/
theorem Reads.indent {α : Type} {item : Bytes → Option (α × Bytes)} {x : α} (h : Reads item s x)
    (hlead : Blanks lead) : Reads item (lead ++ s) x := by
  intro front rest hfront hrest
  rw [List.append_assoc, ← List.append_assoc]
  exact h (front ++ lead) rest (hfront.append hlead) hrest

/-! ### Strings -/

/-- The piece as which a byte is written. -/
def pieceOf (b : UInt8) : Piece :=
  if b < space ∧ b ≠ lineFeed ∧ b ≠ carriageReturn ∧ b ≠ tab then .unit b.toNat else .byte b

/-- The digits that a control byte is escaped with give the byte. -/
theorem codeUnit?_control :
    ∀ b : UInt8, b < space →
      codeUnit? 0x30 0x30 (hexDigit (b / 16)) (hexDigit (b % 16)) = some b.toNat :=
  forall_byte (by decide +kernel)

/-- A written byte is read as one piece. There is one case for each way to write a byte: with a
short escape, as a code unit, or as it is. -/
theorem pieces?_escapeByte (b : UInt8) (s : Bytes) :
    pieces? (escapeByte b ++ s) = withPiece (pieceOf b) (pieces? s) := by
  have hescape : ∀ {c e : UInt8}, shortEscape? c = some e →
      pieces? (backslash :: c :: s) = withPiece (.byte e) (pieces? s) := by
    intro c e he
    rw [pieces?.eq_def]
    dsimp only
    rw [if_neg (by decide), if_neg (by decide), if_neg (by decide), he]
  unfold escapeByte
  split_ifs with hquote hfeed hreturn htab hcontrol
  · have hpiece : pieceOf b = .byte b := by rcases hquote with rfl | rfl <;> rfl
    rw [hpiece]
    exact hescape (by rcases hquote with rfl | rfl <;> rfl)
  · rw [hfeed]
    exact hescape rfl
  · rw [hreturn]
    exact hescape rfl
  · rw [htab]
    exact hescape rfl
  · have hu : shortEscape? 0x75 = none := by decide
    have hpiece : pieceOf b = .unit b.toNat := if_pos ⟨hcontrol, hfeed, hreturn, htab⟩
    rw [hpiece]
    show pieces?
      (backslash :: 0x75 :: 0x30 :: 0x30 :: hexDigit (b / 16) :: hexDigit (b % 16) :: s) = _
    rw [pieces?, if_neg (by decide), if_neg (by decide), if_neg (by decide), hu]
    dsimp only
    rw [if_neg (by decide), codeUnit?_control b hcontrol]
  · have hpiece : pieceOf b = .byte b := if_neg fun h => hcontrol h.1
    rw [not_or] at hquote
    rw [hpiece, List.singleton_append, pieces?.eq_def]
    dsimp only
    rw [if_neg hquote.1, if_neg hcontrol, if_pos hquote.2]

/-- An escaped text up to its quote is read as the pieces of its bytes. -/
theorem pieces?_escape (s rest : Bytes) :
    pieces? (escape s ++ doubleQuote :: rest) = some (s.map pieceOf, rest) := by
  induction s with
  | nil =>
    show pieces? (doubleQuote :: rest) = some ([], rest)
    rw [pieces?.eq_def]
    exact if_pos rfl
  | cons b s ih =>
    rw [escape, List.flatMap_cons, List.append_assoc, pieces?_escapeByte, ← escape, ih]
    rfl

/-- A control byte is a code point below the surrogates, and its own encoding. -/
theorem text?_cons_pieceOf (b : UInt8) (ps : List Piece) :
    text? (pieceOf b :: ps) = (text? ps).map (b :: ·) := by
  have hlow : ∀ b : UInt8, b < space → isHighSurrogate b.toNat = false ∧
      isLowSurrogate b.toNat = false ∧ String.utf8EncodeChar (Char.ofNat b.toNat) = [b] :=
    forall_byte (by decide +kernel)
  unfold pieceOf
  split
  · rename_i hcontrol
    obtain ⟨hhigh, hlow, hencode⟩ := hlow b hcontrol.1
    rw [text?.eq_def]
    dsimp only
    rw [hhigh, if_neg Bool.false_ne_true, hlow, if_neg Bool.false_ne_true, hencode]
    rfl
  · rfl

/-- The pieces of some bytes are the text of those bytes. -/
theorem text?_map_pieceOf (s : Bytes) : text? (s.map pieceOf) = some s := by
  induction s with
  | nil => rfl
  | cons b s ih => rw [List.map_cons, text?_cons_pieceOf, ih, Option.map_some]

/-- **Quoted text is read back.** -/
theorem string?_escape (s rest : Bytes) :
    string? (escape s ++ doubleQuote :: rest) = some (s, rest) := by
  rw [string?, pieces?_escape]
  show ((text? (s.map pieceOf)).bind fun t => some (t, rest)) = _
  rw [text?_map_pieceOf, Option.bind_some]

/-- Code points and pairs of surrogates, of which `escape` writes the control bytes only. -/
example : string? (bytes "\\u00e9\\ud83d\\ude00\\/\"") = some (bytes "é😀/", []) := by decide +kernel

/-! ### Numbers -/

/-- A number in decimal is all the digits in front of what follows it. -/
theorem takeWhile_isDigit_decimal (n : Nat) (hrest : Follows rest) :
    (decimal n ++ rest).takeWhile isDigit = decimal n ∧
      (decimal n ++ rest).dropWhile isDigit = rest := by
  have hdigits : ∀ b ∈ decimal n, isDigit b = true := fun b hb => isDigit_of_mem_decimal hb
  rw [List.takeWhile_append_of_pos hdigits, List.dropWhile_append_of_pos hdigits]
  cases rest with
  | nil => exact ⟨List.append_nil _, rfl⟩
  | cons b rest =>
    have hb := (hrest b rfl).1
    rw [List.takeWhile_cons_of_neg (by simp [hb]), List.dropWhile_cons_of_neg (by simp [hb])]
    exact ⟨List.append_nil _, rfl⟩

/-- What follows a number is no fraction. -/
theorem fraction?_of_follows (h : Follows rest) : fraction? rest = some ([], rest) :=
  if_neg fun hdot => (h dot hdot).2.1 rfl

/-- What follows a number is no exponent. -/
theorem exponent?_of_follows (h : Follows rest) : exponent? rest = some (0, rest) := by
  refine if_neg ?_
  rintro (he | he)
  · exact (h _ he).2.2.1 rfl
  · exact (h _ he).2.2.2 rfl

/-- The whole part of a number has no zero in front. -/
theorem not_padded_decimal (n : Nat) :
    ((decimal n).isEmpty || ((decimal n).head? == some zero && decide (1 < (decimal n).length))) =
      false := by
  have hempty : (decimal n).isEmpty = false := List.isEmpty_eq_false_iff.mpr (decimal_ne_nil n)
  rw [hempty, Bool.false_or]
  rcases Nat.eq_zero_or_pos n with rfl | hn
  · rfl
  · rw [beq_false_of_ne (head?_decimal_ne hn), Bool.false_and]

/-- A number in decimal is read as itself. -/
theorem unsigned?_decimal (n : Nat) (hrest : Follows rest) :
    unsigned? (decimal n ++ rest) = some (((n : Int), 0), rest) := by
  obtain ⟨htake, hdrop⟩ := takeWhile_isDigit_decimal n hrest
  rw [unsigned?, htake, not_padded_decimal, if_neg Bool.false_ne_true, hdrop,
    fraction?_of_follows hrest]
  dsimp only
  rw [exponent?_of_follows hrest, List.append_nil, digitsValue_decimal]
  rfl

/-- **Decimal numbers are read back.** The sign is read first, if there is one, and the digits end
before what follows. -/
theorem number?_signedDecimal (n : Int) (hrest : Follows rest) :
    number? (signedDecimal n ++ rest) = some (.number n 0, rest) := by
  unfold signedDecimal
  split
  · rename_i hneg
    have hvalue : -(n.natAbs : Int) = n := by omega
    rw [List.cons_append, number?, List.head?_cons, if_pos rfl, List.tail_cons,
      unsigned?_decimal n.natAbs hrest, Option.map_some]
    dsimp only
    rw [hvalue]
  · rename_i hpos
    have hvalue : (n.natAbs : Int) = n := by omega
    have hhead : (decimal n.natAbs ++ rest).head? ≠ some minus := by
      obtain ⟨b, t, ht⟩ := List.exists_cons_of_ne_nil (decimal_ne_nil n.natAbs)
      have hb : isDigit b = true := isDigit_of_mem_decimal (n := n.natAbs) (by rw [ht]; simp)
      rw [ht]
      intro heq
      rw [Option.some.inj heq] at hb
      exact absurd hb (by decide)
    rw [number?, if_neg hhead, unsigned?_decimal n.natAbs hrest, Option.map_some]
    dsimp only
    rw [hvalue]

/-! ### Values -/

/-- A value may stand behind blanks. -/
theorem value_append (hlead : Blanks lead) (depth : Nat) (s : Bytes) :
    value depth (lead ++ s) = value depth s := by
  cases depth with
  | zero => rfl
  | succ depth => rw [value, value, skipBlanks_append hlead]

/-- A value is read behind blanks if it is read without them. -/
theorem reads_value {depth : Nat} {v : Json}
    (h : ∀ rest, Follows rest → value depth (s ++ rest) = some (v, rest)) :
    Reads (value depth) s v := by
  intro lead rest hlead hrest
  rw [value_append hlead, h rest hrest]

/-- A quoted text is read as the string. -/
theorem reads_quote (depth : Nat) (s : Bytes) :
    Reads (value (depth + 1)) (quote s) (.string s) := by
  refine reads_value fun rest _ => ?_
  have hblank : isBlank doubleQuote = false := by decide
  rw [quote, List.cons_append, List.cons_append, value, skipBlanks_cons hblank]
  dsimp only
  rw [if_pos rfl, List.append_assoc, List.singleton_append, string?_escape, Option.map_some]

/-- A number with its sign is read as that number. -/
theorem reads_signedDecimal (depth : Nat) (n : Int) :
    Reads (value (depth + 1)) (signedDecimal n) (.number n 0) := by
  refine reads_value fun rest hrest => ?_
  -- a number starts with a digit or with its sign
  obtain ⟨b, t, ht, hb⟩ : ∃ b t, signedDecimal n = b :: t ∧ (isDigit b || b == minus) = true := by
    unfold signedDecimal
    split
    · exact ⟨minus, _, rfl, rfl⟩
    · obtain ⟨b, t, ht⟩ := List.exists_cons_of_ne_nil (decimal_ne_nil n.natAbs)
      refine ⟨b, t, ht, ?_⟩
      rw [isDigit_of_mem_decimal (n := n.natAbs) (by rw [ht]; exact List.mem_cons_self),
        Bool.true_or]
  have hother : ∀ b : UInt8, (isDigit b || b == minus) = true → isBlank b = false ∧
      b ≠ doubleQuote ∧ b ≠ openBracket ∧ b ≠ openBrace := forall_byte (by decide +kernel)
  obtain ⟨hblank, hquote, hbracket, hbrace⟩ := hother b hb
  have hread := number?_signedDecimal n hrest
  rw [ht, List.cons_append] at hread ⊢
  rw [value, skipBlanks_cons hblank]
  dsimp only
  rw [if_neg hquote, if_neg hbracket, if_neg hbrace, if_pos hb, hread]

/-- A truth value is read as itself. -/
theorem reads_bool (depth : Nat) (b : Bool) :
    Reads (value (depth + 1)) (bytes (if b then "true" else "false")) (.bool b) := by
  refine reads_value fun rest _ => ?_
  cases b <;> rfl

/-! ### Lists -/

/-- **Joined items are read back.** Between two items stands a comma, and blanks may stand behind it
and around the items. -/
theorem items_join {α : Type} {item : Bytes → Option (α × Bytes)} {close : UInt8} {pad : Bytes}
    {xs : List (Bytes × α)} (hne : xs ≠ []) (hitem : ∀ x ∈ xs, Reads item x.1 x.2)
    (hclose : isBlank close = false ∧ close ≠ comma) (hend : Follows (close :: rest))
    (hpad : Blanks pad) (hlead : Blanks lead) (htail : Blanks tail) :
    items item close
        (lead ++ (Bytes.join (comma :: pad) (xs.map (·.1)) ++ (tail ++ close :: rest))) =
      some (xs.map (·.2), rest) := by
  induction xs generalizing lead with
  | nil => exact absurd rfl hne
  | cons x xs ih =>
    have hx := hitem x List.mem_cons_self
    cases xs with
    | nil =>
      have hread := hx lead (tail ++ close :: rest) hlead (htail.follows hend)
      rw [List.map_cons, List.map_nil, Bytes.join, items, hread]
      dsimp only
      rw [skipBlanks_append htail, skipBlanks_cons hclose.1]
      exact if_pos rfl
    | cons y ys =>
      generalize hmore : Bytes.join (comma :: pad) ((y :: ys).map (·.1)) = more at ih
      have hjoin : Bytes.join (comma :: pad) ((x :: y :: ys).map (·.1)) =
          x.1 ++ comma :: (pad ++ more) := by
        rw [List.map_cons, Bytes.join, hmore, List.append_assoc, List.cons_append]
        exact List.cons_ne_nil _ _
      have hnext :=
        ih (List.cons_ne_nil y ys) (fun z hz => hitem z (List.mem_cons_of_mem x hz)) hpad
      have hcomma : Follows (comma :: (pad ++ (more ++ (tail ++ close :: rest)))) :=
        follows_cons (by decide)
      have hread := hx lead _ hlead hcomma
      have hlt : (pad ++ (more ++ (tail ++ close :: rest))).length <
          (lead ++ (x.1 ++ comma :: (pad ++ (more ++ (tail ++ close :: rest))))).length := by
        simp only [List.length_append, List.length_cons]
        omega
      rw [hjoin, List.append_assoc, List.cons_append, List.append_assoc, items, hread]
      dsimp only
      rw [skipBlanks_cons (by decide)]
      dsimp only
      rw [if_neg (Ne.symm hclose.2), dif_pos ⟨rfl, hlt⟩, hnext]
      rfl

/-- The text starts with a byte that is neither blank nor `close`, but for blanks. -/
def StartsItem (close : UInt8) (s : Bytes) : Prop := ∃ b t, skipBlanks s = b :: t ∧ b ≠ close

/-- **Lists are read back**, also empty ones. The first item does not start with the closing
bracket, which tells the two apart. -/
theorem list_join {α : Type} {item : Bytes → Option (α × Bytes)} {close : UInt8} {pad : Bytes}
    {xs : List (Bytes × α)} (hitem : ∀ x ∈ xs, Reads item x.1 x.2)
    (hstart : ∀ x ∈ xs, StartsItem close x.1) (hclose : isBlank close = false ∧ close ≠ comma)
    (hend : Follows (close :: rest)) (hpad : Blanks pad) (hlead : Blanks lead)
    (htail : Blanks tail) :
    list item close
        (lead ++ (Bytes.join (comma :: pad) (xs.map (·.1)) ++ (tail ++ close :: rest))) =
      some (xs.map (·.2), rest) := by
  cases xs with
  | nil =>
    have hskip : skipBlanks (lead ++ (tail ++ close :: rest)) = close :: rest := by
      rw [skipBlanks_append hlead, skipBlanks_append htail, skipBlanks_cons hclose.1]
    rw [List.map_nil, Bytes.join, List.nil_append, list, hskip]
    exact if_pos rfl
  | cons x xs =>
    obtain ⟨b, t, hskip, hb⟩ := hstart x List.mem_cons_self
    obtain ⟨more, hjoin⟩ : ∃ more,
        Bytes.join (comma :: pad) ((x :: xs).map (·.1)) = x.1 ++ more := by
      cases xs with
      | nil => exact ⟨[], (List.append_nil _).symm⟩
      | cons y ys =>
        rw [List.map_cons, List.map_cons, Bytes.join, List.append_assoc]
        · exact ⟨_, rfl⟩
        · exact List.cons_ne_nil _ _
    have hfront : ∃ t, skipBlanks
        (lead ++ (Bytes.join (comma :: pad) ((x :: xs).map (·.1)) ++ (tail ++ close :: rest))) =
          b :: t := by
      rw [skipBlanks_append hlead, hjoin, List.append_assoc, skipBlanks, List.dropWhile_append,
        ← skipBlanks, hskip]
      exact ⟨_, rfl⟩
    obtain ⟨t', hfront⟩ := hfront
    rw [list, hfront]
    dsimp only
    rw [if_neg hb]
    exact items_join (List.cons_ne_nil x xs) hitem hclose hend hpad hlead htail

/-- A member is read as its name and its value. -/
theorem reads_member {depth : Nat} {v : Json} (name : Bytes) (h : Reads (value depth) s v) :
    Reads (member (value depth)) (quote name ++ colon :: s) (name, v) := by
  intro lead rest hlead hrest
  have hquote : isBlank doubleQuote = false := by decide
  have hcolon : isBlank colon = false := by decide
  have hvalue : value depth (s ++ rest) = some (v, rest) := h [] rest blanks_nil hrest
  rw [member, skipBlanks_append hlead, List.append_assoc, quote, List.cons_append, List.cons_append,
    skipBlanks_cons hquote]
  dsimp only
  rw [if_neg (not_not_intro rfl), List.append_assoc, List.singleton_append, string?_escape]
  show (match skipBlanks (colon :: s ++ rest) with
    | [] => none
    | c :: s₂ =>
      if c ≠ colon then none else (value depth s₂).bind fun x => some ((name, x.1), x.2)) = _
  rw [List.cons_append, skipBlanks_cons hcolon]
  dsimp only
  rw [if_neg (not_not_intro rfl), hvalue]
  rfl

/-- An object with commas between its members. Each of them is a name, the text of a value, and the
value. -/
theorem reads_object {depth : Nat} {ms : List (Bytes × Bytes × Json)}
    (h : ∀ m ∈ ms, Reads (value depth) m.2.1 m.2.2) :
    Reads (value (depth + 1))
      (openBrace ::
        Bytes.join [comma] (ms.map fun m => quote m.1 ++ colon :: m.2.1) ++ [closeBrace])
      (.object (ms.map fun m => (m.1, m.2.2))) := by
  refine reads_value fun rest _ => ?_
  -- each member beside its text
  generalize hxs : (ms.map fun m => (quote m.1 ++ colon :: m.2.1, (m.1, m.2.2))) = xs
  have hitem : ∀ x ∈ xs, Reads (member (value depth)) x.1 x.2 := by
    intro x hx
    obtain ⟨m, hm, rfl⟩ := List.mem_map.mp (hxs ▸ hx)
    exact reads_member m.1 (h m hm)
  have hstart : ∀ x ∈ xs, StartsItem closeBrace x.1 := by
    intro x hx
    obtain ⟨m, -, rfl⟩ := List.mem_map.mp (hxs ▸ hx)
    exact ⟨doubleQuote, _, skipBlanks_cons (by decide) _, by decide⟩
  have hend : Follows (closeBrace :: rest) := follows_cons (by decide)
  have hlist := list_join hitem hstart (by decide) hend blanks_nil blanks_nil blanks_nil
  rw [← hxs] at hlist
  rw [List.nil_append, List.nil_append, List.map_map, List.map_map] at hlist
  rw [List.cons_append, List.cons_append, value, skipBlanks_cons (by decide)]
  dsimp only
  rw [if_neg (by decide), if_neg (by decide), if_pos rfl, List.append_assoc, List.singleton_append]
  exact congrArg (Option.map _) hlist

/-- An array with blanks behind its opening bracket, behind its commas and before its closing
bracket. -/
theorem reads_array {depth : Nat} {pad : Bytes} {xs : List (Bytes × Json)}
    (h : ∀ x ∈ xs, Reads (value depth) x.1 x.2)
    (hstart : ∀ x ∈ xs, StartsItem closeBracket x.1) (hpad : Blanks pad) (hlead : Blanks lead)
    (htail : Blanks tail) :
    Reads (value (depth + 1))
      (openBracket ::
        (lead ++ (Bytes.join (comma :: pad) (xs.map (·.1)) ++ (tail ++ [closeBracket]))))
      (.array (xs.map (·.2))) := by
  refine reads_value fun rest _ => ?_
  have hend : Follows (closeBracket :: rest) := follows_cons (by decide)
  have hlist := list_join h hstart (by decide) hend hpad hlead htail
  rw [List.cons_append, value, skipBlanks_cons (by decide)]
  dsimp only
  rw [if_neg (by decide), if_pos rfl]
  simp only [List.append_assoc, List.singleton_append]
  exact congrArg (Option.map _) hlist

/-- A value that has no more levels than bytes is read as a text, with blanks behind it. -/
theorem parse_of_reads {levels : Nat} {v : Json} (hlevels : levels ≤ s.length)
    (h : ∀ depth, Reads (value (depth + (levels + 1))) s v) (htail : Blanks tail) :
    parse (s ++ tail) = some v := by
  have hdepth : (s ++ tail).length + 1 = ((s ++ tail).length - levels) + (levels + 1) := by
    rw [List.length_append]
    omega
  have hfollows : Follows tail := List.append_nil tail ▸ htail.follows follows_nil
  have hread := h ((s ++ tail).length - levels) [] tail blanks_nil hfollows
  have hrest : skipBlanks tail = [] := by
    rw [← List.append_nil tail, skipBlanks_append htail]
    rfl
  rw [List.nil_append] at hread
  rw [parse, hdepth, hread]
  dsimp only
  rw [hrest]
  rfl

end

end Json

end SignatureLedger
