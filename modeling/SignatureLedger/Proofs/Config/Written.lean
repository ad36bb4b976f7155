import SignatureLedger.Config.Format
import SignatureLedger.Proofs.Ledger.Lines

/-!
# Values that are written and read back

A number is written with its digits and read back as it is, as long as it has no sign. A text is
written between double quotes. The reader knows the names of five escaped bytes, but not the numbers
by which the writer spells the other control bytes, so a text is read back exactly if it has none of
those (`readValue_quote`, `isNamed_of_readValue_quote`).
-/

namespace SignatureLedger.Config

open Byte

/-! ## Texts -/

/-- A byte that is written by itself or by a name, and not by its number. -/
def IsNamed (b : UInt8) : Prop := b < space → b = tab ∨ b = lineFeed ∨ b = carriageReturn

instance (b : UInt8) : Decidable (IsNamed b) := by
  unfold IsNamed
  infer_instance

/-- The ways in which a byte can be written. -/
inductive Spelled : UInt8 → Bytes → Prop
  | plain {b : UInt8} (hquote : b ≠ doubleQuote) (hslash : b ≠ backslash) (hb : ¬ b < space) :
      Spelled b [b]
  | named {b c : UInt8} (hc : ¬ c < space) (h : escaped? c = some b) : Spelled b [backslash, c]
  | numbered {b x y : UInt8} (hb : ¬ IsNamed b) (hx : x ≠ doubleQuote ∧ x ≠ backslash ∧ ¬ x < space)
      (hy : y ≠ doubleQuote ∧ y ≠ backslash ∧ ¬ y < space) :
      Spelled b (bytes "\\u00" ++ [x, y])

/-- A hexadecimal digit needs no escape. -/
theorem hexDigit_plain {n : UInt8} (h : n < 16) :
    hexDigit n ≠ doubleQuote ∧ hexDigit n ≠ backslash ∧ ¬ hexDigit n < space := by
  have hall : ∀ k < 16, hexDigit (UInt8.ofNat k) ≠ doubleQuote ∧
      hexDigit (UInt8.ofNat k) ≠ backslash ∧ ¬ hexDigit (UInt8.ofNat k) < space := by decide
  have hn := hall n.toNat (by simpa using UInt8.lt_iff_toNat_lt.mp h)
  rwa [UInt8.ofNat_toNat] at hn

/-- What is written for a byte spells it. -/
theorem spelled_escapeByte (b : UInt8) : Spelled b (escapeByte b) := by
  unfold escapeByte
  split_ifs with hquote hfeed hreturn htab hcontrol
  · have hb : ¬ b < space := by rcases hquote with rfl | rfl <;> decide
    refine .named hb ?_
    rcases hquote with rfl | rfl <;> rfl
  · exact .named (c := 0x6E) (by decide) (hfeed ▸ rfl)
  · exact .named (c := 0x72) (by decide) (hreturn ▸ rfl)
  · exact .named (c := 0x74) (by decide) (htab ▸ rfl)
  · refine .numbered (fun h => ?_) (hexDigit_plain ?_) (hexDigit_plain ?_)
    · rcases h hcontrol with h | h | h
      · exact htab h
      · exact hfeed h
      · exact hreturn h
    all_goals
      rw [UInt8.lt_iff_toNat_lt]
      have hlt := b.toNat_lt
      simp only [UInt8.toNat_div, UInt8.toNat_mod, UInt8.reduceToNat]
      omega
  · exact .plain (fun h => hquote (.inl h)) (fun h => hquote (.inr h)) hcontrol

/-- A byte other than the backslash stands for itself. -/
theorem unescape_cons_of_ne {b : UInt8} (h : b ≠ backslash) (s : Bytes) :
    unescape (b :: s) = (unescape s).map (b :: ·) := by
  rw [unescape.eq_def]
  exact if_pos h

/-- A backslash with a letter of the grammar stands for one byte. -/
theorem unescape_escaped {b c : UInt8} (h : escaped? c = some b) (s : Bytes) :
    unescape (backslash :: c :: s) = (unescape s).map (b :: ·) := by
  rw [unescape.eq_def]
  dsimp only
  rw [if_neg (not_not_intro rfl), h]

namespace Spelled

variable {b : UInt8} {w : Bytes}

/-- No control byte is in a spelling. -/
theorem not_lt_space (h : Spelled b w) : ∀ c ∈ w, ¬ c < space := by
  cases h with
  | plain hquote hslash hb => simpa using hb
  | named hc h =>
    intro d hd
    rcases List.mem_cons.mp hd with rfl | hd
    · decide
    · rw [List.mem_singleton.mp hd]
      exact hc
  | numbered hb hx hy =>
    intro d hd
    rcases List.mem_append.mp hd with hd | hd
    · have hplain : (bytes "\\u00").all (fun d => ¬ d < space) = true := by decide
      simpa using List.all_eq_true.mp hplain d hd
    · rcases List.mem_pair.mp hd with rfl | rfl
      · exact hx.2.2
      · exact hy.2.2

/-- A named byte is read back before what follows. -/
theorem unescape_append_of_isNamed (h : Spelled b w) (hb : IsNamed b) (s : Bytes) :
    unescape (w ++ s) = (unescape s).map (b :: ·) := by
  cases h with
  | plain hquote hslash hb => exact unescape_cons_of_ne hslash s
  | named hc h => exact unescape_escaped h s
  | numbered hb' hx hy => exact absurd hb hb'

/-- A byte that is written by its number is not read at all. -/
theorem unescape_append_of_not_isNamed (h : Spelled b w) (hb : ¬ IsNamed b) (s : Bytes) :
    unescape (w ++ s) = .error (.unknownEscape 0x75) := by
  cases h with
  | plain hquote hslash hspace => exact absurd (fun h => absurd h hspace) hb
  | named hc h =>
    refine absurd ?_ hb
    unfold escaped? at h
    split_ifs at h with h₁ h₂ h₃ h₄
    all_goals obtain rfl := Option.some.inj h
    · decide
    · decide
    · decide
    · exact fun hlt => absurd hlt hc
  | numbered hb' hx hy => rfl

end Spelled

/-- Between quotes there is no control byte. -/
theorem not_lt_space_of_mem_escape {s : Bytes} {c : UInt8} (hc : c ∈ escape s) : ¬ c < space := by
  obtain ⟨b, -, hb⟩ := List.mem_flatMap.mp hc
  exact (spelled_escapeByte b).not_lt_space c hb

/-- A text is escaped byte by byte. -/
theorem escape_cons (b : UInt8) (s : Bytes) : escape (b :: s) = escapeByte b ++ escape s :=
  List.flatMap_cons

/-- A text of named bytes is read back as it is. -/
theorem unescape_escape {s : Bytes} (h : ∀ b ∈ s, IsNamed b) : unescape (escape s) = .ok s := by
  induction s with
  | nil => rfl
  | cons b s ih =>
    obtain ⟨hb, hs⟩ := List.forall_mem_cons.mp h
    rw [escape_cons, (spelled_escapeByte b).unescape_append_of_isNamed hb, ih hs]
    rfl

/-- A text with another byte is not read at all. -/
theorem unescape_escape_of_not_isNamed {s : Bytes} (h : ¬ ∀ b ∈ s, IsNamed b) :
    unescape (escape s) = .error (.unknownEscape 0x75) := by
  induction s with
  | nil => exact absurd (List.forall_mem_nil _) h
  | cons b s ih =>
    rw [escape_cons]
    by_cases hb : IsNamed b
    · have hs : ¬ ∀ c ∈ s, IsNamed c := fun hs => h (List.forall_mem_cons.mpr ⟨hb, hs⟩)
      rw [(spelled_escapeByte b).unescape_append_of_isNamed hb, ih hs]
      rfl
    · rw [(spelled_escapeByte b).unescape_append_of_not_isNamed hb]

/-- A written text is quoted with double quotes. -/
theorem quoteOf?_quote (s : Bytes) : quoteOf? (quote s) = some doubleQuote := by
  rw [quote, List.cons_append, quoteOf?, List.getLast?_concat]
  rfl

/-- What stands between quotes is read as a text. -/
theorem readValue_quote_eq (s : Bytes) : readValue (quote s) = (unescape (escape s)).map .text := by
  have hnumber : integer? (quote s) = none := rfl
  have hinner : (quote s).tail.dropLast = escape s := by
    rw [quote, List.cons_append, List.tail_cons, List.dropLast_concat]
  rw [readValue, hnumber, hinner, quoteOf?_quote]
  dsimp only
  rw [if_neg (by simp [quote]), if_neg (by decide)]

/-- **A text is read back if its control bytes have names.** -/
theorem readValue_quote {s : Bytes} (h : ∀ b ∈ s, IsNamed b) :
    readValue (quote s) = .ok (.text s) := by
  rw [readValue_quote_eq, unescape_escape h]
  rfl

/-- Only such a text is read at all. -/
theorem isNamed_of_readValue_quote {s : Bytes} {v : Value} (h : readValue (quote s) = .ok v) :
    ∀ b ∈ s, IsNamed b := by
  rw [readValue_quote_eq] at h
  by_contra hnot
  rw [unescape_escape_of_not_isNamed hnot] at h
  exact absurd h (by simp [Except.map])

/-! ## Numbers -/

/-- The number that digits stand for behind a number that was read. -/
abbrev valueFrom (v : Nat) (s : Bytes) : Nat := s.foldl (fun n b => 10 * n + digitValue b) v

/-- Reading more digits makes no number smaller. -/
theorem le_valueFrom (v : Nat) (s : Bytes) : v ≤ valueFrom v s := by
  induction s generalizing v with
  | nil => exact Nat.le_refl v
  | cons b s ih =>
    exact (show v ≤ 10 * v + digitValue b by omega).trans (ih _)

/-- Digits are read as the number that they stand for, if it is not too large. By induction on the
digits, among which there is no underscore. -/
theorem magnitudeFrom_digits {s : Bytes} (hs : ∀ b ∈ s, isDigit b = true) (v : UInt64)
    (afterDigit : Bool) (hne : s ≠ [] ∨ afterDigit = true)
    (h : valueFrom v.toNat s ≤ largest.toNat) :
    ∃ w : UInt64, w.toNat = valueFrom v.toNat s ∧ magnitudeFrom v afterDigit s = some w := by
  induction s generalizing v afterDigit with
  | nil =>
    obtain rfl : afterDigit = true := hne.resolve_left (by simp)
    exact ⟨v, rfl, rfl⟩
  | cons b s ih =>
    obtain ⟨hb, hs⟩ := List.forall_mem_cons.mp hs
    have hle : 10 * v.toNat + digitValue b ≤ largest.toNat := (le_valueFrom _ s).trans h
    -- the step stays below the largest number, so the word does not wrap
    have hdigit : 0x30 ≤ b.toNat ∧ b.toNat ≤ 0x39 := by
      simpa [isDigit, UInt8.le_iff_toNat_le] using hb
    have hzero : zero ≤ b := UInt8.le_iff_toNat_le.mpr hdigit.1
    have hd : (b - zero).toUInt64.toNat = digitValue b := by
      rw [UInt8.toNat_toUInt64, UInt8.toNat_sub_of_le _ _ hzero]
      rfl
    have hlargest : largest.toNat = 2 ^ 63 - 1 := rfl
    have hv : (10 * v + (b - zero).toUInt64).toNat = 10 * v.toNat + digitValue b := by
      simp only [UInt64.toNat_add, UInt64.toNat_mul, hd, UInt64.reduceToNat]
      omega
    have hfits : ¬ (largest - (b - zero).toUInt64) / 10 < v := by
      have hdle : (b - zero).toUInt64 ≤ largest := by
        rw [UInt64.le_iff_toNat_le, hd]
        omega
      simp only [UInt64.lt_iff_toNat_lt, UInt64.toNat_div, UInt64.toNat_sub_of_le _ _ hdle, hd,
        UInt64.reduceToNat]
      omega
    obtain ⟨w, hw, hread⟩ := ih hs (10 * v + (b - zero).toUInt64) true (.inr rfl) (hv ▸ h)
    refine ⟨w, hw.trans (by rw [hv]; rfl), ?_⟩
    have hunderscore : b ≠ underscore := by
      rintro rfl
      exact absurd hb (by decide)
    rw [magnitudeFrom, if_neg (fun h => hunderscore h.1), hb]
    dsimp only
    rw [if_neg (by simp), if_neg hfits, hread]

/-- **A number that is not negative is read back.** It is written as digits alone, and a digit is
neither of the signs that are looked for first. -/
theorem readValue_signedDecimal {n : Int64} (h : 0 ≤ n.toInt) :
    readValue (signedDecimal n.toInt) = .ok (.number n) := by
  have hlargest : n.toInt.toNat ≤ largest.toNat := by
    have := n.toInt_lt
    have : largest.toNat = 2 ^ 63 - 1 := rfl
    omega
  have hvalue : valueFrom (UInt64.toNat 0) (decimal n.toInt.toNat) = n.toInt.toNat :=
    digitsValue_decimal n.toInt.toNat
  rw [Ledger.signedDecimal_of_nonneg h]
  obtain ⟨w, hw, hread⟩ := magnitudeFrom_digits (fun _ => isDigit_of_mem_decimal) 0 false
    (.inl (decimal_ne_nil n.toInt.toNat)) (hvalue.trans_le hlargest)
  have hback : w.toInt64 = n := by
    have hword : UInt64.ofNat n.toInt.toNat = w := by rw [← hvalue, ← hw, UInt64.ofNat_toNat]
    rw [← hword]
    exact Int64.ofNat_toNatClampNeg n (Int64.le_iff_toInt_le.mpr h)
  obtain ⟨b, s, hs⟩ := List.exists_cons_of_ne_nil (decimal_ne_nil n.toInt.toNat)
  have hb : isDigit b = true := isDigit_of_mem_decimal (hs ▸ List.mem_cons_self)
  have hminus : b ≠ minus := by
    rintro rfl
    exact absurd hb (by decide)
  have hplus : b ≠ plus := by
    rintro rfl
    exact absurd hb (by decide)
  rw [hs] at hread ⊢
  have hinteger : integer? (b :: s) = some n := by
    rw [integer?, if_neg hminus, if_neg hplus, hread, Option.map_some, hback]
  rw [readValue, hinteger]
  rfl

end SignatureLedger.Config
