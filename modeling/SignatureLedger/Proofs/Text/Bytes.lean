import SignatureLedger.Text.Bytes
import Mathlib.Algebra.Group.Nat.Defs
import Mathlib.Data.List.TakeWhile

/-!
# Splitting texts and reading numbers

What is joined with a separator that the parts do not contain is split into the same parts, and the
digits of a number have its value. Readers that may fail succeed exactly if their parts do.
-/

namespace SignatureLedger

section

variable {ε α β : Type} {x : Except ε α} {b : β}

/-- One reader behind another one succeeds if both do. -/
theorem bind_eq_ok_iff {f : α → Except ε β} :
    (x >>= f) = .ok b ↔ ∃ a, x = .ok a ∧ f a = .ok b := by
  cases x with
  | ok a => simp [bind, Except.bind]
  | error e => simp [bind, Except.bind]

/-- What is done with the result of a reader does not decide whether there is one. -/
theorem map_eq_ok_iff {f : α → β} : x.map f = .ok b ↔ ∃ a, x = .ok a ∧ f a = b := by
  cases x with
  | ok a => simp [Except.map]
  | error e => simp [Except.map]

end

/-- What holds of all numbers below 256 holds of all bytes. -/
theorem forall_byte {P : UInt8 → Prop} (h : ∀ n < 256, P (UInt8.ofNat n)) (b : UInt8) : P b :=
  UInt8.ofNat_toNat (x := b) ▸ h b.toNat b.toNat_lt

namespace Bytes

variable {sep b : UInt8} {s t : Bytes}

/-! ## Parts between separators -/

/-- A split has at least one part. -/
theorem splitOn_ne_nil (sep : UInt8) (s : Bytes) : splitOn sep s ≠ [] := by
  fun_cases splitOn sep s with
  | case1 => simp
  | case2 => simp
  | case3 => simp
  | case4 => simp

/-- A separator in front starts an empty part. -/
theorem splitOn_cons_self (sep : UInt8) (s : Bytes) :
    splitOn sep (sep :: s) = [] :: splitOn sep s := by
  rw [splitOn, if_pos rfl]

/-- Any other byte belongs to the first part. -/
theorem splitOn_cons_of_ne (h : b ≠ sep) {part : Bytes} {parts : List Bytes}
    (hs : splitOn sep s = part :: parts) : splitOn sep (b :: s) = (b :: part) :: parts := by
  rw [splitOn, if_neg h, hs]

/-- A text without the separator is one part. -/
theorem splitOn_of_not_mem (h : sep ∉ s) : splitOn sep s = [s] := by
  induction s with
  | nil => rfl
  | cons b s ih =>
    have hb : b ≠ sep := fun heq => h (heq ▸ List.mem_cons_self)
    exact splitOn_cons_of_ne hb (ih fun hs => h (List.mem_cons_of_mem b hs))

/-- The first part ends at the first separator. -/
theorem splitOn_append_cons (h : sep ∉ s) (t : Bytes) :
    splitOn sep (s ++ sep :: t) = s :: splitOn sep t := by
  induction s with
  | nil => exact splitOn_cons_self sep t
  | cons b s ih =>
    have hb : b ≠ sep := fun heq => h (heq ▸ List.mem_cons_self)
    exact splitOn_cons_of_ne hb (ih fun hs => h (List.mem_cons_of_mem b hs))

/-- The parts have no byte but those of the text, and not the separator. -/
theorem mem_of_mem_splitOn {part : Bytes} (h : part ∈ splitOn sep s) (hb : b ∈ part) :
    b ∈ s ∧ b ≠ sep := by
  induction s generalizing part with
  | nil =>
    obtain rfl := List.mem_singleton.mp h
    simp at hb
  | cons c s ih =>
    by_cases hc : c = sep
    · rw [hc, splitOn_cons_self, List.mem_cons] at h
      rcases h with rfl | h
      · simp at hb
      · exact (ih h hb).imp_left (List.mem_cons_of_mem c)
    · obtain ⟨p, ps, hs⟩ := List.exists_cons_of_ne_nil (splitOn_ne_nil sep s)
      rw [splitOn_cons_of_ne hc hs, List.mem_cons] at h
      rcases h with rfl | h
      · rcases List.mem_cons.mp hb with rfl | hb
        · exact ⟨List.mem_cons_self, hc⟩
        · exact (ih (hs ▸ List.mem_cons_self) hb).imp_left (List.mem_cons_of_mem c)
      · exact (ih (hs ▸ List.mem_cons_of_mem p h) hb).imp_left (List.mem_cons_of_mem c)

/-- What is joined with a separator that the parts do not have is split into the same parts. -/
theorem splitOn_join {sep : UInt8} {parts : List Bytes} (hne : parts ≠ [])
    (h : ∀ part ∈ parts, sep ∉ part) : splitOn sep (join [sep] parts) = parts := by
  induction parts with
  | nil => exact absurd rfl hne
  | cons part parts ih =>
    have hpart : sep ∉ part := h part List.mem_cons_self
    cases parts with
    | nil => exact splitOn_of_not_mem hpart
    | cons next parts =>
      have hjoin : join [sep] (part :: next :: parts) =
          part ++ sep :: join [sep] (next :: parts) := by
        rw [join, List.append_assoc, List.singleton_append]
        exact List.cons_ne_nil next parts
      rw [hjoin, splitOn_append_cons hpart, ih (List.cons_ne_nil next parts)
        fun p hp => h p (List.mem_cons_of_mem part hp)]

/-- The parts of a text are those without the separator that are joined to it. -/
theorem splitOn_eq_iff {sep : UInt8} {s : Bytes} {parts : List Bytes} :
    splitOn sep s = parts ↔
      parts ≠ [] ∧ s = join [sep] parts ∧ ∀ part ∈ parts, sep ∉ part := by
  constructor
  · rintro rfl
    refine ⟨splitOn_ne_nil sep s, ?_, fun part hpart hmem => (mem_of_mem_splitOn hpart hmem).2 rfl⟩
    induction s with
    | nil => rfl
    | cons b s ih =>
      obtain ⟨part, parts, hs⟩ := List.exists_cons_of_ne_nil (splitOn_ne_nil sep s)
      rw [hs] at ih
      by_cases hb : b = sep
      · rw [hb, splitOn_cons_self, hs, join, ← ih]
        · rfl
        · exact List.cons_ne_nil part parts
      · rw [splitOn_cons_of_ne hb hs, ih]
        cases parts <;> rfl
  · rintro ⟨hne, rfl, hparts⟩
    exact splitOn_join hne hparts

/-! ## Runs -/

/-- What the run of a predicate counts is the text taken by it. -/
theorem take_run (p : UInt8 → Bool) (s : Bytes) : s.take (run p s) = s.takeWhile p := by
  have h : (s.takeWhile p ++ s.dropWhile p).take (s.takeWhile p).length = s.takeWhile p :=
    List.take_left
  rwa [List.takeWhile_append_dropWhile] at h

/-! ## The last separator -/

/-- The split is at the last separator. -/
theorem splitLast?_append_cons (h : b ∉ t) (s : Bytes) :
    splitLast? b (s ++ b :: t) = some (s, t) := by
  have hafter : (s ++ b :: t).reverse.takeWhile (· != b) = t.reverse := by
    have hall : ∀ c ∈ t.reverse, (c != b) = true := by
      intro c hc
      rw [List.mem_reverse] at hc
      simpa using fun heq : c = b => h (heq ▸ hc)
    rw [List.reverse_append, List.reverse_cons, List.append_assoc,
      List.takeWhile_append_of_pos hall]
    simp
  have hlen : (s ++ b :: t).length = s.length + 1 + t.length := by
    rw [List.length_append, List.length_cons]
    omega
  have htake : (s ++ b :: t).take s.length = s := List.take_left
  rw [splitLast?, hafter, List.length_reverse, hlen, if_neg (by omega), List.reverse_reverse,
    show s.length + 1 + t.length - t.length - 1 = s.length by omega, htake]

/-- Without the separator there is no split. -/
theorem splitLast?_of_not_mem (h : b ∉ s) : splitLast? b s = none := by
  have hafter : s.reverse.takeWhile (· != b) = s.reverse := by
    rw [List.takeWhile_eq_self_iff]
    intro c hc
    rw [List.mem_reverse] at hc
    simpa using fun heq : c = b => h (heq ▸ hc)
  rw [splitLast?, hafter, List.length_reverse, if_pos rfl]

/-- Where a text has a byte it is split at the last place of it. -/
theorem exists_splitLast? (h : b ∈ s) :
    ∃ u v, s = u ++ b :: v ∧ b ∉ v ∧ splitLast? b s = some (u, v) := by
  obtain ⟨v, u, hs, hv⟩ := List.eq_append_cons_of_mem (List.mem_reverse.mpr h)
  have heq : s = u.reverse ++ b :: v.reverse := by
    rw [← List.reverse_reverse s, hs]
    simp
  have hnot : b ∉ v.reverse := by rwa [List.mem_reverse]
  exact ⟨u.reverse, v.reverse, heq, hnot, heq ▸ splitLast?_append_cons hnot _⟩

/-- What a text is split into is the text again. -/
theorem eq_of_splitLast? {u v : Bytes} (h : splitLast? b s = some (u, v)) : s = u ++ b :: v := by
  by_cases hb : b ∈ s
  · obtain ⟨u', v', hs, -, hsplit⟩ := exists_splitLast? hb
    obtain ⟨rfl, rfl⟩ := Prod.mk.inj (Option.some.inj (hsplit.symm.trans h))
    exact hs
  · rw [splitLast?_of_not_mem hb] at h
    exact absurd h (by simp)

end Bytes

/-! ## Decimal numbers -/

/-- The byte of a decimal digit. -/
theorem digit_of_isDigit {c : Char} (h : c.isDigit = true) :
    Byte.isDigit c.toNat.toUInt8 = true ∧
      Byte.digitValue c.toNat.toUInt8 = c.toNat - '0'.toNat := by
  have hval : 48 ≤ c.toNat ∧ c.toNat ≤ 57 := by
    simpa [Char.isDigit, Char.le_def, UInt32.le_iff_toNat_le] using h
  have hnat : c.toNat.toUInt8.toNat = c.toNat := by
    rw [Nat.toUInt8, UInt8.toNat_ofNat']
    omega
  refine ⟨?_, ?_⟩
  · simp only [Byte.isDigit, Bool.and_eq_true, decide_eq_true_eq, UInt8.le_iff_toNat_le, hnat]
    exact hval
  · rw [Byte.digitValue, hnat]
    rfl

/-- A number in decimal is made of digits. -/
theorem isDigit_of_mem_decimal {n : Nat} {b : UInt8} (h : b ∈ decimal n) :
    Byte.isDigit b = true := by
  obtain ⟨c, hc, rfl⟩ := List.mem_map.mp h
  exact (digit_of_isDigit (Nat.isDigit_of_mem_toDigits (by decide) (by decide) hc)).1

/-- A number has at most `k` digits exactly if it is below the `k`-th power of ten. -/
theorem length_decimal_le_iff {n k : Nat} (hk : 0 < k) : (decimal n).length ≤ k ↔ n < 10 ^ k := by
  rw [decimal, List.length_map, Nat.length_toDigits_le_iff (by decide) hk]

/-- A number has at least one digit. -/
theorem decimal_ne_nil (n : Nat) : decimal n ≠ [] := by
  rw [decimal, Ne, List.map_eq_nil_iff]
  exact Nat.toDigits_ne_nil

/-- A number has no zero in front. -/
theorem head?_decimal_ne {n : Nat} (hn : 0 < n) : (decimal n).head? ≠ some Byte.zero := by
  induction n using Nat.strong_induction_on with
  | _ n ih =>
    rw [decimal, Nat.toDigits_eq_if (by decide)]
    split
    · rename_i hlt
      have hone : ∀ k < 10, 0 < k → (Nat.digitChar k).toNat.toUInt8 ≠ Byte.zero := by decide
      simpa using hone n hlt hn
    · rename_i hle
      have hfront := ih (n / 10) (by omega) (by omega)
      obtain ⟨b, t, ht⟩ := List.exists_cons_of_ne_nil (decimal_ne_nil (n / 10))
      rw [List.map_append, ← decimal, ht]
      rwa [ht] at hfront

/-- Reading the digits of a number gives the number. -/
theorem digitsValue_decimal (n : Nat) : (decimal n).digitsValue = n := by
  have hfold : ∀ (cs : List Char) (m : Nat), (∀ c ∈ cs, c.isDigit = true) →
      (cs.map fun c => c.toNat.toUInt8).foldl (fun n b => 10 * n + Byte.digitValue b) m =
        Nat.ofDigitChars 10 cs m := by
    intro cs
    induction cs with
    | nil => exact fun _ _ => rfl
    | cons c cs ih =>
      intro m h
      rw [List.map_cons, List.foldl_cons, ih _ fun d hd => h d (List.mem_cons_of_mem c hd),
        (digit_of_isDigit (h c List.mem_cons_self)).2]
      rfl
  rw [Bytes.digitsValue, decimal,
    hfold _ 0 fun c hc => Nat.isDigit_of_mem_toDigits (by decide) (by decide) hc]
  exact Nat.ofDigitChars_toDigits (by decide) (by decide)

end SignatureLedger
