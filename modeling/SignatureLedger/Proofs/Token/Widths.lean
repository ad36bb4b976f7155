import SignatureLedger.Token.Lexer

/-!
# Widths of lexemes

No lexeme is wider than the text that it is read from (`Lexeme.more_read_le`). The scanners count
the bytes that they take; of each kind of literal the count stays within the text.
-/

namespace SignatureLedger

open Byte

/-- A run ends in the text. -/
theorem Bytes.run_le (p : UInt8 → Bool) (s : Bytes) : Bytes.run p s ≤ s.length :=
  (List.takeWhile_prefix p).length_le

/-- What is found is found in the text. -/
theorem Bytes.indexOf?_le {needle s : Bytes} {n : Nat} (h : Bytes.indexOf? needle s = some n) :
    n + needle.length ≤ s.length := by
  induction s generalizing n with
  | nil =>
    rw [Bytes.indexOf?] at h
    split at h
    · rename_i hempty
      obtain rfl := Option.some.inj h
      simp [List.isEmpty_iff.mp hempty]
    · exact absurd h (by simp)
  | cons b s ih =>
    rw [Bytes.indexOf?] at h
    split at h
    · rename_i hprefix
      obtain rfl := Option.some.inj h
      have := (List.isPrefixOf_iff_prefix.mp hprefix).length_le
      omega
    · obtain ⟨k, hk, rfl⟩ := Option.map_eq_some_iff.mp h
      have := ih hk
      rw [List.length_cons]
      omega

/-- A comment that is closed ends in the text. -/
theorem commentWidth?_le {s : Bytes} {w : Nat} (h : commentWidth? s = some w) : w ≤ s.length := by
  obtain ⟨k, hk, rfl⟩ := Option.map_eq_some_iff.mp h
  exact Bytes.indexOf?_le hk

/-! ## Scanning on

A scan counts from `n`. What it takes behind a byte, and behind `k` more, is within the text. -/

/-- A bound behind the first byte is a bound from the byte on. -/
theorem within_cons {n w : Nat} {b : UInt8} {rest : Bytes} (h : w ≤ n + 1 + rest.length) :
    w ≤ n + (b :: rest).length := by
  rw [List.length_cons]
  omega

/-- The same behind the first byte and `k` more. -/
theorem within_cons_drop {n k w : Nat} {b : UInt8} {rest : Bytes} (hk : k ≤ rest.length)
    (h : w ≤ n + 1 + k + (rest.drop k).length) : w ≤ n + (b :: rest).length := by
  rw [List.length_drop] at h
  rw [List.length_cons]
  omega

/-- There is a text where something comes next. -/
theorem length_pos_of_head? {rest : Bytes} {b : UInt8} (h : rest.head? = some b) :
    0 < rest.length := List.length_pos_iff.mpr fun hnil => by simp [hnil] at h

/-! ## Strings, templates and regular expressions -/

/-- A string ends in the text. -/
theorem Quoted.width_scanFrom_le (oneLine : Bool) (q : UInt8) (n : Nat) (s : Bytes) :
    (Quoted.scanFrom oneLine q n s).width ≤ n + s.length := by
  fun_induction Quoted.scanFrom oneLine q n s with
  | case1 n => exact Nat.le_refl _
  | case2 n => simp
  | case3 n b rest ih =>
    simp only [List.length_cons]
    omega
  | case4 n rest _ => simp
  | case5 n b rest _ _ _ => simp
  | case6 n b rest _ _ _ ih =>
    rw [List.length_cons]
    omega

/-- A regular expression ends in the text. -/
theorem Regex.width_scanFrom_le (inClass : Bool) (n : Nat) (s : Bytes) :
    (Regex.scanFrom inClass n s).width ≤ n + s.length := by
  fun_induction Regex.scanFrom inClass n s with
  | case7 inClass n b rest =>
    -- the flags behind the closing slash
    have := Bytes.run_le Token.continuesIdent rest
    simp only [List.length_cons]
    omega
  | _ =>
    simp only [List.length_cons, List.length_nil] at *
    omega

/-- An open construct is closed by a byte that is there. -/
theorem Open.ne_nil_of_scanFrom {n w : Nat} {top : Open} {below : List Open} {s : Bytes}
    (h : Open.scanFrom n (top :: below) s = some w) : s ≠ [] := by
  rintro rfl
  rw [Open.scanFrom] at h
  exact absurd h (by simp)

/-- A template ends in the text, with all that is open in it. By induction on the scan, which takes
a byte in each round, or a literal or comment that is in the text as a whole. -/
theorem Open.scanFrom_le {n w : Nat} {stack : List Open} {s : Bytes}
    (h : Open.scanFrom n stack s = some w) : w ≤ n + s.length := by
  fun_induction Open.scanFrom n stack s with
  | case1 n s =>
    obtain rfl := Option.some.inj h
    exact Nat.le_add_right _ _
  | case2 => exact absurd h (by simp)
  | case3 n below rest ih =>
    -- the byte behind a backslash
    have hne := Open.ne_nil_of_scanFrom h
    refine within_cons_drop (k := 1) ?_ (ih h)
    rw [ne_eq, List.drop_eq_nil_iff] at hne
    omega
  | case5 n below b rest _ _ hcode ih =>
    exact within_cons_drop (k := 1) (length_pos_of_head? hcode.2) (ih h)
  | case7 n below b rest _ _ w ih =>
    refine within_cons_drop ?_ (ih h)
    have := Quoted.width_scanFrom_le true b 0 rest
    rwa [Nat.zero_add] at this
  | case9 n below b rest _ _ _ _ w ih => exact within_cons_drop (Bytes.run_le _ rest) (ih h)
  | case10 => exact absurd h (by simp)
  | case11 n below b rest _ _ _ _ hstar w hw ih =>
    have hle := commentWidth?_le hw
    rw [List.length_drop] at hle
    have hpos := length_pos_of_head? hstar.2
    refine within_cons_drop (k := 1 + w) (by omega) ?_
    have := ih h
    omega
  | _ =>
    rename_i ih
    exact within_cons (ih h)

/-- A template that is closed ends in the text. -/
theorem templateWidth?_le {s : Bytes} {w : Nat} (h : templateWidth? s = some w) : w ≤ s.length := by
  have := Open.scanFrom_le h
  rwa [Nat.zero_add] at this

/-- So does code in braces. -/
theorem bracedWidth?_le {s : Bytes} {w : Nat} (h : bracedWidth? s = some w) : w ≤ s.length := by
  have := Open.scanFrom_le h
  rwa [Nat.zero_add] at this

/-! ## Markup -/

/-- Markup ends in the text. By induction on the scan, which takes a closing tag, a literal in
quotes and code in braces in one round each. -/
theorem Markup.scanFrom_le {n w : Nat} {place : Markup} {s : Bytes}
    (h : Markup.scanFrom n place s = some w) : w ≤ n + s.length := by
  -- a closing tag is a slash, a name and a greater sign
  have hclose : ∀ {rest : Bytes} {w : Nat}, rest.head? = some slash →
      Bytes.indexOf? [greater] (rest.drop 1) = some w → 2 + w ≤ rest.length := by
    intro rest w hslash hw
    have hle := Bytes.indexOf?_le hw
    have hpos := length_pos_of_head? hslash
    rw [List.length_drop, List.length_singleton] at hle
    omega
  fun_induction Markup.scanFrom n place s with
  | case1 | case4 | case6 | case7 | case14 | case15 => exact absurd h (by simp)
  | case2 n rest hslash v hv =>
    obtain rfl := Option.some.inj h
    have := hclose hslash hv
    rw [List.length_cons]
    omega
  | case3 n rest hslash v depth _ hv ih =>
    refine within_cons_drop (hclose hslash hv) ?_
    have := ih h
    omega
  | case8 n rest depth _ v hv _ ih => exact within_cons_drop (bracedWidth?_le hv) (ih h)
  | case10 n b rest hend =>
    obtain rfl := Option.some.inj h
    have := length_pos_of_head? hend.2
    rw [List.length_cons]
    omega
  | case11 n b rest depth hend _ ih =>
    exact within_cons_drop (k := 1) (length_pos_of_head? hend.2) (ih h)
  | case13 n b rest depth _ _ _ q _ ih =>
    refine within_cons_drop ?_ (ih h)
    have := Quoted.width_scanFrom_le false b 0 rest
    rwa [Nat.zero_add] at this
  | case16 n rest depth v hv _ _ _ ih => exact within_cons_drop (bracedWidth?_le hv) (ih h)
  | case5 | case9 | case12 | case17 =>
    rename_i ih
    exact within_cons (ih h)

/-- So does an element that is closed. -/
theorem Markup.width?_le {s : Bytes} {w : Nat} (h : Markup.width? s = some w) : w ≤ s.length := by
  have hscan : Markup.scanFrom 0 (.content 0) s = some w → w ≤ s.length := by
    intro h
    have := Markup.scanFrom_le h
    rwa [Nat.zero_add] at this
  unfold Markup.width? at h
  split at h
  · exact absurd h (by simp)
  · split at h
    · exact hscan h
    · split at h
      · exact absurd h (by simp)
      · split at h
        · exact absurd h (by simp)
        · exact hscan h

/-! ## Numbers -/

namespace NumberLit

theorem digitRun_le (s : Bytes) : digitRun s ≤ s.length := Bytes.run_le _ s

theorem fractionWidth_le (s : Bytes) : fractionWidth s ≤ s.length := by
  unfold fractionWidth
  split
  · rename_i h
    obtain ⟨t, rfl⟩ := List.head?_eq_some_iff.mp h
    have := digitRun_le t
    rw [List.length_cons, List.tail_cons]
    omega
  · exact Nat.zero_le _

theorem exponentWidth_le (s : Bytes) : exponentWidth s ≤ s.length := by
  unfold exponentWidth
  split
  · split
    · split
      · rename_i c tail
        have hrest := digitRun_le (c :: tail)
        have htail := digitRun_le tail
        split
        · rw [List.length_cons]
          omega
        · split
          · rw [List.length_cons, List.length_cons]
            omega
          · exact Nat.zero_le _
      · exact Nat.zero_le _
    · exact Nat.zero_le _
  · exact Nat.zero_le _

theorem suffixWidth_le (s : Bytes) : suffixWidth s ≤ s.length := by
  unfold suffixWidth
  split
  · rename_i h
    obtain ⟨t, rfl⟩ := List.head?_eq_some_iff.mp h
    simp
  · exact Nat.zero_le _

/-- A part of a number behind others. -/
theorem add_le_of_drop {f : Bytes → Nat} (hf : ∀ s, f s ≤ s.length) {n : Nat} {s : Bytes}
    (hn : n ≤ s.length) : n + f (s.drop n) ≤ s.length := by
  have := hf (s.drop n)
  rw [List.length_drop] at this
  omega

/-- A number takes no more than there is. -/
theorem more_le (first : UInt8) (rest : Bytes) : more first rest ≤ rest.length := by
  unfold more
  split
  · rename_i hbase
    have hpos : 0 < rest.length := List.length_pos_iff.mpr fun hnil => by simp [hnil] at hbase
    have hdigits := Bytes.run_le (fun b => isHexDigit b || b == underscore) rest.tail
    rw [List.length_tail] at hdigits
    exact add_le_of_drop suffixWidth_le (by omega)
  · have hwhole := digitRun_le rest
    have hmantissa : digitRun rest + (if first = dot then 0 else fractionWidth
        (rest.drop (digitRun rest))) ≤ rest.length := by
      split
      · exact hwhole
      · exact add_le_of_drop fractionWidth_le hwhole
    exact add_le_of_drop suffixWidth_le (add_le_of_drop exponentWidth_le hmantissa)

end NumberLit

/-! ## Lexemes -/

namespace Lexeme

/-- Nor does a template. -/
theorem more_template_le (rest : Bytes) : (template rest).more ≤ rest.length := by
  unfold template
  split
  · rename_i n h
    exact templateWidth?_le h
  · exact Nat.le_refl _

/-- Nor does a private name. -/
theorem more_privateName_le (rest : Bytes) : (privateName rest).more ≤ rest.length := by
  unfold privateName
  split
  · exact Bytes.run_le _ rest
  · exact Nat.zero_le _

/-- Nor does a word. -/
theorem more_word_le (b : UInt8) (rest : Bytes) : (word b rest).more ≤ rest.length := by
  unfold word
  dsimp only
  split <;> exact Bytes.run_le _ rest

/-- The punctuator that is found stands at the front of the text. -/
theorem prefix_of_punct? {s text : Bytes} {p : Punct} (h : punct? s = some (text, p)) :
    text <+: s ∧ text = bytes p.text := by
  unfold punct? at h
  have hmem := List.mem_of_find?_eq_some h
  have hprefix := List.find?_some h
  obtain ⟨q, -, heq⟩ := List.mem_map.mp hmem
  obtain ⟨rfl, rfl⟩ := Prod.mk.inj heq
  dsimp only at hprefix
  rw [Bool.and_eq_true] at hprefix
  exact ⟨List.isPrefixOf_iff_prefix.mp hprefix.1, rfl⟩

/-- Nor does a punctuator. -/
theorem more_punct_le (b : UInt8) (rest : Bytes) : (punct b rest).more ≤ rest.length := by
  unfold punct
  split
  · split
    · rename_i h
      obtain ⟨t, rfl⟩ := List.head?_eq_some_iff.mp h
      simp
    · exact Nat.zero_le _
  · split
    · rename_i text p h
      have := (prefix_of_punct? h).1.length_le
      rw [List.length_cons] at this
      dsimp only
      omega
    · exact Nat.zero_le _

/-- **A lexeme is read from bytes that are there.** There is one case for each reader that the first
byte can call for. -/
theorem more_read_le (dialect : Dialect) (operand : Bool) (b : UInt8) (rest : Bytes) :
    (read dialect operand b rest).more ≤ rest.length := by
  have hquoted : (quoted b rest).more ≤ rest.length := by
    have := Quoted.width_scanFrom_le true b 0 rest
    rwa [Nat.zero_add] at this
  have hregex : (regex rest).more ≤ rest.length := by
    have := Regex.width_scanFrom_le false 0 rest
    rwa [Nat.zero_add] at this
  have hless : (less dialect operand rest).more ≤ rest.length := by
    unfold less
    split
    · rename_i n h
      have := Markup.width?_le (Option.ite_none_right_eq_some.mp h).2
      rw [List.length_cons] at this
      dsimp only
      omega
    · exact more_punct_le _ rest
  unfold read
  split
  · exact NumberLit.more_le b rest
  split
  · exact hquoted
  split
  · exact more_template_le rest
  split
  · exact more_privateName_le rest
  split
  · exact more_word_le b rest
  split
  · exact hregex
  split
  · exact hless
  · exact more_punct_le b rest

end Lexeme

end SignatureLedger
