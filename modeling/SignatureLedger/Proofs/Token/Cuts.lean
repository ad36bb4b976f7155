import SignatureLedger.Proofs.Text.Bytes
import SignatureLedger.Proofs.Text.Utf8
import SignatureLedger.Proofs.Token.Numbers
import SignatureLedger.Proofs.Token.Tiles
import SignatureLedger.Proofs.Token.Words

/-!
# Lexemes end between characters

Each scanner ends at the end of the text or beside a byte of ASCII: the delimiter that closes the
literal, or the one behind a name (`Lexeme.cutsAt_read`). The byte that a backslash takes along may
be the first one of a longer character, but the scan does not end there.
-/

namespace SignatureLedger

open Byte Utf8

/-! ## Scans -/

/-- A scan that counts on from `n` through the text ends at `w`, between two characters. -/
def EndsBetween (n : Nat) (s : Bytes) (w : Nat) : Prop := ∃ k, w = n + k ∧ CutsAt s k

namespace EndsBetween

variable {n w : Nat} {b : UInt8} {rest s : Bytes}

/-- Behind a byte and `j` more. -/
theorem behind {j : Nat} (h : EndsBetween (n + 1 + j) (rest.drop j) w) :
    EndsBetween n (b :: rest) w := by
  obtain ⟨k, rfl, hcuts⟩ := h
  exact ⟨j + k + 1, by omega, hcuts.of_drop.cons b⟩

/-- One byte further the end is the same. -/
theorem next (h : EndsBetween (n + 1) rest w) : EndsBetween n (b :: rest) w := behind (j := 0) h

/-- The scan is over behind a byte of ASCII. -/
theorem here (hb : isHigh b = false) : EndsBetween n (b :: rest) (n + 1) := ⟨1, rfl, .behind rfl hb⟩

/-- A stretch that ends between characters is a place to cut. -/
theorem cutsAt (h : EndsBetween 0 s w) : CutsAt s w := by
  obtain ⟨k, rfl, hcuts⟩ := h
  rwa [Nat.zero_add]

end EndsBetween

/-- A run that no byte of a longer character stops. -/
theorem cutsAt_run {p : UInt8 → Bool} (hp : ∀ b, isHigh b = true → p b = true) (s : Bytes) :
    CutsAt s (Bytes.run p s) := by
  induction s with
  | nil => exact .atEnd (Nat.zero_le _)
  | cons b s ih =>
    cases hb : p b with
    | true =>
      rw [Bytes.run, List.takeWhile_cons_of_pos hb, List.length_cons]
      exact ih.cons b
    | false =>
      rw [Bytes.run, List.takeWhile_cons_of_neg (by simp [hb])]
      refine .before (b := b) rfl ?_
      rw [← Bool.not_eq_true]
      intro hhigh
      rw [hp b hhigh] at hb
      exact absurd hb (by simp)

/-- A run of name bytes ends between characters, since every high byte belongs to the run. -/
theorem cutsAt_run_continuesIdent (s : Bytes) : CutsAt s (Bytes.run Token.continuesIdent s) := by
  refine cutsAt_run (fun b hb => ?_) s
  rw [Token.continuesIdent, Token.startsIdent, hb]
  rfl

/-! ## Strings, templates and regular expressions -/

/-- A string ends behind an ASCII byte or before a line feed. -/
theorem Quoted.endsBetween_scanFrom {q : UInt8} (hq : isHigh q = false) (oneLine : Bool) (n : Nat)
    (s : Bytes) : EndsBetween n s (Quoted.scanFrom oneLine q n s).width := by
  fun_induction Quoted.scanFrom oneLine q n s with
  | case1 n => exact ⟨0, rfl, .atEnd (Nat.zero_le _)⟩
  | case2 n => exact .here (by decide)
  | case3 n c rest ih => exact ih.next.next
  | case4 n rest _ => exact .here hq
  | case5 n b rest _ _ hline =>
    rw [hline.1]
    exact ⟨0, rfl, .before rfl (by decide)⟩
  | case6 n b rest _ _ _ ih => exact ih.next

/-- A regular expression ends behind an ASCII byte and a run of name bytes. -/
theorem Regex.endsBetween_scanFrom (inClass : Bool) (n : Nat) (s : Bytes) :
    EndsBetween n s (Regex.scanFrom inClass n s).width := by
  fun_induction Regex.scanFrom inClass n s with
  | case1 inClass n => exact ⟨0, rfl, .atEnd (Nat.zero_le _)⟩
  | case2 inClass n rest => exact ⟨0, rfl, .before rfl (by decide)⟩
  | case3 => exact .here (by decide)
  | case4 inClass n c rest _ ih => exact ih.next.next
  | case7 inClass n b rest =>
    -- the flags behind the closing slash
    exact .next ⟨_, rfl, cutsAt_run_continuesIdent rest⟩
  | _ =>
    rename_i ih
    exact ih.next

/-- The last construct ends behind the backquote or the brace that closes it. By induction on the
scan, which ends when its stack is empty. -/
theorem Open.endsBetween_scanFrom {n w : Nat} {stack : List Open} {s : Bytes}
    (h : Open.scanFrom n stack s = some w) (hne : stack ≠ []) : EndsBetween n s w := by
  have hclose : ∀ {n : Nat} {b : UInt8} {rest : Bytes} {below : List Open}, isHigh b = false →
      Open.scanFrom (n + 1) below rest = some w →
      (below ≠ [] → EndsBetween (n + 1) rest w) → EndsBetween n (b :: rest) w := by
    intro n b rest below hb hscan hbelow
    cases below with
    | nil =>
      rw [Open.scanFrom] at hscan
      obtain rfl := Option.some.inj hscan
      exact .here hb
    | cons top below => exact (hbelow (by simp)).next
  fun_induction Open.scanFrom n stack s with
  | case1 => exact absurd rfl hne
  | case2 | case10 => exact absurd h (by simp)
  | case3 n below rest ih | case5 n below b rest _ _ _ ih =>
    exact .behind (j := 1) (ih h (by simp))
  | case4 n below rest _ ih => exact hclose (by decide) h (ih h)
  | case7 n below b rest _ _ w' ih | case9 n below b rest _ _ _ _ w' ih =>
    exact .behind (ih h (by simp))
  | case11 n below b rest _ _ _ _ _ w' _ ih =>
    refine .behind (j := 1 + w') ?_
    rw [← Nat.add_assoc]
    exact ih h (by simp)
  | case13 n below rest _ _ _ _ _ ih => exact hclose (by decide) h (ih h)
  | case6 | case8 | case12 | case14 | case15 =>
    rename_i ih
    exact .next (ih h (by simp))

/-! ## Markup -/

/-- A byte that is looked for stands where it is found. -/
theorem Bytes.getElem?_of_indexOf? {b : UInt8} {s : Bytes} {n : Nat}
    (h : Bytes.indexOf? [b] s = some n) : s[n]? = some b := by
  induction s generalizing n with
  | nil => exact absurd h (by simp [Bytes.indexOf?])
  | cons c s ih =>
    rw [Bytes.indexOf?] at h
    split at h
    · rename_i hprefix
      obtain rfl := Option.some.inj h
      obtain ⟨t, ht⟩ := List.isPrefixOf_iff_prefix.mp hprefix
      rw [(List.cons.inj ht).1]
      rfl
    · obtain ⟨k, hk, rfl⟩ := Option.map_eq_some_iff.mp h
      exact ih hk

/-- A markup element ends behind a greater sign. By induction on the scan, which ends behind a
closing tag or an empty element. -/
theorem Markup.endsBetween_scanFrom {n w : Nat} {place : Markup} {s : Bytes}
    (h : Markup.scanFrom n place s = some w) : EndsBetween n s w := by
  fun_induction Markup.scanFrom n place s with
  | case1 | case4 | case6 | case7 | case14 | case15 => exact absurd h (by simp)
  | case2 n rest _ v hv =>
    obtain rfl := Option.some.inj h
    refine .behind (j := 1) ⟨v + 1, by omega, .behind (Bytes.getElem?_of_indexOf? hv) (by decide)⟩
  | case3 n rest _ v depth _ hv ih =>
    refine .behind (j := 2 + v) ?_
    rw [← Nat.add_assoc]
    exact ih h
  | case8 n rest depth _ v hv _ ih => exact .behind (ih h)
  | case10 n b rest hend =>
    obtain rfl := Option.some.inj h
    obtain ⟨t, rfl⟩ := List.head?_eq_some_iff.mp hend.2
    exact .next (.here (by decide))
  | case11 n b rest depth hend _ ih => exact .behind (j := 1) (ih h)
  | case13 n b rest depth _ _ _ q _ ih => exact .behind (ih h)
  | case16 n rest depth v hv _ _ _ ih => exact .behind (ih h)
  | case5 | case9 | case12 | case17 =>
    rename_i ih
    exact .next (ih h)

/-- So the text can be cut behind a markup element. -/
theorem Markup.cutsAt_width? {s : Bytes} {w : Nat} (h : Markup.width? s = some w) :
    CutsAt s w := by
  have hscan : Markup.scanFrom 0 (.content 0) s = some w → CutsAt s w :=
    fun h => (Markup.endsBetween_scanFrom h).cutsAt
  unfold Markup.width? at h
  split at h
  · exact absurd h (by simp)
  split at h
  · exact hscan h
  split at h
  · exact absurd h (by simp)
  split at h
  · exact absurd h (by simp)
  · exact hscan h

/-! ## Lexemes -/

/-- Every byte is one of ASCII. -/
def IsAscii (s : Bytes) : Prop := ∀ b ∈ s, isHigh b = false

/-- Numbers are ASCII. -/
theorem NumberLit.IsText.isAscii {s : Bytes} (h : NumberLit.IsText s) : IsAscii s := by
  intro b hb
  have := h b hb
  grind [NumberLit.isByte, isAlphanumeric, isAlpha, isUpper, isLower, isDigit, isHigh]

/-- Signs are ASCII. -/
theorem Punct.isAscii_text (p : Punct) : IsAscii (bytes p.text) := by
  cases p <;> unfold IsAscii <;> decide +kernel

namespace Lexeme

/-- A lexeme of ASCII bytes. -/
theorem cutsAt_of_isAscii {b : UInt8} {rest : Bytes} {k : Nat} (hk : k ≤ rest.length)
    (h : IsAscii (b :: rest.take k)) : CutsAt (b :: rest) (k + 1) :=
  .of_plain (Nat.lt_succ_of_le hk) (List.take_succ_cons ▸ h)

/-- A string token is a place to cut. -/
theorem cutsAt_quoted {q : UInt8} (hq : isHigh q = false) (rest : Bytes) :
    CutsAt (q :: rest) ((quoted q rest).more + 1) :=
  (Quoted.endsBetween_scanFrom hq true 0 rest).cutsAt.cons q

/-- So is a template token. -/
theorem cutsAt_template (rest : Bytes) : CutsAt (backquote :: rest) ((template rest).more + 1) := by
  unfold template
  split
  · rename_i n h
    exact (Open.endsBetween_scanFrom h (by simp)).cutsAt.cons backquote
  · exact .atEnd (Nat.le_refl _)

/-- So is a regular expression. -/
theorem cutsAt_regex (rest : Bytes) : CutsAt (slash :: rest) ((regex rest).more + 1) :=
  (Regex.endsBetween_scanFrom false 0 rest).cutsAt.cons slash

/-- So is a word, whatever its bytes. -/
theorem cutsAt_word (b : UInt8) (rest : Bytes) : CutsAt (b :: rest) ((word b rest).more + 1) :=
  more_word b rest ▸ (cutsAt_run_continuesIdent rest).cons b

/-- So is a private name. -/
theorem cutsAt_privateName (rest : Bytes) :
    CutsAt (Byte.hash :: rest) ((privateName rest).more + 1) := by
  unfold privateName
  split
  · exact (cutsAt_run_continuesIdent rest).cons Byte.hash
  · exact .behind (b := Byte.hash) rfl (by decide)

/-- An unknown punctuator is one byte. -/
theorem more_of_unknownPunct {b : UInt8} {rest : Bytes}
    (h : (punct b rest).kind = .unknownPunct) : (punct b rest).more = 0 := by
  unfold punct at h ⊢
  split at h
  · split at h <;> exact absurd h (by simp)
  · rename_i hslash
    rw [if_neg hslash]
    split at h
    · exact absurd h (by simp)
    · rfl

/-- A punctuator is ASCII if its first byte is. -/
theorem isAscii_punct {b : UInt8} (hb : isHigh b = false) (rest : Bytes) :
    IsAscii (b :: rest.take (punct b rest).more) := by
  rcases kind_punct b rest with ⟨p, hp⟩ | hunknown
  · rw [text_of_punct hp]
    exact Punct.isAscii_text p
  · rw [more_of_unknownPunct hunknown, List.take_zero]
    intro c hc
    rwa [List.mem_singleton.mp hc]

/-- A punctuator that starts with an ASCII byte is a place to cut. -/
theorem cutsAt_punct {b : UInt8} (hb : isHigh b = false) (rest : Bytes) :
    CutsAt (b :: rest) ((punct b rest).more + 1) :=
  cutsAt_of_isAscii (more_punct_le b rest) (isAscii_punct hb rest)

/-- What a less sign starts is one as well: an element or a sign. -/
theorem cutsAt_less (dialect : Dialect) (operand : Bool) (rest : Bytes) :
    CutsAt (Byte.less :: rest) ((less dialect operand rest).more + 1) := by
  unfold less
  split
  · rename_i n h
    have hwidth := (Option.ite_none_right_eq_some.mp h).2
    cases n with
    | zero => exact .behind (b := Byte.less) rfl (by decide)
    | succ n => exact Markup.cutsAt_width? hwidth
  · exact cutsAt_punct (by decide) rest

/-- **A lexeme ends between characters.** There is one case for each reader that the first byte can
call for. -/
theorem cutsAt_read (dialect : Dialect) (operand : Bool) (b : UInt8) (rest : Bytes) :
    CutsAt (b :: rest) ((read dialect operand b rest).more + 1) := by
  unfold read
  split
  · rename_i hnumber
    exact cutsAt_of_isAscii (NumberLit.more_le b rest) (NumberLit.isText_of_first hnumber).isAscii
  split
  · rename_i hquote
    exact cutsAt_quoted (by rcases hquote with rfl | rfl <;> decide) rest
  split
  · rename_i hb
    exact hb ▸ cutsAt_template rest
  split
  · rename_i hb
    exact hb ▸ cutsAt_privateName rest
  split
  · exact cutsAt_word b rest
  split
  · rename_i hb
    exact hb.1 ▸ cutsAt_regex rest
  split
  · rename_i hb
    exact hb ▸ cutsAt_less dialect operand rest
  · -- a byte of a longer character starts a word
    rename_i hword _ _
    refine cutsAt_punct ?_ rest
    rw [← Bool.not_eq_true]
    intro hhigh
    exact hword (by rw [Token.startsIdent, hhigh]; rfl)

end Lexeme

end SignatureLedger
