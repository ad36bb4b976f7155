import SignatureLedger.Proofs.Text.Bytes
import SignatureLedger.Token.Lexer

/-!
# What identifiers are made of

An identifier is a byte that starts one and then bytes that continue it (`isIdentText_of_mem_lex`).
No blank, no hash mark and no other punctuator is in it.
-/

namespace SignatureLedger

open Byte

/-- A text that an identifier can have. -/
structure IsIdentText (w : Bytes) : Prop where
  ne_nil : w ≠ []
  continues : ∀ b ∈ w, Token.continuesIdent b = true

/-- A word has no other bytes than name bytes. -/
theorem IsIdentText.not_mem {w : Bytes} (h : IsIdentText w) {b : UInt8}
    (hb : Token.continuesIdent b = false) : b ∉ w := by
  intro hmem
  rw [h.continues b hmem] at hb
  exact absurd hb (by simp)

/-- Names, reserved words and private names. -/
def TokenKind.isWord : TokenKind → Bool
  | .ident | .keyword _ | .privateName => true
  | _ => false

namespace Lexeme

/-! ## Lexemes -/

/-- A word takes the run of name bytes. -/
theorem more_word (b : UInt8) (rest : Bytes) :
    (word b rest).more = Bytes.run Token.continuesIdent rest := by
  unfold word
  dsimp only
  split <;> rfl

/-- A punctuator is no word. -/
theorem isWord_punct (b : UInt8) (rest : Bytes) : (punct b rest).kind.isWord = false := by
  unfold punct
  split
  · split <;> rfl
  · split <;> rfl

/-- Nothing that starts with a less sign is a word. -/
theorem isWord_less (dialect : Dialect) (operand : Bool) (rest : Bytes) :
    (less dialect operand rest).kind.isWord = false := by
  unfold less
  split
  · rfl
  · exact isWord_punct _ _

/-- A template is no word. -/
theorem isWord_template (rest : Bytes) : (template rest).kind.isWord = false := by
  unfold template
  split <;> rfl

/-- A word is read as a name or, behind a hash mark, as a private name. All other readers give a
token that is no word. -/
theorem read_of_isWord {dialect : Dialect} {operand : Bool} {b : UInt8} {rest : Bytes}
    (h : (read dialect operand b rest).kind.isWord = true) :
    Token.startsIdent b = true ∧ read dialect operand b rest = word b rest ∨
      b = Byte.hash ∧ read dialect operand b rest = privateName rest := by
  unfold read at h ⊢
  split at h
  · exact absurd h Bool.false_ne_true
  split at h
  · exact absurd h Bool.false_ne_true
  split at h
  · exact absurd h (by simp [isWord_template])
  split at h
  · rename_i h₁ h₂ h₃ hhash
    rw [if_neg h₁, if_neg h₂, if_neg h₃, if_pos hhash]
    exact .inr ⟨hhash, rfl⟩
  split at h
  · rename_i h₁ h₂ h₃ h₄ hstarts
    rw [if_neg h₁, if_neg h₂, if_neg h₃, if_neg h₄, if_pos hstarts]
    exact .inl ⟨hstarts, rfl⟩
  split at h
  · exact absurd h Bool.false_ne_true
  split at h
  · exact absurd h (by simp [isWord_less])
  · exact absurd h (by simp [isWord_punct])

/-- A hash mark is no word of its own. -/
theorem of_isWord_privateName {rest : Bytes} (h : (privateName rest).kind.isWord = true) :
    (privateName rest).kind = .privateName ∧
      (privateName rest).more = Bytes.run Token.continuesIdent rest := by
  unfold privateName at h ⊢
  split at h
  · rename_i hstarts
    rw [if_pos hstarts]
    exact ⟨rfl, rfl⟩
  · exact absurd h Bool.false_ne_true

/-- An identifier is read as a name. -/
theorem of_kind_read {dialect : Dialect} {operand : Bool} {b : UInt8} {rest : Bytes}
    (h : (read dialect operand b rest).kind = .ident) :
    Token.startsIdent b = true ∧
      (read dialect operand b rest).more = Bytes.run Token.continuesIdent rest := by
  rcases read_of_isWord (congrArg TokenKind.isWord h) with ⟨hstarts, hread⟩ | ⟨-, hread⟩
  · exact ⟨hstarts, hread ▸ more_word b rest⟩
  · rw [hread] at h
    have hkind := (of_isWord_privateName (congrArg TokenKind.isWord h)).1
    exact absurd (hkind.symm.trans h) (by simp)

/-- **Words are read as long as they go on.** -/
theorem more_of_isWord {dialect : Dialect} {operand : Bool} {b : UInt8} {rest : Bytes}
    (h : (read dialect operand b rest).kind.isWord = true) :
    (read dialect operand b rest).more = Bytes.run Token.continuesIdent rest := by
  rcases read_of_isWord h with ⟨-, hread⟩ | ⟨-, hread⟩
  · exact hread ▸ more_word b rest
  · rw [hread] at h ⊢
    exact (of_isWord_privateName h).2

/-- The text of a reserved word is the one that it is known by. -/
theorem text_of_keyword {dialect : Dialect} {operand : Bool} {b : UInt8} {rest : Bytes}
    {k : Keyword} (h : (read dialect operand b rest).kind = .keyword k) :
    b :: rest.take (read dialect operand b rest).more = bytes k.text := by
  rcases read_of_isWord (congrArg TokenKind.isWord h) with ⟨-, hread⟩ | ⟨-, hread⟩
  · rw [hread] at h ⊢
    rw [more_word]
    unfold word at h
    dsimp only at h
    split at h
    · rename_i k' hk
      obtain rfl : k' = k := by simpa using h
      obtain ⟨⟨w, k''⟩, hfind, rfl⟩ := Option.map_eq_some_iff.mp hk
      have hw : w = b :: rest.take (Bytes.run Token.continuesIdent rest) := by
        simpa using List.find?_some hfind
      obtain ⟨k, -, hpair⟩ := List.mem_map.mp (List.mem_of_find?_eq_some hfind)
      obtain ⟨rfl, rfl⟩ := Prod.mk.inj hpair
      exact hw.symm
    · exact absurd h (by simp)
  · rw [hread] at h
    have hkind := (of_isWord_privateName (congrArg TokenKind.isWord h)).1
    exact absurd (hkind.symm.trans h) (by simp)

end Lexeme

/-! ## Identifiers of a source -/

/-- The names of the lexer are words as the grammar has them. -/
theorem isIdentText_of_mem_lexFrom {dialect : Dialect} {size pos : Nat} {operand : Bool} {gap : Gap}
    {s : Bytes} {t : Token} (ht : t ∈ (lexFrom dialect size operand pos gap s).tokens)
    (hkind : t.kind = .ident) : IsIdentText t.lexeme := by
  fun_induction lexFrom dialect size operand pos gap s with
  | case1 operand pos gap s h =>
    obtain rfl := List.mem_singleton.mp ht
    exact absurd hkind (by simp [Token.eofAt])
  | case2 operand pos gap s b rest h l lo hi after ih =>
    rcases List.mem_cons.mp ht with rfl | ht
    · obtain ⟨hstarts, hmore⟩ := Lexeme.of_kind_read hkind
      refine ⟨by simp, fun c hc => ?_⟩
      rw [hmore, Bytes.take_run] at hc
      rcases List.mem_cons.mp hc with rfl | hc
      · rw [Token.continuesIdent, hstarts, Bool.true_or]
      · exact List.mem_takeWhile_imp hc
    · exact ih ht

/-- **Identifiers are made of the bytes that continue one.** -/
theorem isIdentText_of_mem_lex {dialect : Dialect} {source : Bytes} {t : Token}
    (ht : t ∈ (lex dialect source).tokens) (hkind : t.kind = .ident) : IsIdentText t.lexeme := by
  unfold lex at ht
  split at ht
  · obtain rfl := List.mem_singleton.mp ht
    exact absurd hkind (by simp [Token.eofAt])
  · exact isIdentText_of_mem_lexFrom ht hkind

end SignatureLedger
