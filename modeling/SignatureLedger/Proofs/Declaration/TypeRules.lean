import SignatureLedger.Proofs.Declaration.StretchRules

/-!
# The rules of types

The functions that take a type carry the proof that no token comes back. Here each of them is given
as a plain equation between states, one for each level of the grammar, and a name alone is shown to
be taken exactly.
-/

namespace SignatureLedger

namespace Parser

/-! ## One equation for each level -/

/-- Takes a union. -/
def skipUnion (p : Parser) : Parser := (unionFrom p).1

/-- Takes the primaries of a union after the first one. -/
def skipUnionTail (p : Parser) : Parser := (unionTail p).1

/-- Takes a primary type with what follows it. -/
def skipPrimary (p : Parser) : Parser := (primaryFrom p).1

/-- Takes what follows the head of a primary type. -/
def skipTypeTail (head : TypeHead) (p : Parser) : Parser := (typeTail head p).1

/-- A type is a union, and a condition with two branches behind it. The definition carries the
proofs that it moves forward; here they are left out. -/
theorem skipType_eq (p : Parser) :
    p.skipType =
      if p.halted then p
      else if p.skipUnion.isKeyword .extendsKw then
        let r := p.skipUnion.bump.skipUnion
        if r.isPunct .question then
          let s := r.bump.skipType.expect .colon
          if s.1 then s.2.skipType else s.2
        else r
      else p.skipUnion := by
  show (typeFrom p).1 = _
  rw [typeFrom]
  by_cases hh : p.halted = true
  · rw [if_pos hh, if_pos hh]
  rw [if_neg hh, if_neg hh]
  by_cases hk : p.skipUnion.isKeyword .extendsKw = true
  · rw [if_pos hk]
    by_cases hc : p.skipUnion.bump.skipUnion.isPunct .question = true
    · rw [if_pos hc]
      dsimp only
      rw [dif_pos (c := (unionFrom p).1.isKeyword .extendsKw = true) hk,
        dif_pos (c := (unionFrom (unionFrom p).1.bump).1.isPunct .question = true) hc]
      exact apply_ite Subtype.val _ _ _
    · rw [if_neg hc]
      dsimp only
      rw [dif_pos (c := (unionFrom p).1.isKeyword .extendsKw = true) hk,
        dif_neg (c := (unionFrom (unionFrom p).1.bump).1.isPunct .question = true) hc]
      rfl
  · rw [if_neg hk]
    dsimp only
    rw [dif_neg (c := (unionFrom p).1.isKeyword .extendsKw = true) hk]
    rfl

/-- A union is its sign, a type, and further ones. -/
theorem skipUnion_eq (p : Parser) : p.skipUnion = p.skipUnionSign.skipPrimary.skipUnionTail := by
  simp only [skipUnion, skipUnionTail, skipPrimary]
  rw [unionFrom]

/-- Each further type of a union stands behind its sign. -/
theorem skipUnionTail_eq (p : Parser) :
    p.skipUnionTail =
      if p.isPunct .bar || p.isPunct .amp then p.bump.skipPrimary.skipUnionTail else p := by
  simp only [skipUnionTail, skipPrimary]
  rw [unionTail]
  split <;> rfl

/-- A single type is its head, and what follows that. -/
theorem skipPrimary_eq (p : Parser) :
    p.skipPrimary = p.typeHead.2.skipTypeTail p.typeHead.1 := by
  simp only [skipTypeTail, skipPrimary]
  rw [primaryFrom]

/-- What follows a head: an arrow with a type, a predicate, or suffixes. As in `skipType_eq`, the
proofs that the definition carries are left out. -/
theorem skipTypeTail_eq (head : TypeHead) (p : Parser) :
    p.skipTypeTail head =
      if head = .missing then p
      else if (head = .generic ∨ head = .parens) ∧ p.isPunct .arrow = true then p.bump.skipType
      else if head = .generic then p
      else if p.takeArrays.isWord "is" = true ∧ p.takeArrays.peek.newlineBefore = false then
        p.takeArrays.bump.skipType
      else p.takeArrays := by
  simp only [skipTypeTail, skipType]
  rw [typeTail]
  by_cases hm : head = .missing
  · rw [if_pos hm, if_pos hm]
  rw [if_neg hm, if_neg hm]
  by_cases ha : (head = .generic ∨ head = .parens) ∧ p.isPunct .arrow = true
  · rw [dif_pos ha, if_pos ha]
  rw [dif_neg ha, if_neg ha]
  by_cases hg : head = .generic
  · rw [if_pos hg, if_pos hg]
  rw [if_neg hg, if_neg hg]
  dsimp only
  by_cases hi : p.takeArrays.isWord "is" = true ∧ p.takeArrays.peek.newlineBefore = false
  · rw [dif_pos hi, if_pos hi]
  · rw [dif_neg hi, if_neg hi]

/-! ## Heads of types -/

/-- Takes the head of a primary type that starts with a token of this kind, behind its operators. -/
def headBy (k : TokenKind) (p : Parser) : TypeHead × Parser :=
  match k with
  | .punct .less => (.generic, p.takeAngle.takeParens)
  | .punct .openParen => (.parens, p.takeGroup)
  | .punct .openBracket | .punct .openBrace => (.other, p.takeGroup)
  | .stringLit | .numberLit | .templateLit => (.other, p.bump)
  | .punct .minus =>
    (.other, if p.bump.peek.kind = .numberLit then p.bump.bump else p.bump)
  | .keyword .importKw => (.other, p.bump.takeParens.takePath)
  | .ident | .keyword _ => (.other, p.bump.takePath)
  | .eof =>
    (.missing, { p.report .unexpectedEof p.peek.span (bytes "type") with halted := true })
  | _ => (.missing, p.report .unexpectedToken p.peek.span p.peek.lexeme)

/-- The head of a type is read behind its operators. -/
theorem typeHead_eq (p : Parser) :
    p.typeHead =
      headBy (p.take (Extent.operators p.ahead)).peek.kind (p.take (Extent.operators p.ahead)) := rfl

/-- What the head turns out to be depends on the kind of its first token alone. -/
theorem headBy_fst (k : TokenKind) (p q : Parser) : (headBy k p).1 = (headBy k q).1 := by
  unfold headBy
  split <;> rfl

/-- A reserved word other than `import` is a name like any other. -/
theorem headBy_keyword {k : Keyword} (hk : k ≠ .importKw) (p : Parser) :
    headBy (.keyword k) p = (.other, p.bump.takePath) := by
  unfold headBy
  split <;> simp_all

/-! ## Parts of a level -/

/-- The second branch of a conditional type. -/
def skipOtherwise (p : Parser) : Parser :=
  if (p.expect .colon).1 then (p.expect .colon).2.skipType else (p.expect .colon).2

/-- What a conditional type has behind the type that it tests for. -/
def skipBranches (p : Parser) : Parser :=
  if p.isPunct .question then skipOtherwise p.bump.skipType else p

/-- What a type has behind its first union. -/
def skipConditional (p : Parser) : Parser :=
  if p.isKeyword .extendsKw then skipBranches p.bump.skipUnion else p

/-- The type behind the word `is`. -/
def skipPredicate (p : Parser) : Parser :=
  if p.isWord "is" = true ∧ p.peek.newlineBefore = false then p.bump.skipType else p

/-- A type is a union, with its condition. -/
theorem skipType_eq_conditional (p : Parser) :
    p.skipType = if p.halted then p else skipConditional p.skipUnion := skipType_eq p

/-- What follows a head, with the predicate named. -/
theorem skipTypeTail_eq_predicate (head : TypeHead) (p : Parser) :
    p.skipTypeTail head =
      if head = .missing then p
      else if (head = .generic ∨ head = .parens) ∧ p.isPunct .arrow = true then p.bump.skipType
      else if head = .generic then p
      else skipPredicate p.takeArrays := skipTypeTail_eq head p

/-- A union leaves no more tokens. -/
theorem left_skipUnion_le (p : Parser) : p.skipUnion.left ≤ p.left := (unionFrom p).2

/-- A single type leaves no more tokens. -/
theorem left_skipPrimary_le (p : Parser) : p.skipPrimary.left ≤ p.left := (primaryFrom p).2

/-! ## A name alone -/

/-- A name with nothing behind it that could belong to a type is a type by itself. -/
theorem skipType_of_name {p : Parser} {t u : Token} {rest : List Token} {k : Punct}
    (h : p.ahead = t :: u :: rest) (hh : p.halted = false) (ht : t.kind = .ident)
    (hop : t.isTypeOperator = false) (hu : u.kind = .punct k)
    (hk : k ∉ [.dot, .less, .openBracket, .bar, .amp]) : p.skipType = p.advance 1 := by
  have h₁ : p.bump.ahead = u :: rest := ahead_bump_of_cons h
  have hpunct : ∀ j ∈ [Punct.dot, .less, .openBracket, .bar, .amp], u.isPunct j = false := by
    intro j hj
    rw [Token.isPunct, hu, beq_eq_false_iff_ne]
    intro heq
    rw [TokenKind.punct.inj heq] at hk
    exact hk hj
  -- each level of the grammar ends at `u`: operators, path, arrays, union and condition
  have hoperators : typeOperatorsWidth p.ahead = 0 := by
    rw [h, typeOperatorsWidth, hop]
    simp [Token.isKeyword, ht, hu]
  have hpath : pathWidth p.bump.ahead = 0 := by
    rw [h₁]
    cases rest with
    | nil => rfl
    | cons v rest => rw [pathWidth, hpunct _ (by decide)]; rfl
  have htake : p.bump.takePath = p.bump := by
    rw [takePath, hpath, advance_zero, takeAngle_of_not h₁ (hpunct _ (by decide))]
  have hhead : p.typeHead = (.other, p.bump) := by
    rw [typeHead, hoperators, advance_zero]
    simp only [peek_of_ahead h, ht, htake]
  have harrays : p.bump.takeArrays = p.bump := by
    rw [takeArrays, h₁, Extent.arraySuffix, hpunct _ (by decide)]
    rfl
  have hprimary : p.skipPrimary = p.bump := by
    rw [skipPrimary_eq, hhead, skipTypeTail_eq, harrays, isWord_of_ahead h₁, Token.isWord, hu]
    simp
  have hsign : p.skipUnionSign = p := by
    rw [skipUnionSign, isPunct_of_ahead h, isPunct_of_ahead h, Token.isPunct, Token.isPunct, ht]
    rfl
  have hunion : p.skipUnion = p.bump := by
    rw [skipUnion_eq, hsign, hprimary, skipUnionTail_eq, isPunct_of_ahead h₁, isPunct_of_ahead h₁,
      hpunct _ (by decide), hpunct _ (by decide)]
    rfl
  rw [skipType_eq, hh, if_neg (by decide), hunion, isKeyword_of_ahead h₁, Token.isKeyword, hu,
    if_neg (by simp)]
  rfl

end Parser

end SignatureLedger
