import SignatureLedger.Declaration.Parser

/-!
# Types

A type annotation is skipped by its grammar, since nothing closes it: a union of primaries, with an
optional conditional part. `Parser.skipType` takes exactly one type; every call inside it starts
with fewer tokens or at a lower level of the grammar, which is why it ends.
-/

namespace SignatureLedger

/-! ## Parts that need no recursion -/

/-- A token that can start a type after a type operator. -/
def Token.startsType (t : Token) : Bool :=
  match t.kind with
  | .stringLit | .numberLit | .templateLit => true
  | .punct .openParen | .punct .openBracket | .punct .openBrace | .punct .less
  | .punct .minus => true
  | k => k.isName

/-- A word that is an operator when a type follows. -/
def Token.isTypeOperator (t : Token) : Bool :=
  t.isWord "keyof" || t.isWord "unique" || t.isWord "infer" || t.isWord "readonly"
    || t.isWord "asserts"

/-- The operators before a primary type. -/
def typeOperatorsWidth : List Token → Nat
  | [] => 0
  | t :: rest =>
    if (t.isTypeOperator && rest.head?.any Token.startsType) || t.isKeyword .typeofKw
        || t.isKeyword .newKw
        || (t.isWord "abstract" && rest.head?.any (·.isKeyword .newKw)) then
      1 + typeOperatorsWidth rest
    else 0

/-- The groups in square brackets that follow a type on its line. A group that nothing closes takes
all tokens. -/
def Extent.arraySuffix (ts : List Token) : Extent :=
  match ts with
  | [] => ⟨0, none⟩
  | t :: rest =>
    if t.isPunct .openBracket && !t.newlineBefore then
      match groupEnd? 0 rest with
      | some n => (arraySuffix (rest.drop n)).shift (1 + n)
      | none => ⟨1 + rest.length, some t⟩
    else ⟨0, none⟩
termination_by ts.length
decreasing_by simp only [List.length_drop, List.length_cons]; omega

/-- What was found where a primary type is due, and so what may follow it. -/
inductive TypeHead where
  /-- No type; the finding is reported. -/
  | missing
  /-- Type parameters and a parameter list; an arrow follows. -/
  | generic
  /-- A group in round brackets; an arrow may follow. -/
  | parens
  | other
deriving DecidableEq, Repr

namespace Parser

/-- Takes a dotted path and type arguments. -/
def takePath (p : Parser) : Parser := (p.advance (pathWidth p.ahead)).takeAngle

/-- Takes the head of a primary type, its operators included. Where none starts the token is
reported, and at the end of the source the parse is given up. -/
def typeHead (start : Parser) : TypeHead × Parser :=
  let p := start.advance (typeOperatorsWidth start.ahead)
  match p.peek.kind with
  | .punct .less => (.generic, p.takeAngle.takeParens)
  | .punct .openParen => (.parens, p.takeGroup)
  | .punct .openBracket | .punct .openBrace => (.other, p.takeGroup)
  | .stringLit | .numberLit | .templateLit => (.other, p.bump)
  | .punct .minus =>
    (.other, if p.bump.peek.kind = .numberLit then p.bump.bump else p.bump)
  | .keyword .importKw => (.other, p.bump.takeParens.takePath)
  | .ident | .keyword _ => (.other, p.bump.takePath)
  | .eof =>
    (.missing, { p.report .unexpectedEof p.peek.span (bytes "type") with halted := true })
  | _ => (.missing, p.report .unexpectedToken p.peek.span p.peek.lexeme)

/-- Type arguments are taken forward. -/
theorem left_takeAngle_le (p : Parser) : p.takeAngle.left ≤ p.left := by
  unfold takeAngle; rw [left_take]; omega

theorem left_takeParens_le (p : Parser) : p.takeParens.left ≤ p.left := by
  unfold takeParens; rw [left_take]; omega

theorem left_takePath_le (p : Parser) : p.takePath.left ≤ p.left := by
  unfold takePath
  refine Nat.le_trans (left_takeAngle_le _) ?_
  rw [left_advance]; omega

/-- The head of a type is taken forward, whatever its form. The operators before it are passed
first, and then there is one case for each kind of first token. -/
theorem left_typeHead_le (start : Parser) : start.typeHead.2.left ≤ start.left := by
  unfold typeHead
  dsimp only
  have h := left_advance start (typeOperatorsWidth start.ahead)
  generalize start.advance (typeOperatorsWidth start.ahead) = p at h ⊢
  have hb := left_bump p
  split <;> dsimp only
  · have := left_takeAngle_le p
    have := left_takeParens_le p.takeAngle
    omega
  · have := left_takeGroup_le p; omega
  · have := left_takeGroup_le p; omega
  · have := left_takeGroup_le p; omega
  · omega
  · omega
  · omega
  · split
    · rw [left_bump]; omega
    · omega
  · have := left_takeParens_le p.bump
    have := left_takePath_le p.bump.takeParens
    omega
  · have := left_takePath_le p.bump; omega
  · have := left_takePath_le p.bump; omega
  · have : (p.report Diagnostic.Code.unexpectedEof p.peek.span (bytes "type")).left = p.left :=
      left_report p _ _ _
    simp only [left] at *; omega
  · rw [left_report]; omega

/-! ## The grammar -/

/-- A state that is reached from `p` by taking tokens. -/
abbrev Later (p : Parser) := { q : Parser // q.left ≤ p.left }

/-- Takes a union or intersection sign, if one comes next. -/
def skipUnionSign (p : Parser) : Parser :=
  if p.isPunct .bar || p.isPunct .amp then p.bump else p

/-- A leading sign of a union is taken or left. -/
theorem left_skipUnionSign_le (p : Parser) : p.skipUnionSign.left ≤ p.left := by
  unfold skipUnionSign; split
  · rw [left_bump]; omega
  · exact Nat.le_refl _

/-- Takes the array brackets that follow a type. -/
def takeArrays (p : Parser) : Parser := p.take (Extent.arraySuffix p.ahead)

/-- Array brackets are taken forward. -/
theorem left_takeArrays_le (p : Parser) : p.takeArrays.left ≤ p.left := by
  unfold takeArrays; rw [left_take]; omega

mutual

/-- One type: a union, and behind `extends` the rest of a conditional type. A halted parse takes
nothing. -/
def typeFrom (p : Parser) : Later p :=
  if p.halted then ⟨p, Nat.le_refl _⟩
  else
    let ⟨q, hq⟩ := unionFrom p
    if hk : q.isKeyword .extendsKw then
      have h₁ := left_bump_lt_of_isKeyword hk
      let ⟨r, hr⟩ := unionFrom q.bump
      if hc : r.isPunct .question then
        have h₂ := left_bump_lt_of_isPunct hc
        let ⟨s, hs⟩ := typeFrom r.bump
        have h₃ := left_expect_le s .colon
        if (s.expect .colon).1 then
          let ⟨t, ht⟩ := typeFrom (s.expect .colon).2
          ⟨t, by omega⟩
        else ⟨(s.expect .colon).2, by omega⟩
      else ⟨r, by omega⟩
    else ⟨q, hq⟩
termination_by 5 * p.left + 4
decreasing_by all_goals omega

/-- Primaries with `|` or `&` between them; one such sign may come first. -/
def unionFrom (p : Parser) : Later p :=
  have hs := left_skipUnionSign_le p
  let ⟨q, hq⟩ := primaryFrom p.skipUnionSign
  let ⟨r, hr⟩ := unionTail q
  ⟨r, by omega⟩
termination_by 5 * p.left + 3
decreasing_by all_goals omega

/-- The primaries after the first one. A sign `|` or `&` stands before each of them. -/
def unionTail (p : Parser) : Later p :=
  if h : p.isPunct .bar || p.isPunct .amp then
    have hlt : p.bump.left < p.left := by
      rcases Bool.or_eq_true .. ▸ h with h | h <;> exact left_bump_lt_of_isPunct h
    let ⟨q, hq⟩ := primaryFrom p.bump
    let ⟨r, hr⟩ := unionTail q
    ⟨r, by omega⟩
  else ⟨p, Nat.le_refl _⟩
termination_by 5 * p.left + 2
decreasing_by all_goals omega

/-- One primary type with what follows it. -/
def primaryFrom (p : Parser) : Later p :=
  have h := left_typeHead_le p
  let ⟨q, hq⟩ := typeTail p.typeHead.1 p.typeHead.2
  ⟨q, by omega⟩
termination_by 5 * p.left + 1
decreasing_by all_goals omega

/-- What follows the head of a primary type: an arrow and a result, or array brackets and the type
of a predicate. -/
def typeTail (head : TypeHead) (p : Parser) : Later p :=
  if head = .missing then ⟨p, Nat.le_refl _⟩
  else if ha : (head = .generic ∨ head = .parens) ∧ p.isPunct .arrow = true then
    have h₁ := left_bump_lt_of_isPunct ha.2
    let ⟨q, hq⟩ := typeFrom p.bump
    ⟨q, by omega⟩
  else if head = .generic then ⟨p, Nat.le_refl _⟩
  else
    have h₂ := left_takeArrays_le p
    if hi : p.takeArrays.isWord "is" = true ∧ p.takeArrays.peek.newlineBefore = false then
      have h₃ := left_bump_lt_of_isWord hi.1
      let ⟨q, hq⟩ := typeFrom p.takeArrays.bump
      ⟨q, by omega⟩
    else ⟨p.takeArrays, h₂⟩
termination_by 5 * p.left
decreasing_by all_goals omega

end

/-- Takes one type. -/
def skipType (p : Parser) : Parser := (typeFrom p).1

/-- A type is taken forward. -/
theorem left_skipType_le (p : Parser) : p.skipType.left ≤ p.left := (typeFrom p).2

end Parser

end SignatureLedger
