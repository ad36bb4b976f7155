import SignatureLedger.Declaration.TypePhrase

/-!
# Class bodies

The members of a class: modifiers, a name, and then either parameters and a body, or a type and an
initial value. A word such as `static` or `get` is a modifier only where the next token can start a
member name.
-/

namespace SignatureLedger

open Diagnostic (Code)

/-! ## Modifiers -/

namespace Token

/-- A token that can start the name of a member, the sign of a generator included. -/
def startsMemberName (t : Token) : Bool :=
  match t.kind with
  | .stringLit | .numberLit | .privateName | .punct .openBracket | .punct .star => true
  | k => k.isName

/-- The words that can stand before the name of a member. -/
def isMemberModifier (t : Token) : Bool :=
  t.isWord "public" || t.isWord "private" || t.isWord "protected" || t.isWord "static"
    || t.isWord "readonly" || t.isWord "abstract" || t.isWord "declare" || t.isWord "override"
    || t.isWord "accessor" || t.isWord "async"

end Token

/-- The modifiers after one more modifier word. Of the words for access the last one counts. -/
def MemberModifiers.add (m : MemberModifiers) (t : Token) : MemberModifiers :=
  if t.lexeme = bytes "public" then { m with access := .publicMark }
  else if t.lexeme = bytes "private" then { m with access := .privateMark }
  else if t.lexeme = bytes "protected" then { m with access := .protectedMark }
  else if t.lexeme = bytes "static" then { m with isStatic := true }
  else if t.lexeme = bytes "readonly" then { m with isReadonly := true }
  else if t.lexeme = bytes "abstract" then { m with isAbstract := true }
  else if t.lexeme = bytes "declare" then { m with isDeclare := true }
  else m

/-- The modifiers at the front of a member: what they say, how many there are, and whether the word
`static` before a brace follows, which starts a block. -/
structure ModifierRun where
  modifiers : MemberModifiers := {}
  width : Nat := 0
  block : Bool := false
deriving DecidableEq, Repr

/-- The modifiers at the front. A word is one only if a name can follow it. -/
def ModifierRun.read (run : ModifierRun) : List Token → ModifierRun
  | t :: n :: rest =>
    if !t.isMemberModifier then run
    else if t.isWord "static" && n.isPunct .openBrace then { run with block := true }
    else if !n.startsMemberName || (t.isWord "async" && n.newlineBefore) then run
    else
      ModifierRun.read { run with modifiers := run.modifiers.add t, width := run.width + 1 }
        (n :: rest)
  | _ => run

namespace Parser

/-! ## Parts of a member -/

/-- Takes the decorators at the cursor. -/
def skipDecorators (p : Parser) : Parser := p.take (Extent.decorators p.ahead)

/-- Takes an expression; a halted parse takes nothing. -/
def skipExpr (p : Parser) : Parser :=
  if p.halted then p else p.take (Extent.expr none p.ahead)

/-- The offset where the last token taken ends. -/
def endOffset (p : Parser) : Nat := p.previous.span.hi

/-- Takes a colon and a type, if a colon comes next, and gives the span of the type. -/
def typeAnnotation? (p : Parser) : Option Span × Parser :=
  if p.isPunct .colon then
    let start := p.bump.peek.span
    let q := p.bump.skipType
    (some (start.join q.previous.span), q)
  else (none, p)

/-- Takes an equals sign and a value, if the sign comes next. -/
def skipInitializer (p : Parser) : Parser :=
  if p.isPunct .assign then p.bump.skipExpr else p

/-- Takes a body in braces, if one comes next, and gives the offset of its first brace. -/
def body? (p : Parser) : Option Nat × Parser :=
  if p.isPunct .openBrace then (some p.peek.span.lo, p.takeGroup) else (none, p)

/-- The word `get` or `set` before a name. -/
def accessor? (p : Parser) : Option MemberKind :=
  if p.peekNext.startsMemberName && !p.peekNext.isPunct .star then
    if p.isWord "get" then some .getter else if p.isWord "set" then some .setter else none
  else none

/-- The text inside the quotes of a string token. -/
def unquote (s : Bytes) : Bytes := if 2 ≤ s.length then (s.drop 1).take (s.length - 2) else s

/-- The name of a member. -/
structure MemberName where
  text : Bytes
  kind : MemberNameKind
  /-- It is the parameter of an index signature. -/
  isIndex : Bool := false

/-- Takes the name of a member. Where there is none, the finding is reported and the parse moves to
a place where it can go on. -/
def memberName? (p : Parser) : Option MemberName × Parser :=
  let t := p.peek
  match t.kind with
  | .stringLit => (some ⟨unquote t.lexeme, .string, false⟩, p.bump)
  | .numberLit => (some ⟨t.lexeme, .number, false⟩, p.bump)
  | .privateName => (some ⟨t.lexeme, .hashed, false⟩, p.bump)
  | .punct .openBracket =>
    let isIndex := p.peekNext.kind == .ident && (p.cursor.peekAt 2).isPunct .colon
    let q := p.takeGroup
    if (Extent.group t p.ahead.tail).unclosed?.isSome then (none, q)
    else (some ⟨p.source.slice t.span.lo q.endOffset, .computed, isIndex⟩, q)
  | .ident | .keyword _ => (some ⟨t.lexeme, .ident, false⟩, p.bump)
  | .eof => (none, (p.expect .closeBrace).2)
  | _ =>
    (none, ((p.report .unexpectedToken t.span t.lexeme).recover [.semicolon]).skipPunct .semicolon)

/-- Takes the parameters, the result type and the body of a method, accessor or constructor. -/
def methodRest (p : Parser) (lo : Nat) (m : Member) : Member × Parser :=
  let p := p.takeAngle
  let p := if p.isPunct .openParen then p.takeGroup else (p.expect .openParen).2
  let (type?, p) := p.typeAnnotation?
  let (body?, p) := p.body?
  let m := { m with span := ⟨lo, p.endOffset⟩, type?, body? }
  (m, if body?.isSome then p else p.finishItem)

/-- Takes the type and the value of a property or index signature. -/
def propertyRest (p : Parser) (lo : Nat) (m : Member) : Member × Parser :=
  let (type?, p) := p.typeAnnotation?
  let p := p.skipInitializer
  ({ m with span := ⟨lo, p.endOffset⟩, type? }, p.finishItem)

/-- The kind of a member with parameters. -/
def methodKind (accessor : Option MemberKind) (name : MemberName) : MemberKind :=
  match accessor with
  | some k => k
  | none =>
    if name.kind = .ident ∧ name.text = bytes "constructor" then .constructor else .method

/-- Takes one member. Its decorators do not belong to it, and without a name there is none. -/
def member? (start : Parser) : Option Member × Parser :=
  let p := start.skipDecorators
  let lo := p.peek.span.lo
  let run := ModifierRun.read {} p.ahead
  let p := p.advance run.width
  if run.block then
    let p := p.bump.takeGroup
    (some { kind := .staticBlock, span := ⟨lo, p.endOffset⟩, modifiers := run.modifiers }, p)
  else
    let accessor := p.accessor?
    let p := if accessor.isSome then p.bump else p
    match (p.skipPunct .star).memberName? with
    | (none, p) => (none, p)
    | (some name, p) =>
      let m : Member :=
        { kind := accessor.getD .property
          span := ⟨lo, lo⟩
          name := name.text
          nameKind := name.kind
          modifiers := run.modifiers
          isOptional := p.isPunct .question
          isDefinite := p.isPunct .bang }
      let p := if p.isPunct .question || p.isPunct .bang then p.bump else p
      let (m, p) :=
        if !name.isIndex && (p.isPunct .openParen || p.isPunct .less) then
          p.methodRest lo { m with kind := methodKind accessor name }
        else p.propertyRest lo { m with kind := if name.isIndex then .indexSignature else m.kind }
      (some m, p)

/-! ## A member takes tokens only forward -/

/-- Decorators are taken forward. -/
theorem left_skipDecorators_le (p : Parser) : p.skipDecorators.left ≤ p.left := by
  unfold skipDecorators; rw [left_take]; omega

theorem left_skipExpr_le (p : Parser) : p.skipExpr.left ≤ p.left := by
  unfold skipExpr; split
  · exact Nat.le_refl _
  · rw [left_take]; omega

theorem left_typeAnnotation?_le (p : Parser) : p.typeAnnotation?.2.left ≤ p.left := by
  unfold typeAnnotation?; split
  · have := left_skipType_le p.bump
    have := left_bump p
    dsimp only; omega
  · exact Nat.le_refl _

theorem left_skipInitializer_le (p : Parser) : p.skipInitializer.left ≤ p.left := by
  unfold skipInitializer; split
  · have := left_skipExpr_le p.bump
    have := left_bump p
    omega
  · exact Nat.le_refl _

/-- A body is taken forward, if there is one. -/
theorem left_body?_le (p : Parser) : p.body?.2.left ≤ p.left := by
  unfold body?; split
  · exact left_takeGroup_le p
  · exact Nat.le_refl _

/-- So is the name of a member, whatever its form. -/
theorem left_memberName?_le (p : Parser) : p.memberName?.2.left ≤ p.left := by
  have hb := left_bump p
  unfold memberName?
  dsimp only
  split <;> try (dsimp only; omega)
  · split <;> exact left_takeGroup_le p
  · exact left_expect_le p _
  · refine Nat.le_trans (left_skipPunct_le _ _) (Nat.le_trans (left_recover_le _ _) ?_)
    exact Nat.le_of_eq (left_report p _ _ _)

/-- What follows the name of a method is taken forward. -/
theorem left_methodRest_le (p : Parser) (lo : Nat) (m : Member) :
    (p.methodRest lo m).2.left ≤ p.left := by
  unfold methodRest
  dsimp only
  have h₁ := left_takeAngle_le p
  generalize p.takeAngle = a at h₁ ⊢
  have h₂ : (if a.isPunct .openParen then a.takeGroup else (a.expect .openParen).2).left
      ≤ a.left := by
    split
    · exact left_takeGroup_le a
    · exact left_expect_le a _
  generalize (if a.isPunct .openParen then a.takeGroup else (a.expect .openParen).2) = b at h₂ ⊢
  have h₃ := left_typeAnnotation?_le b
  have h₄ := left_body?_le b.typeAnnotation?.2
  split
  · omega
  · have := left_finishItem_le b.typeAnnotation?.2.body?.2
    omega

/-- What follows the name of a property is taken forward. -/
theorem left_propertyRest_le (p : Parser) (lo : Nat) (m : Member) :
    (p.propertyRest lo m).2.left ≤ p.left := by
  unfold propertyRest
  dsimp only
  have h₁ := left_typeAnnotation?_le p
  have h₂ := left_skipInitializer_le p.typeAnnotation?.2
  have h₃ := left_finishItem_le p.typeAnnotation?.2.skipInitializer
  omega

/-- A member is taken forward, whichever kind it is of. Each step of it only moves the cursor on:
the decorators, the modifiers, the word of an accessor, the name and its mark, and the rest. -/
theorem left_member?_le (start : Parser) : start.member?.2.left ≤ start.left := by
  unfold member?
  dsimp only
  have h₁ := left_skipDecorators_le start
  generalize start.skipDecorators = d at h₁ ⊢
  have h₂ := left_advance d (ModifierRun.read {} d.ahead).width
  generalize d.advance (ModifierRun.read {} d.ahead).width = a at h₂ ⊢
  split
  · have := left_takeGroup_le a.bump
    have := left_bump a
    dsimp only; omega
  · have h₃ : (if a.accessor?.isSome then a.bump else a).left ≤ a.left := by
      split
      · rw [left_bump]; omega
      · exact Nat.le_refl _
    generalize (if a.accessor?.isSome then a.bump else a) = b at h₃ ⊢
    have h₄ := left_skipPunct_le b .star
    have h₅ := left_memberName?_le (b.skipPunct .star)
    split
    · rename_i q hq
      rw [hq] at h₅
      dsimp only at h₅ ⊢; omega
    · rename_i name q hq
      rw [hq] at h₅
      dsimp only at h₅ ⊢
      have h₆ : (if q.isPunct .question || q.isPunct .bang then q.bump else q).left ≤ q.left := by
        split
        · rw [left_bump]; omega
        · exact Nat.le_refl _
      generalize (if q.isPunct .question || q.isPunct .bang then q.bump else q) = c at h₆ ⊢
      split
      · exact Nat.le_trans (left_methodRest_le _ _ _) (by omega)
      · exact Nat.le_trans (left_propertyRest_le _ _ _) (by omega)

/-! ## All members -/

/-- A closing brace comes next, or the end, or the parse is given up. -/
def bodyEnds (p : Parser) : Bool := p.isPunct .closeBrace || p.atEnd || p.halted

/-- Takes the members up to the closing brace of the class. A member that takes no token loses
one. -/
def membersFrom (p : Parser) : List Member × Parser :=
  if _h : p.bodyEnds then ([], p)
  else if p.isPunct .semicolon then membersFrom p.bump
  else
    let q := p.member?.2
    let rest := membersFrom (if q.left = p.left then q.bump else q)
    (p.member?.1.toList ++ rest.1, rest.2)
termination_by p.left
decreasing_by
  all_goals
    have hEnd : p.atEnd = false := by
      simp only [bodyEnds, Bool.or_eq_true, not_or, Bool.not_eq_true] at _h
      exact _h.1.2
    have hlt := left_bump_lt hEnd
  · exact hlt
  · have hle := left_member?_le p
    split
    · rw [left_bump]
      rw [left_bump] at hlt
      omega
    · omega

/-- The members of a class are taken forward. -/
theorem left_membersFrom_le (p : Parser) : (membersFrom p).2.left ≤ p.left := by
  fun_induction membersFrom p with
  | case1 p _ => exact Nat.le_refl _
  | case2 p _ _ ih => rw [left_bump] at ih; omega
  | case3 p _ _ q rest ih =>
    have hq : q.left ≤ p.left := left_member?_le p
    have : rest.2.left ≤ (if q.left = p.left then q.bump else q).left := ih
    have : (if q.left = p.left then q.bump else q).left ≤ q.left := by
      split
      · rw [left_bump]; omega
      · exact Nat.le_refl _
    dsimp only; omega

/-- Takes a class body from its opening brace to its closing one. -/
def classBody (p : Parser) : List Member × Parser :=
  let (ms, q) := membersFrom p.bump
  (ms, (q.expect .closeBrace).2)

end Parser

end SignatureLedger
