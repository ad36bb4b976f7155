import SignatureLedger.Declaration.ClassBody

/-!
# Items of a module

An item is a declaration, possibly exported, an import or export clause, or a statement that is
skipped. `Parser.item` takes one item; of a namespace it takes the part before the body, so that it
needs no recursion.
-/

namespace SignatureLedger

open Diagnostic (Code)

/-! ## Modifiers -/

/-- What is written before a declaration keyword. -/
structure DeclModifiers where
  exported : ExportMode := .none
  /-- The offset of the first modifier. -/
  lo? : Option Nat := none
  isDeclare : Bool := false
  isAbstract : Bool := false
  isAsync : Bool := false
deriving DecidableEq, Repr

namespace DeclModifiers

/-- Notes where the declaration starts, if nothing came before. -/
def startAt (m : DeclModifiers) (t : Token) : DeclModifiers :=
  { m with lo? := some (m.lo?.getD t.span.lo) }

/-- Reads the modifiers at the front, each on the line of the token after it, and counts them. After
`export default` the word `declare` is none. -/
def read (afterDefault : Bool) (m : DeclModifiers) (count : Nat) :
    List Token → DeclModifiers × Nat
  | t :: n :: rest =>
    if n.newlineBefore then (m, count)
    else if !afterDefault && t.isWord "declare" && n.isDeclKeyword then
      read afterDefault { m.startAt t with isDeclare := true } (count + 1) (n :: rest)
    else if t.isWord "abstract" && n.isKeyword .classKw then
      read afterDefault { m.startAt t with isAbstract := true } (count + 1) (n :: rest)
    else if t.isWord "async" && n.isKeyword .functionKw then
      read afterDefault { m.startAt t with isAsync := true } (count + 1) (n :: rest)
    else (m, count)
  | _ => (m, count)

/-- What the head of a declaration has before its keyword is read. -/
def head (m : DeclModifiers) : DeclHead := { exported := m.exported, isDeclare := m.isDeclare }

end DeclModifiers

namespace Parser

/-- Skips a statement. A closing bracket that nothing opened is one by itself. -/
def skipStatement (p : Parser) : Parser :=
  if p.peek.kind.isCloser then (p.report .unbalancedDelimiter p.peek.span p.peek.lexeme).bump
  else if p.halted then p
  else p.take (Extent.statement none p.ahead)

/-- Skips the rest of an import or export clause. -/
def skipClause (p : Parser) : Parser :=
  if p.halted then p else p.take (Extent.clause 0 none p.ahead)

/-- Skips what stands before the body of a class or interface. -/
def skipHeritage (p : Parser) : Parser :=
  if p.halted then p else p.take (Extent.heritage p.ahead)

/-! ## Declarations without inner declarations -/

/-- Where a declaration starts: at its first modifier or at its keyword, which comes next. -/
def declStart (p : Parser) (m : DeclModifiers) : Nat := m.lo?.getD p.peek.span.lo

/-- Takes type parameters, if they come next; they count when they are closed. -/
def typeParams? (p : Parser) : Option Span × Parser :=
  if p.isPunct .less then
    if (Extent.angle? p.ahead).unclosed?.isSome then (none, p.takeAngle)
    else (some (p.peek.span.join p.takeAngle.previous.span), p.takeAngle)
  else (none, p)

/-- Takes a body in braces, and complains if there is none. -/
def requiredBody (p : Parser) : Option Nat × Parser :=
  if p.isPunct .openBrace then p.body? else (none, (p.expect .openBrace).2)

/-- Complains that a declaration has no name. -/
def reportNoName (p : Parser) (what : String) : Parser :=
  p.report .declNameExpected p.peek.span (bytes what)

/-- Takes a function from its keyword on. Without a name, where one is due, it declares nothing. -/
def functionDecl (p : Parser) (m : DeclModifiers) : List Decl × Parser :=
  let lo := p.declStart m
  let p := p.bump
  let isGenerator := p.isPunct .star
  let p := p.skipPunct .star
  if p.peek.kind ≠ .ident ∧ m.exported ≠ .asDefault then
    let p := (p.reportNoName "function").recover [.semicolon, .openBrace]
    ([], if p.isPunct .openBrace then p.takeGroup else p.skipPunct .semicolon)
  else
    let named := p.peek.kind = .ident
    let head :=
      if named then { m.head with name := p.peek.lexeme, nameSpan := p.peek.span } else m.head
    let p := if named then p.bump else p
    let (typeParams?, p) := p.typeParams?
    let p := if p.isPunct .openParen then p.takeGroup else (p.expect .openParen).2
    let p := if p.isPunct .colon then p.bump.skipType else p
    let (body?, p) := p.body?
    let head := { head with span := ⟨lo, p.endOffset⟩, body?, typeParams? }
    ([.item head (.function m.isAsync isGenerator)], if body?.isSome then p else p.finishItem)

/-- A class without a name is a declaration only as a default export. Its type parameters, its
heritage and its body are taken all the same. -/
def classDecl (p : Parser) (m : DeclModifiers) : List Decl × Parser :=
  let lo := p.declStart m
  let p := p.bump
  let named := p.peek.kind = .ident && !p.isWord "implements"
  let head :=
    if named then { m.head with name := p.peek.lexeme, nameSpan := p.peek.span } else m.head
  let p :=
    if named then p.bump
    else if m.exported ≠ .asDefault then p.reportNoName "class"
    else p
  let (typeParams?, p) := p.typeParams?
  let p := p.skipHeritage
  let hasBody := p.isPunct .openBrace
  let body? := if hasBody then some p.peek.span.lo else none
  let (members, p) := if hasBody then p.classBody else ([], (p.expect .openBrace).2)
  let head := { head with span := ⟨lo, p.endOffset⟩, body?, typeParams? }
  (if !named && m.exported ≠ .asDefault then []
    else [.item head (.classForm m.isAbstract members)], p)

/-- Takes an interface from its word on. -/
def interfaceDecl (p : Parser) (m : DeclModifiers) : List Decl × Parser :=
  let lo := p.declStart m
  let p := p.bump
  let head := { m.head with name := p.peek.lexeme, nameSpan := p.peek.span }
  let (typeParams?, p) := p.bump.typeParams?
  let (body?, p) := p.skipHeritage.requiredBody
  ([.item { head with span := ⟨lo, p.endOffset⟩, body?, typeParams? } .interfaceForm], p)

/-- Takes a type alias from its word on. -/
def typeAliasDecl (p : Parser) (m : DeclModifiers) : List Decl × Parser :=
  let lo := p.declStart m
  let p := p.bump
  let head := { m.head with name := p.peek.lexeme, nameSpan := p.peek.span }
  let (typeParams?, p) := p.bump.typeParams?
  let (found, p) := p.expect .assign
  let p := if found then p.skipType else p
  ([.item { head with span := ⟨lo, p.endOffset⟩, typeParams? } .typeAlias], p.finishItem)

/-- Takes an enum from its keyword on. Without a name it declares nothing. Its body is passed even
then. -/
def enumDecl (p : Parser) (m : DeclModifiers) : List Decl × Parser :=
  let lo := p.declStart m
  let p := p.bump
  if p.peek.kind = .ident then
    let head := { m.head with name := p.peek.lexeme, nameSpan := p.peek.span }
    let (body?, p) := p.bump.requiredBody
    ([.item { head with span := ⟨lo, p.endOffset⟩, body? } .enumForm], p)
  else
    let p := (p.reportNoName "enum").recover [.semicolon, .openBrace]
    ([], if p.isPunct .openBrace then p.takeGroup else p)

/-! ### Variables -/

/-- Takes the type and the value of a declarator. -/
def declaratorRest (p : Parser) : Parser :=
  let p := p.skipPunct .bang
  let p := if p.isPunct .colon then p.bump.skipType else p
  p.skipInitializer

/-- The name or the pattern of a declarator. -/
def declaratorName? (p : Parser) : Option (DeclHead × Bool × Parser) :=
  if p.peek.kind = .ident then
    some ({ name := p.peek.lexeme, nameSpan := p.peek.span }, false, p.bump)
  else if p.isPunct .openBrace || p.isPunct .openBracket then some ({}, true, p.takeGroup)
  else none

/-- The type and the value of a declarator are taken forward. -/
theorem left_declaratorRest_le (p : Parser) : p.declaratorRest.left ≤ p.left := by
  unfold declaratorRest
  dsimp only
  have h₁ := left_skipPunct_le p .bang
  generalize p.skipPunct .bang = a at h₁ ⊢
  have h₂ : (if a.isPunct .colon then a.bump.skipType else a).left ≤ a.left := by
    split
    · have := left_skipType_le a.bump
      have := left_bump a
      omega
    · exact Nat.le_refl _
  exact Nat.le_trans (left_skipInitializer_le _) (Nat.le_trans h₂ h₁)

/-- The name or pattern of a declarator is taken forward. -/
theorem left_declaratorName?_le {p q : Parser} {h : DeclHead} {b : Bool}
    (hq : p.declaratorName? = some (h, b, q)) : q.left ≤ p.left := by
  unfold declaratorName? at hq
  split at hq
  · simp only [Option.some.injEq, Prod.mk.injEq] at hq
    rw [← hq.2.2, left_bump]; omega
  · split at hq
    · simp only [Option.some.injEq, Prod.mk.injEq] at hq
      rw [← hq.2.2]; exact left_takeGroup_le p
    · simp at hq

/-- The declarators from here to the end of the declaration, with commas between them. -/
def declarators (m : DeclModifiers) (word : VarKeyword) (p : Parser) : List Decl × Parser :=
  if p.halted then ([], p.finishItem)
  else match _hq : p.declaratorName? with
    | none =>
      ([], ((p.reportNoName "variable").recover [.semicolon]).skipPunct .semicolon)
    | some (name, isPattern, q) =>
      let lo := p.peek.span.lo
      let head := { m.head with name := name.name, nameSpan := name.nameSpan }
      let d : Decl :=
        .item { head with span := ⟨lo, q.declaratorRest.endOffset⟩ } (.variableForm word isPattern)
      if _hc : q.declaratorRest.isPunct .comma then
        let rest := declarators m word q.declaratorRest.bump
        (d :: rest.1, rest.2)
      else ([d], q.declaratorRest.finishItem)
termination_by p.left
decreasing_by
  have := left_bump_lt_of_isPunct _hc
  have := left_declaratorRest_le q
  have := left_declaratorName?_le _hq
  omega

/-- Takes the declarators behind the word that declares them. -/
def variableDecl (p : Parser) (m : DeclModifiers) : List Decl × Parser :=
  let word : VarKeyword :=
    if p.isKeyword .constKw then .constWord
    else if p.isKeyword .varKw then .varWord
    else .letWord
  declarators m word p.bump

/-! ## Namespaces -/

/-- The dotted names after the first name of a namespace: how many tokens, and the last one. -/
def dottedName (last : Token) : List Token → Nat × Token
  | a :: b :: rest =>
    if a.isPunct .dot && b.kind = .ident then
      let (n, t) := dottedName b rest
      (2 + n, t)
    else (0, last)
  | _ => (0, last)

/-- The head of a namespace, up to the place where its body starts. -/
structure SpaceStart where
  head : DeclHead
  isGlobal : Bool
  lo : Nat

/-- Takes the keyword and the name of a namespace, or the word `global` alone. -/
def spaceStart (p : Parser) (m : DeclModifiers) : SpaceStart × Parser :=
  let lo := p.declStart m
  let word := p.peek
  let p := p.bump
  let called (name : Bytes) (nameSpan : Span) : DeclHead := { m.head with name, nameSpan }
  if word.isWord "global" then (⟨called word.lexeme word.span, true, lo⟩, p)
  else
    let t := p.peek
    let p := p.bump
    if t.kind = .stringLit then (⟨called (unquote t.lexeme) t.span, false, lo⟩, p)
    else
      let (n, last) := dottedName t p.ahead
      let name := p.source.slice t.span.lo last.span.hi
      (⟨called name (t.span.join last.span), false, lo⟩, p.advance n)

/-- The finished namespace, when the parse stands behind it. -/
def SpaceStart.finish (s : SpaceStart) (body? : Option Nat) (children : List Decl) (p : Parser) :
    Decl :=
  .space { s.head with span := ⟨s.lo, p.endOffset⟩, body? } s.isGlobal children

/-! ## Items -/

/-- What an item has turned out to be. -/
inductive Item where
  /-- All of it is taken; these are its declarations. -/
  | complete (ds : List Decl)
  /-- A namespace whose body comes next, after its opening brace at this offset. -/
  | opened (space : SpaceStart) (body : Nat)

/-- Takes a namespace up to the brace that opens its body, or all of it if it has none. -/
def namespaceItem (p : Parser) (m : DeclModifiers) : Item × Parser :=
  let (s, p) := p.spaceStart m
  if p.isPunct .openBrace then (.opened s p.peek.span.lo, p.bump)
  else (.complete [s.finish none [] p.finishItem], p.finishItem)

/-- The keyword of a type alias, its name, and then an equals sign or type parameters. -/
def atTypeAlias (p : Parser) : Bool :=
  let next := p.peekNext
  let third := p.cursor.peekAt 2
  p.isWord "type" && next.kind == .ident && !next.newlineBefore
    && (third.isPunct .assign || third.isPunct .less)

/-- Takes a declaration behind its modifiers, if one comes next. With `onlyDefault`, as after
`export default`, only functions, classes and interfaces are declarations. -/
def declRest? (p : Parser) (onlyDefault : Bool) (m : DeclModifiers) : Option (Item × Parser) :=
  let next := p.peekNext
  let done (r : List Decl × Parser) : Option (Item × Parser) := some (.complete r.1, r.2)
  if p.isKeyword .functionKw then done (p.functionDecl m)
  else if p.isKeyword .classKw then done (p.classDecl m)
  else if p.isWord "interface" && next.kind == .ident && !next.newlineBefore then
    done (p.interfaceDecl m)
  else if onlyDefault then none
  else if p.isKeyword .enumKw then done (p.enumDecl m)
  else if p.isKeyword .constKw && next.isKeyword .enumKw then
    done (p.bump.enumDecl (m.startAt p.peek))
  else if p.isKeyword .constKw || p.isKeyword .varKw then done (p.variableDecl m)
  else if p.isWord "let"
      && (next.kind == .ident || next.isPunct .openBracket || next.isPunct .openBrace) then
    done (p.variableDecl m)
  else if p.atTypeAlias then done (p.typeAliasDecl m)
  else if (p.isWord "namespace" || p.isWord "module")
      && (next.kind == .ident || next.kind == .stringLit) && !next.newlineBefore then
    some (p.namespaceItem m)
  else if p.isWord "global" && m.isDeclare && next.isPunct .openBrace then
    some (p.namespaceItem m)
  else none

/-- Takes a declaration, if one comes next. `none` means that there is none, and then nothing is
taken. -/
def declItem? (start : Parser) (exported : ExportMode) : Option (Item × Parser) :=
  let (m, count) := DeclModifiers.read (exported = .asDefault) { exported } 0 start.ahead
  (start.advance count).declRest? (exported = .asDefault) m

/-- The words after `export` that start a clause which declares nothing. -/
def atExportClause (p : Parser) : Bool :=
  p.isPunct .openBrace || p.isPunct .star || p.isKeyword .importKw || p.isWord "as"
    || (p.isWord "type" && (p.peekNext.isPunct .openBrace || p.peekNext.isPunct .star))

/-- Takes what follows the word `export`. That is a default export, an assignment, a clause or a
declaration, and anything else is reported. -/
def exportItem (p : Parser) : Item × Parser :=
  if p.isKeyword .defaultKw then
    let p := p.bump.skipDecorators
    match p.declItem? .asDefault with
    | some r => r
    | none => (.complete [], p.skipExpr.finishItem)
  else if p.isPunct .assign then (.complete [], p.bump.skipExpr.finishItem)
  else if p.atExportClause then (.complete [], p.skipClause)
  else
    let p := p.skipDecorators
    match p.declItem? .named with
    | some r => r
    | none =>
      if p.atEnd then (.complete [], p.report .unexpectedEof p.peek.span (bytes "declaration"))
      else
        (.complete [], (p.report .unexpectedToken p.peek.span p.peek.lexeme).skipStatement)

/-- Takes one item. Statements and imports declare nothing. -/
def item (start : Parser) : Item × Parser :=
  if start.isPunct .semicolon then (.complete [], start.bump)
  else
    let p := start.skipDecorators
    if p.isKeyword .importKw then
      if p.peekNext.isPunct .openParen || p.peekNext.isPunct .dot then
        (.complete [], p.skipStatement)
      else (.complete [], p.bump.skipClause)
    else if p.isKeyword .exportKw then p.bump.exportItem
    else match p.declItem? .none with
      | some r => r
      | none => (.complete [], p.skipStatement)

end Parser

end SignatureLedger
