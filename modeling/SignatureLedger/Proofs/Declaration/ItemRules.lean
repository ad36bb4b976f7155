import SignatureLedger.Proofs.Declaration.Loop
import SignatureLedger.Proofs.Declaration.MemberRules

/-!
# The rules of items

The state that each kind of declaration and item leaves, as a chain of moves. What is declared on
the way does not matter here.
-/

namespace SignatureLedger

open SignatureLedger.Parser

namespace Parser

/-! ## Type parameters and bodies -/

/-- Type parameters end where their angles end. -/
theorem typeParams?_snd (p : Parser) : p.typeParams?.2 = p.takeAngle := by
  unfold typeParams?
  by_cases h : p.isPunct .less = true
  · rw [if_pos h, apply_ite Prod.snd, ite_self]
  · rw [if_neg h]
    by_cases hend : p.atEnd = true
    · rw [takeAngle, atEnd_iff.mp hend]
      rfl
    · obtain ⟨t, ts, hp⟩ := exists_of_not_atEnd (Bool.not_eq_true _ ▸ hend)
      rw [isPunct_of_ahead hp, Bool.not_eq_true] at h
      rw [takeAngle_of_not hp h]

/-- Takes a body in braces that is required. -/
def skipBraces (p : Parser) : Parser :=
  if p.isPunct .openBrace then p.takeGroup else (p.expect .openBrace).2

/-- A required body ends where its braces end. -/
theorem requiredBody_snd (p : Parser) : p.requiredBody.2 = skipBraces p := by
  unfold requiredBody skipBraces body?
  split <;> rfl

/-! ## Functions and classes -/

/-- Takes a name, if one comes next. -/
def skipName (p : Parser) : Parser := if p.peek.kind = .ident then p.bump else p

/-- Complains about a declaration without a name and goes on behind it. -/
def skipNameless (what : String) (p : Parser) : Parser :=
  let q := (p.reportNoName what).recover [.semicolon, .openBrace]
  if q.isPunct .openBrace then q.takeGroup else q.skipPunct .semicolon

/-- Takes a function behind its keyword. -/
def skipFunction (m : DeclModifiers) (p : Parser) : Parser :=
  if p.peek.kind ≠ .ident ∧ m.exported ≠ .asDefault then skipNameless "function" p
  else skipSignature (skipName p)

/-- Where a function ends. -/
theorem functionDecl_snd (p : Parser) (m : DeclModifiers) :
    (p.functionDecl m).2 = skipFunction m (p.bump.skipPunct .star) := by
  unfold functionDecl skipFunction
  dsimp only
  generalize p.bump.skipPunct .star = q
  rw [apply_ite Prod.snd]
  dsimp only
  rw [skipBody_eq, typeParams?_snd]
  rfl

/-- Takes the name of a class, or complains that there is none. -/
def skipClassName (m : DeclModifiers) (p : Parser) : Parser :=
  if p.peek.kind = .ident && !p.isWord "implements" then p.bump
  else if m.exported ≠ .asDefault then p.reportNoName "class"
  else p

/-- Takes the body of a class. -/
def skipClassBody (p : Parser) : Parser :=
  if p.isPunct .openBrace then p.classBody.2 else (p.expect .openBrace).2

/-- Where a class ends. -/
theorem classDecl_snd (p : Parser) (m : DeclModifiers) :
    (p.classDecl m).2 = skipClassBody (skipClassName m p.bump).takeAngle.skipHeritage := by
  unfold classDecl skipClassBody
  dsimp only
  rw [typeParams?_snd, apply_ite Prod.snd]
  rfl

/-! ## Interfaces, type aliases and enums -/

theorem peek_bump (p : Parser) : p.bump.peek = p.peekNext := by
  unfold peek peekNext bump Cursor.bump Cursor.peek Cursor.peekAt
  match h : p.cursor.ahead with
  | [] => simp [h]
  | [_] => rfl
  | _ :: _ :: _ => rfl

/-- Where an interface ends. -/
theorem interfaceDecl_snd (p : Parser) (m : DeclModifiers) :
    (p.interfaceDecl m).2 = skipBraces p.bump.bump.takeAngle.skipHeritage := by
  unfold interfaceDecl
  dsimp only
  rw [requiredBody_snd, typeParams?_snd]

/-- Takes the equals sign and the type of a type alias. -/
def skipDefinition (p : Parser) : Parser :=
  if (p.expect .assign).1 then (p.expect .assign).2.skipType else (p.expect .assign).2

/-- Where an alias ends. -/
theorem typeAliasDecl_snd (p : Parser) (m : DeclModifiers) :
    (p.typeAliasDecl m).2 = (skipDefinition p.bump.bump.takeAngle).finishItem := by
  unfold typeAliasDecl
  dsimp only
  rw [typeParams?_snd]
  rfl

/-- Takes an enum behind its keyword. -/
def skipEnum (p : Parser) : Parser :=
  if p.peek.kind = .ident then skipBraces p.bump
  else
    let q := (p.reportNoName "enum").recover [.semicolon, .openBrace]
    if q.isPunct .openBrace then q.takeGroup else q

/-- Where an enumeration ends. -/
theorem enumDecl_snd (p : Parser) (m : DeclModifiers) : (p.enumDecl m).2 = skipEnum p.bump := by
  unfold enumDecl skipEnum
  dsimp only
  rw [apply_ite Prod.snd]
  dsimp only
  rw [requiredBody_snd]

/-! ## Variables -/

/-- What stands behind the name of a variable: its type and its value. -/
theorem declaratorRest_eq (p : Parser) :
    p.declaratorRest = (skipColonType (p.skipPunct .bang)).skipInitializer := rfl

/-- Takes the name or the pattern of a declarator. -/
def skipTarget (p : Parser) : Parser := if p.peek.kind = .ident then p.bump else p.takeGroup

/-- A declarator comes next. -/
def atTarget (p : Parser) : Bool :=
  p.peek.kind = .ident || p.isPunct .openBrace || p.isPunct .openBracket

/-- The name of a variable is read where a target stands, and ends with it. -/
theorem declaratorName?_map (p : Parser) :
    p.declaratorName?.map (·.2.2) = if atTarget p then some (skipTarget p) else none := by
  unfold declaratorName? atTarget skipTarget
  by_cases hk : p.peek.kind = .ident
  · simp [hk]
  · by_cases hb : (p.isPunct .openBrace || p.isPunct .openBracket) = true
    · simp [hk, hb]
    · simp [hk, hb]

/-- Complains that a declarator has no name. -/
def skipNoTarget (p : Parser) : Parser :=
  ((p.reportNoName "variable").recover [.semicolon]).skipPunct .semicolon

/-- The state behind declarators. -/
def skipDeclarators (m : DeclModifiers) (word : VarKeyword) (p : Parser) : Parser :=
  (declarators m word p).2

/-- Takes the declarators behind a comma, or ends the declaration. -/
def skipMoreDeclarators (m : DeclModifiers) (word : VarKeyword) (p : Parser) : Parser :=
  if p.isPunct .comma then skipDeclarators m word p.bump else p.finishItem

/-- The loop over declared variables, unfolded once. It is stated for the parser that is left
behind, without what is declared. -/
theorem skipDeclarators_eq (m : DeclModifiers) (word : VarKeyword) (p : Parser) :
    skipDeclarators m word p =
      if p.halted then p.finishItem
      else if atTarget p then skipMoreDeclarators m word (skipTarget p).declaratorRest
      else skipNoTarget p := by
  have hname := declaratorName?_map p
  unfold skipDeclarators
  rw [declarators.eq_def]
  split
  · rfl
  · split
    · rename_i hq
      rw [hq, Option.map_none] at hname
      rw [if_neg]
      · rfl
      · intro htarget
        rw [if_pos htarget] at hname
        exact absurd hname (by simp)
    · rename_i q hq
      rw [hq, Option.map_some] at hname
      by_cases htarget : atTarget p = true
      · rw [if_pos htarget, Option.some_inj] at hname
        rw [if_pos htarget, ← hname]
        unfold skipMoreDeclarators
        dsimp only
        split <;> rfl
      · rw [if_neg htarget] at hname
        exact absurd hname (by simp)

/-- Skipping a target leaves no more tokens. -/
theorem left_skipTarget_le (p : Parser) : (skipTarget p).left ≤ p.left := by
  unfold skipTarget
  split
  · rw [left_bump]
    omega
  · exact left_takeGroup_le p

/-! ## Namespaces -/

/-- Takes the dotted names behind the first name of a namespace. -/
def skipDotted (last : Token) (p : Parser) : Parser := p.take (Extent.dotted last p.ahead)

/-- Takes the name of a namespace. -/
def skipSpaceName (p : Parser) : Parser :=
  if p.peek.kind = .stringLit then p.bump else skipDotted p.peek p.bump

/-- Where the head of a namespace ends. -/
theorem spaceStart_snd (p : Parser) (m : DeclModifiers) :
    (p.spaceStart m).2 = if p.isWord "global" then p.bump else skipSpaceName p.bump := by
  unfold spaceStart skipSpaceName
  dsimp only
  rw [apply_ite Prod.snd, apply_ite Prod.snd]
  rfl

/-- Opens the body of a namespace, or ends one that has none. -/
def openSpace (s : SpaceStart) (p : Parser) : Item × Parser :=
  if p.isPunct .openBrace then (.opened s p.peek.span.lo, p.bump)
  else (.complete [s.finish none [] p.finishItem], p.finishItem)

/-! ## Modifiers -/

/-- The modifiers of a declaration are words. -/
theorem exists_words_of_read (afterDefault : Bool) (m : DeclModifiers) (count : Nat)
    (ts : List Token) :
    ∃ k, (DeclModifiers.read afterDefault m count ts).2 = count + k
      ∧ ∀ t ∈ ts.take k, t.kind = .ident := by
  fun_induction DeclModifiers.read afterDefault m count ts with
  | case2 m count t n us _ ht ih =>
    obtain ⟨k, hk, hus⟩ := ih
    have hword := (Bool.and_eq_true .. ▸ (Bool.and_eq_true .. ▸ ht).1).2
    exact ⟨k + 1, by omega, kind_of_mem_take_succ (Token.kind_of_isWord hword) hus⟩
  | case3 m count t n us _ _ ht ih | case4 m count t n us _ _ _ ht ih =>
    obtain ⟨k, hk, hus⟩ := ih
    have hword := (Bool.and_eq_true .. ▸ ht).1
    exact ⟨k + 1, by omega, kind_of_mem_take_succ (Token.kind_of_isWord hword) hus⟩
  | _ => exact ⟨0, rfl, fun u hu => absurd hu (by simp)⟩

/-! ## Looking for a declaration -/

/-- Whatever is found has the property. -/
def Finds (P : Item × Parser → Prop) (r? : Option (Item × Parser)) : Prop := ∀ r ∈ r?, P r

section Finds

variable {P Q : Item × Parser → Prop} {r? : Option (Item × Parser)} {a : Item × Parser}

theorem finds_none : Finds P none := fun _ h => absurd h (by simp)

theorem finds_some (h : P a) : Finds P (some a) := fun _ hr => Option.some.inj hr ▸ h

/-- What is found in either branch. -/
theorem Finds.ite {x y : Option (Item × Parser)} {t : Prop} [Decidable t] (hx : t → Finds P x)
    (hy : ¬ t → Finds P y) : Finds P (if t then x else y) := by
  split
  · exact hx ‹_›
  · exact hy ‹_›

/-- What is found has every weaker property. -/
theorem Finds.imp (h : Finds P r?) (hPQ : ∀ r, P r → Q r) : Finds Q r? :=
  fun r hr => hPQ r (h r hr)

/-- The item that is found, or else another one. -/
theorem Finds.orElse : Finds P r? → P a → P (match r? with | some r => r | none => a) := by
  intro h ha
  cases r? with
  | none => exact ha
  | some r => exact h r rfl

end Finds

/-! ## Kinds of declarations -/

/-- What each kind of declaration leaves has the property, given the words that it starts with. -/
structure EachDecl (P : Item × Parser → Prop) (p : Parser) (m : DeclModifiers) : Prop where
  functionDecl : p.isKeyword .functionKw = true →
    P (.complete (p.functionDecl m).1, (p.functionDecl m).2)
  classDecl : p.isKeyword .classKw = true → P (.complete (p.classDecl m).1, (p.classDecl m).2)
  interfaceDecl : p.isWord "interface" = true → p.peekNext.kind = .ident →
    P (.complete (p.interfaceDecl m).1, (p.interfaceDecl m).2)
  enumDecl : p.isKeyword .enumKw = true → P (.complete (p.enumDecl m).1, (p.enumDecl m).2)
  constEnumDecl : p.isKeyword .constKw = true → p.peekNext.isKeyword .enumKw = true →
    P (.complete (p.bump.enumDecl (m.startAt p.peek)).1, (p.bump.enumDecl (m.startAt p.peek)).2)
  variableDecl : p.isKeyword .constKw = true ∨ p.isKeyword .varKw = true ∨ p.isWord "let" = true →
    P (.complete (p.variableDecl m).1, (p.variableDecl m).2)
  typeAliasDecl : p.isWord "type" = true → p.peekNext.kind = .ident →
    P (.complete (p.typeAliasDecl m).1, (p.typeAliasDecl m).2)
  namespaceItem : ∀ w, p.isWord w = true →
    (p.isWord "global" = false → p.peekNext.kind = .ident ∨ p.peekNext.kind = .stringLit) →
    p.peekNext.kind ≠ .eof → P (p.namespaceItem m)

/-- **One kind after the other.** What each kind leaves has the property, and so has whatever is
found behind the modifiers. -/
theorem EachDecl.declRest? {P : Item × Parser → Prop} {p : Parser} {m : DeclModifiers}
    (H : EachDecl P p m) (onlyDefault : Bool) : Finds P (p.declRest? onlyDefault m) := by
  unfold Parser.declRest?
  dsimp only
  -- in the order in which the kinds are tried
  refine .ite (fun h => finds_some (H.functionDecl h)) fun _ => ?_
  refine .ite (fun h => finds_some (H.classDecl h)) fun _ => ?_
  refine .ite (fun h => ?_) fun _ => .ite (fun _ => finds_none) fun _ => ?_
  · simp only [Bool.and_eq_true, beq_iff_eq] at h
    exact finds_some (H.interfaceDecl h.1.1 h.1.2)
  refine .ite (fun h => finds_some (H.enumDecl h)) fun _ => .ite (fun h => ?_) fun _ => ?_
  · simp only [Bool.and_eq_true] at h
    exact finds_some (H.constEnumDecl h.1 h.2)
  refine .ite (fun h => ?_) fun _ => ?_
  · rw [Bool.or_eq_true] at h
    exact finds_some (H.variableDecl (h.imp_right .inl))
  refine .ite (fun h => ?_) fun _ => .ite (fun h => ?_) fun _ => ?_
  · simp only [Bool.and_eq_true] at h
    exact finds_some (H.variableDecl (.inr (.inr h.1)))
  · simp only [atTypeAlias, Bool.and_eq_true, beq_iff_eq] at h
    exact finds_some (H.typeAliasDecl h.1.1.1 h.1.1.2)
  refine .ite (fun h => ?_) fun _ => .ite (fun h => ?_) fun _ => finds_none
  · simp only [Bool.and_eq_true, Bool.or_eq_true, beq_iff_eq] at h
    have hnext : p.peekNext.kind ≠ .eof := by rcases h.1.2 with hk | hk <;> simp [hk]
    rcases h.1.1 with hw | hw
    · exact finds_some (H.namespaceItem _ hw (fun _ => h.1.2) hnext)
    · exact finds_some (H.namespaceItem _ hw (fun _ => h.1.2) hnext)
  · simp only [Bool.and_eq_true, Token.isPunct, beq_iff_eq] at h
    have hnext : p.peekNext.kind ≠ .eof := by simp [h.2]
    exact finds_some (H.namespaceItem _ h.1.1 (fun hno => absurd h.1.1 (by simp [hno])) hnext)

/-! ## Exported items and all items -/

/-- Takes what follows the words `export default` and decorators. -/
def defaultItem (p : Parser) : Item × Parser :=
  match p.declItem? .asDefault with
  | some r => r
  | none => (.complete [], p.skipExpr.finishItem)

/-- Takes what follows the word `export` and decorators. -/
def namedItem (p : Parser) : Item × Parser :=
  match p.declItem? .named with
  | some r => r
  | none =>
    if p.atEnd then (.complete [], p.report .unexpectedEof p.peek.span (bytes "declaration"))
    else (.complete [], (p.report .unexpectedToken p.peek.span p.peek.lexeme).skipStatement)

/-- An export, by its first token. -/
theorem exportItem_eq (p : Parser) :
    p.exportItem =
      if p.isKeyword .defaultKw then defaultItem p.bump.skipDecorators
      else if p.isPunct .assign then (.complete [], p.bump.skipExpr.finishItem)
      else if p.atExportClause then (.complete [], p.skipClause)
      else namedItem p.skipDecorators := rfl

/-- Takes an item behind its decorators. -/
def undecoratedItem (p : Parser) : Item × Parser :=
  if p.isKeyword .importKw then
    if p.peekNext.isPunct .openParen || p.peekNext.isPunct .dot then
      (.complete [], p.skipStatement)
    else (.complete [], p.bump.skipClause)
  else if p.isKeyword .exportKw then p.bump.exportItem
  else match p.declItem? .none with
    | some r => r
    | none => (.complete [], p.skipStatement)

theorem item_eq (p : Parser) :
    p.item = if p.isPunct .semicolon then (.complete [], p.bump)
      else undecoratedItem p.skipDecorators := rfl

/-- The state behind the items. -/
def skipItems (inBody : Bool) (p : Parser) : Parser := (itemsFrom inBody p).1.2

/-- The loop over items, unfolded once. -/
theorem skipItems_eq (inBody : Bool) (p : Parser) :
    skipItems inBody p = if p.itemsEnd inBody then p else skipItems inBody p.afterItem := by
  unfold skipItems
  by_cases h : p.itemsEnd inBody = true
  · rw [if_pos h, itemsFrom_of_itemsEnd h]
  · rw [if_neg h, itemsFrom_eq h]

end Parser

/-! ## Modules -/

/-- The findings of a module are those of its items. -/
theorem found_parseModule (source : Bytes) (tolerance : Nat) (tokens : List Token) :
    (parseModule source (some tolerance) [] tokens).found
      = (skipItems false (moduleStart source (some tolerance) [] tokens)).found := rfl

/-- The declarations of a module are those of the items that the loop comes by. -/
theorem decls_parseModule (source : Bytes) (tolerance : Nat) (tokens : List Token) :
    (parseModule source (some tolerance) [] tokens).decls
      = (itemStates false (moduleStart source (some tolerance) [] tokens)).flatMap itemDecls :=
  decls_itemsFrom _ _

end SignatureLedger
