import SignatureLedger.Proofs.Declaration.ItemRules
import SignatureLedger.Proofs.Declaration.Quiet

/-!
# What the moves of the grammar reach

Whatever the parser takes, types and members as well as declarations and items, it gets there by
taking tokens and reporting. Two of the moves leave something behind: a declaration starts where its
modifiers do (`declStart_read`), and the name of a namespace ends with the token that is taken last
(`previous_dottedName`).
-/

namespace SignatureLedger

open SignatureLedger.Parser

namespace Parser

variable {p q : Parser}

/-! ## Groups and stretches -/

/-- A group is taken on the way on. -/
theorem reaches_takeGroup (p : Parser) : Reaches p p.takeGroup := by
  rw [takeGroup_eq]
  exact reaches_take p _

theorem reaches_takeAngle (p : Parser) : Reaches p p.takeAngle := reaches_take p _

theorem reaches_takeParens (p : Parser) : Reaches p p.takeParens := reaches_take p _

theorem reaches_takePath (p : Parser) : Reaches p p.takePath :=
  (reaches_advance p _).trans (reaches_takeAngle _)

theorem reaches_takeArrays (p : Parser) : Reaches p p.takeArrays := reaches_take p _

theorem reaches_skipDecorators (p : Parser) : Reaches p p.skipDecorators := reaches_take p _

theorem reaches_skipExpr (p : Parser) : Reaches p p.skipExpr :=
  .ite (fun _ => .refl) (fun _ => reaches_take p _)

theorem reaches_skipHeritage (p : Parser) : Reaches p p.skipHeritage :=
  .ite (fun _ => .refl) (fun _ => reaches_take p _)

theorem reaches_skipClause (p : Parser) : Reaches p p.skipClause :=
  .ite (fun _ => .refl) (fun _ => reaches_take p _)

theorem reaches_skipStatement (p : Parser) : Reaches p p.skipStatement :=
  .ite (fun _ => (reaches_report p _ _ _).trans (reaches_bump _))
    (fun _ => .ite (fun _ => .refl) (fun _ => reaches_take p _))

/-- Behind an item that took nothing, one token is passed. -/
theorem reaches_pastItem (p q : Parser) : Reaches q (pastItem p q) :=
  .ite (fun _ => reaches_bump q) (fun _ => .refl)

/-! ## Types -/

/-- Reading a head of a type by its first token is a way on. -/
theorem reaches_headBy (k : TokenKind) (p : Parser) : Reaches p (headBy k p).2 := by
  unfold headBy
  split
  · exact (reaches_takeAngle p).trans (reaches_takeParens _)
  · exact reaches_takeGroup p
  · exact reaches_takeGroup p
  · exact reaches_takeGroup p
  · exact reaches_bump p
  · exact reaches_bump p
  · exact reaches_bump p
  · exact .ite (fun _ => (reaches_bump p).trans (reaches_bump _)) (fun _ => reaches_bump p)
  · exact ((reaches_bump p).trans (reaches_takeParens _)).trans (reaches_takePath _)
  · exact (reaches_bump p).trans (reaches_takePath _)
  · exact (reaches_bump p).trans (reaches_takePath _)
  · exact .giveUp _ _ _ .refl
  · exact reaches_report p _ _ _

/-- Reading the head of a type is a way on. -/
theorem reaches_typeHead (p : Parser) : Reaches p p.typeHead.2 := by
  rw [typeHead_eq]
  exact (reaches_take p _).trans (reaches_headBy _ _)

theorem reaches_skipUnionSign (p : Parser) : Reaches p p.skipUnionSign :=
  .ite (fun _ => reaches_bump p) (fun _ => .refl)

mutual

/-- Skipping a type is a way on: by induction on the tokens left, all the mutual calls at once. -/
theorem reaches_skipType (p : Parser) : Reaches p p.skipType := by
  rw [skipType_eq_conditional]
  refine .ite (fun _ => .refl) (fun _ => (reaches_skipUnion p).trans ?_)
  -- the condition behind the union, and its branches
  refine .ite (fun hk => ?_) (fun _ => .refl)
  have hle := left_skipUnion_le p
  have h₁ := left_bump_lt_of_isKeyword hk
  have h₂ := left_skipUnion_le p.skipUnion.bump
  refine ((reaches_bump _).trans (reaches_skipUnion p.skipUnion.bump)).trans ?_
  refine .ite (fun hc => ?_) (fun _ => .refl)
  have h₃ := left_bump_lt_of_isPunct hc
  have h₄ := left_skipType_le p.skipUnion.bump.skipUnion.bump
  have h₅ := left_expect_le p.skipUnion.bump.skipUnion.bump.skipType .colon
  refine ((reaches_bump _).trans (reaches_skipType p.skipUnion.bump.skipUnion.bump)).trans ?_
  exact (reaches_expect _ _).trans (.ite
    (fun _ => reaches_skipType (p.skipUnion.bump.skipUnion.bump.skipType.expect .colon).2)
    (fun _ => .refl))
termination_by 5 * p.left + 4

/-- So is skipping a union of types. -/
theorem reaches_skipUnion (p : Parser) : Reaches p p.skipUnion := by
  have h₁ := left_skipUnionSign_le p
  have h₂ := left_skipPrimary_le p.skipUnionSign
  rw [skipUnion_eq]
  exact ((reaches_skipUnionSign p).trans (reaches_skipPrimary p.skipUnionSign)).trans
    (reaches_skipUnionTail p.skipUnionSign.skipPrimary)
termination_by 5 * p.left + 3

/-- So is skipping the further members of a union. -/
theorem reaches_skipUnionTail (p : Parser) : Reaches p p.skipUnionTail := by
  rw [skipUnionTail_eq]
  refine .ite (fun h => ?_) (fun _ => .refl)
  have h₁ : p.bump.left < p.left := by
    rcases Bool.or_eq_true .. ▸ h with h | h
    · exact left_bump_lt_of_isPunct h
    · exact left_bump_lt_of_isPunct h
  have h₂ := left_skipPrimary_le p.bump
  exact ((reaches_bump p).trans (reaches_skipPrimary p.bump)).trans
    (reaches_skipUnionTail p.bump.skipPrimary)
termination_by 5 * p.left + 2

/-- So is skipping a single type. -/
theorem reaches_skipPrimary (p : Parser) : Reaches p p.skipPrimary := by
  have h₁ := left_typeHead_le p
  rw [skipPrimary_eq]
  exact (reaches_typeHead p).trans (reaches_skipTypeTail p.typeHead.1 p.typeHead.2)
termination_by 5 * p.left + 1

/-- So is skipping what follows the head of a type. -/
theorem reaches_skipTypeTail (head : TypeHead) (p : Parser) : Reaches p (p.skipTypeTail head) := by
  rw [skipTypeTail_eq_predicate]
  refine .ite (fun _ => .refl) (fun _ => .ite (fun ha => ?_) (fun _ => ?_))
  · have h₁ := left_bump_lt_of_isPunct ha.2
    exact (reaches_bump p).trans (reaches_skipType p.bump)
  · refine .ite (fun _ => .refl) (fun _ => (reaches_takeArrays p).trans ?_)
    refine .ite (fun h => ?_) (fun _ => .refl)
    have h₂ := left_takeArrays_le p
    have h₃ := left_bump_lt_of_isWord h.1
    exact (reaches_bump _).trans (reaches_skipType p.takeArrays.bump)
termination_by 5 * p.left

end

theorem reaches_skipOtherwise (p : Parser) : Reaches p (skipOtherwise p) :=
  (reaches_expect p .colon).trans (.ite (fun _ => reaches_skipType _) (fun _ => .refl))

theorem reaches_skipBranches (p : Parser) : Reaches p (skipBranches p) :=
  .ite (fun _ => ((reaches_bump p).trans (reaches_skipType _)).trans (reaches_skipOtherwise _))
    (fun _ => .refl)

theorem reaches_skipConditional (p : Parser) : Reaches p (skipConditional p) :=
  .ite (fun _ => ((reaches_bump p).trans (reaches_skipUnion _)).trans (reaches_skipBranches _))
    (fun _ => .refl)

theorem reaches_skipPredicate (p : Parser) : Reaches p (skipPredicate p) :=
  .ite (fun _ => (reaches_bump p).trans (reaches_skipType _)) (fun _ => .refl)

/-! ## Members -/

theorem reaches_skipInitializer (p : Parser) : Reaches p p.skipInitializer :=
  .ite (fun _ => (reaches_bump p).trans (reaches_skipExpr _)) (fun _ => .refl)

theorem reaches_skipParameters (p : Parser) : Reaches p (skipParameters p) :=
  .ite (fun _ => reaches_takeGroup p) (fun _ => reaches_expect p _)

theorem reaches_skipColonType (p : Parser) : Reaches p (skipColonType p) :=
  .ite (fun _ => (reaches_bump p).trans (reaches_skipType _)) (fun _ => .refl)

theorem reaches_skipBody (p : Parser) : Reaches p (skipBody p) :=
  .ite (fun _ => reaches_takeGroup p) (fun _ => reaches_finishItem p)

theorem reaches_skipSignature (p : Parser) : Reaches p (skipSignature p) :=
  (((reaches_takeAngle p).trans (reaches_skipParameters _)).trans (reaches_skipColonType _)).trans
    (reaches_skipBody _)

/-- Reading the name of a member by its first token is a way on. -/
theorem reaches_nameBy (k : TokenKind) (p : Parser) : Reaches p (nameBy k p).2 := by
  unfold nameBy
  split
  · exact reaches_bump p
  · exact reaches_bump p
  · exact reaches_bump p
  · exact reaches_takeGroup p
  · exact reaches_bump p
  · exact reaches_bump p
  · exact reaches_expect p _
  · exact ((reaches_report p _ _ _).trans (reaches_recover _ _)).trans (reaches_skipPunct _ _)

theorem reaches_skipMark (p : Parser) : Reaches p (skipMark p) :=
  .ite (fun _ => reaches_bump p) (fun _ => .refl)

theorem reaches_skipMemberRest (isIndex : Bool) (p : Parser) :
    Reaches p (skipMemberRest isIndex p) :=
  .ite (fun _ => reaches_skipSignature p) (fun _ => ((reaches_skipColonType p).trans
    (reaches_skipInitializer _)).trans (reaches_finishItem _))

/-- What follows the name of a member is a way on. -/
theorem reaches_skipNamedRest (isIndex? : Option Bool) (p : Parser) :
    Reaches p (skipNamedRest isIndex? p) := by
  cases isIndex? with
  | none => exact .refl
  | some isIndex => exact (reaches_skipMark p).trans (reaches_skipMemberRest isIndex _)

theorem reaches_skipNamed (p : Parser) : Reaches p (skipNamed p) :=
  (reaches_nameBy _ p).trans (reaches_skipNamedRest _ _)

theorem reaches_skipAccessor (p : Parser) : Reaches p (skipAccessor p) :=
  .ite (fun _ => reaches_bump p) (fun _ => .refl)

/-- So is a member behind its modifiers. -/
theorem reaches_skipUnmodified (block : Bool) (p : Parser) :
    Reaches p (skipUnmodified block p) := by
  refine .ite (fun _ => ?_) (fun _ => ?_)
  · exact (reaches_bump p).trans (reaches_takeGroup _)
  · exact ((reaches_skipAccessor p).trans (reaches_skipPunct _ _)).trans (reaches_skipNamed _)

/-- So is a whole member. -/
theorem reaches_member? (p : Parser) : Reaches p p.member?.2 := by
  rw [member?_snd]
  exact ((reaches_skipDecorators p).trans (reaches_advance _ _)).trans (reaches_skipUnmodified _ _)

/-- So is the loop over the members. -/
theorem reaches_skipMembers (p : Parser) : Reaches p (skipMembers p) := by
  rw [skipMembers_eq]
  refine .ite (fun _ => .refl) (fun hends => ?_)
  have hend : p.atEnd = false := by
    simp only [bodyEnds, Bool.or_eq_true, not_or, Bool.not_eq_true] at hends
    exact hends.1.2
  refine .ite (fun _ => ?_) (fun _ => ?_)
  · have hlt := left_bump_lt hend
    exact (reaches_bump p).trans (reaches_skipMembers p.bump)
  · have hlt := left_pastItem_lt (left_member?_le p) hend
    exact ((reaches_member? p).trans (reaches_pastItem p _)).trans
      (reaches_skipMembers (pastItem p p.member?.2))
termination_by p.left

/-- So is the body of a class. -/
theorem reaches_classBody (p : Parser) : Reaches p p.classBody.2 :=
  ((reaches_bump p).trans (reaches_skipMembers _)).trans (reaches_expect _ _)

/-! ## Declarations -/

theorem reaches_skipBraces (p : Parser) : Reaches p (skipBraces p) :=
  .ite (fun _ => reaches_takeGroup p) (fun _ => reaches_expect p _)

theorem reaches_skipName (p : Parser) : Reaches p (skipName p) :=
  .ite (fun _ => reaches_bump p) (fun _ => .refl)

theorem reaches_skipNameless (what : String) (p : Parser) : Reaches p (skipNameless what p) :=
  ((reaches_report p _ _ _).trans (reaches_recover _ _)).trans
    (.ite (fun _ => reaches_takeGroup _) (fun _ => reaches_skipPunct _ _))

/-- A declared function is a way on from behind its word. -/
theorem reaches_functionDecl (p : Parser) (m : DeclModifiers) :
    Reaches p.bump (p.functionDecl m).2 := by
  rw [functionDecl_snd]
  refine (reaches_skipPunct _ _).trans (.ite (fun _ => reaches_skipNameless _ _) (fun _ => ?_))
  exact (reaches_skipName _).trans (reaches_skipSignature _)

theorem reaches_skipClassName (m : DeclModifiers) (p : Parser) : Reaches p (skipClassName m p) :=
  .ite (fun _ => reaches_bump p)
    (fun _ => .ite (fun _ => reaches_report p _ _ _) (fun _ => .refl))

theorem reaches_skipClassBody (p : Parser) : Reaches p (skipClassBody p) :=
  .ite (fun _ => reaches_classBody p) (fun _ => reaches_expect p _)

/-- A declared class is a way on from behind its word. -/
theorem reaches_classDecl (p : Parser) (m : DeclModifiers) : Reaches p.bump (p.classDecl m).2 := by
  rw [classDecl_snd]
  exact (((reaches_skipClassName m _).trans (reaches_takeAngle _)).trans
    (reaches_skipHeritage _)).trans (reaches_skipClassBody _)

/-- A declared interface is a way on from behind its word. -/
theorem reaches_interfaceDecl (p : Parser) (m : DeclModifiers) :
    Reaches p.bump (p.interfaceDecl m).2 := by
  rw [interfaceDecl_snd]
  exact (((reaches_bump _).trans (reaches_takeAngle _)).trans (reaches_skipHeritage _)).trans
    (reaches_skipBraces _)

theorem reaches_skipDefinition (p : Parser) : Reaches p (skipDefinition p) :=
  (reaches_expect p .assign).trans (.ite (fun _ => reaches_skipType _) (fun _ => .refl))

/-- A declared alias is a way on from behind its word. -/
theorem reaches_typeAliasDecl (p : Parser) (m : DeclModifiers) :
    Reaches p.bump (p.typeAliasDecl m).2 := by
  rw [typeAliasDecl_snd]
  exact (((reaches_bump _).trans (reaches_takeAngle _)).trans (reaches_skipDefinition _)).trans
    (reaches_finishItem _)

theorem reaches_skipEnum (p : Parser) : Reaches p (skipEnum p) := by
  refine .ite (fun _ => (reaches_bump p).trans (reaches_skipBraces _)) (fun _ => ?_)
  exact ((reaches_report p _ _ _).trans (reaches_recover _ _)).trans
    (.ite (fun _ => reaches_takeGroup _) (fun _ => .refl))

/-- A declared enumeration is a way on from behind its word. -/
theorem reaches_enumDecl (p : Parser) (m : DeclModifiers) : Reaches p.bump (p.enumDecl m).2 := by
  rw [enumDecl_snd]
  exact reaches_skipEnum _

theorem reaches_declaratorRest (p : Parser) : Reaches p p.declaratorRest :=
  ((reaches_skipPunct p .bang).trans (reaches_skipColonType _)).trans (reaches_skipInitializer _)

theorem reaches_skipTarget (p : Parser) : Reaches p (skipTarget p) :=
  .ite (fun _ => reaches_bump p) (fun _ => reaches_takeGroup p)

/-- The loop over declared variables is a way on. -/
theorem reaches_declarators (m : DeclModifiers) (word : VarKeyword) (p : Parser) :
    Reaches p (declarators m word p).2 := by
  show Reaches p (skipDeclarators m word p)
  rw [skipDeclarators_eq]
  refine .ite (fun _ => reaches_finishItem p) (fun _ => .ite (fun _ => ?_) (fun _ => ?_))
  · refine ((reaches_skipTarget p).trans (reaches_declaratorRest _)).trans (.ite (fun hcomma => ?_)
      (fun _ => reaches_finishItem _))
    have h₁ := left_skipTarget_le p
    have h₂ := left_declaratorRest_le (skipTarget p)
    have h₃ := left_bump_lt_of_isPunct hcomma
    exact (reaches_bump _).trans
      (reaches_declarators m word (skipTarget p).declaratorRest.bump)
  · exact ((reaches_report p _ _ _).trans (reaches_recover _ _)).trans (reaches_skipPunct _ _)
termination_by p.left

/-- Declared variables are a way on from behind their word. -/
theorem reaches_variableDecl (p : Parser) (m : DeclModifiers) :
    Reaches p.bump (p.variableDecl m).2 := reaches_declarators _ _ _

/-! ## Namespaces -/

theorem reaches_skipSpaceName (p : Parser) : Reaches p (skipSpaceName p) :=
  .ite (fun _ => reaches_bump p) (fun _ => (reaches_bump p).trans (reaches_take _ _))

/-- The head of a namespace is a way on from behind its word. -/
theorem reaches_spaceStart (p : Parser) (m : DeclModifiers) :
    Reaches p.bump (p.spaceStart m).2 := by
  rw [spaceStart_snd]
  exact .ite (fun _ => .refl) (fun _ => reaches_skipSpaceName _)

/-- The opening of its body is a way on. -/
theorem reaches_openSpace (s : SpaceStart) (p : Parser) : Reaches p (openSpace s p).2 := by
  unfold openSpace
  rw [apply_ite Prod.snd]
  exact .ite (fun _ => reaches_bump p) (fun _ => reaches_finishItem p)

/-- A namespace is a way on from behind its word, up to its body. -/
theorem reaches_namespaceItem (p : Parser) (m : DeclModifiers) :
    Reaches p.bump (p.namespaceItem m).2 := (reaches_spaceStart p m).trans (reaches_openSpace _ _)

/-- The state is reached behind a token that was left. -/
structure Advances (p q : Parser) : Prop where
  notAtEnd : p.atEnd = false
  reaches : Reaches p.bump q

/-- What advances leaves fewer tokens. -/
theorem Advances.left_lt (h : Advances p q) : q.left < p.left :=
  Nat.lt_of_le_of_lt (left_le_of_reaches h.reaches) (left_bump_lt h.notAtEnd)

/-- Every kind of declaration takes its keyword. -/
theorem eachDecl_advances (p : Parser) (m : DeclModifiers) :
    EachDecl (fun r => Advances p r.2) p m where
  functionDecl := fun h => ⟨atEnd_of_isKeyword h, reaches_functionDecl p m⟩
  classDecl := fun h => ⟨atEnd_of_isKeyword h, reaches_classDecl p m⟩
  interfaceDecl := fun h _ => ⟨atEnd_of_isWord h, reaches_interfaceDecl p m⟩
  enumDecl := fun h => ⟨atEnd_of_isKeyword h, reaches_enumDecl p m⟩
  constEnumDecl := fun h _ =>
    ⟨atEnd_of_isKeyword h, (reaches_bump _).trans (reaches_enumDecl p.bump _)⟩
  variableDecl := fun h =>
    ⟨h.elim atEnd_of_isKeyword fun h => h.elim atEnd_of_isKeyword atEnd_of_isWord,
      reaches_variableDecl p m⟩
  typeAliasDecl := fun h _ => ⟨atEnd_of_isWord h, reaches_typeAliasDecl p m⟩
  namespaceItem := fun _ h _ _ => ⟨atEnd_of_isWord h, reaches_namespaceItem p m⟩

/-- A declaration that is found is a way on. -/
theorem findsReached_declItem? (p : Parser) (exported : ExportMode) :
    Finds (fun r => Reaches p r.2) (p.declItem? exported) :=
  ((eachDecl_advances _ _).declRest? _).imp fun _ h =>
    (reaches_advance p _).trans ((reaches_bump _).trans h.reaches)

/-! ## Items -/

/-- A default export is a way on. -/
theorem reaches_defaultItem (p : Parser) : Reaches p (defaultItem p).2 :=
  (findsReached_declItem? p .asDefault).orElse (P := fun r => Reaches p r.2)
    ((reaches_skipExpr p).trans (reaches_finishItem _))

/-- An export with a name is a way on. -/
theorem reaches_namedItem (p : Parser) : Reaches p (namedItem p).2 := by
  refine (findsReached_declItem? p .named).orElse (P := fun r => Reaches p r.2) ?_
  rw [apply_ite Prod.snd]
  exact .ite (fun _ => reaches_report p _ _ _)
    (fun _ => (reaches_report p _ _ _).trans (reaches_skipStatement _))

/-- Every export is a way on. -/
theorem reaches_exportItem (p : Parser) : Reaches p p.exportItem.2 := by
  rw [exportItem_eq, apply_ite Prod.snd, apply_ite Prod.snd, apply_ite Prod.snd]
  refine .ite (fun _ => ?_) fun _ => .ite (fun _ => ?_) fun _ => ?_
  · exact ((reaches_bump p).trans (reaches_skipDecorators _)).trans (reaches_defaultItem _)
  · exact ((reaches_bump p).trans (reaches_skipExpr _)).trans (reaches_finishItem _)
  refine .ite (fun _ => reaches_skipClause p) fun _ => ?_
  exact (reaches_skipDecorators p).trans (reaches_namedItem _)

/-- Every item behind its decorators is a way on. -/
theorem reaches_undecoratedItem (p : Parser) : Reaches p (undecoratedItem p).2 := by
  unfold undecoratedItem
  rw [apply_ite Prod.snd, apply_ite Prod.snd, apply_ite Prod.snd]
  refine .ite (fun _ => ?_) fun _ => .ite (fun _ => ?_) fun _ => ?_
  · -- an import
    refine .ite (fun _ => reaches_skipStatement p) fun _ => ?_
    exact (reaches_bump p).trans (reaches_skipClause _)
  · exact (reaches_bump p).trans (reaches_exportItem _)
  · exact (findsReached_declItem? p .none).orElse (P := fun r => Reaches p r.2)
      (reaches_skipStatement p)

/-- Every item is a way on. -/
theorem reaches_item (p : Parser) : Reaches p p.item.2 := by
  rw [item_eq, apply_ite Prod.snd]
  exact .ite (fun _ => reaches_bump p)
    (fun _ => (reaches_skipDecorators p).trans (reaches_undecoratedItem _))

/-- The body of a namespace is a run of items, each of which is reached from the one before. -/
theorem reaches_itemsFrom (inBody : Bool) (p : Parser) : Reaches p (itemsFrom inBody p).1.2 := by
  by_cases hend : p.itemsEnd inBody = true
  · rw [itemsFrom_of_itemsEnd hend]
    exact .refl
  have hlt := left_afterItem_lt (atEnd_of_itemsEnd hend)
  have hitem := reaches_item p
  have hafter : Reaches p p.afterItem := by
    rcases hi : p.item with ⟨ds | ⟨s, b⟩, q⟩
    · rw [hi] at hitem
      rw [afterItem_of_complete hi]
      exact hitem.trans (reaches_pastItem p q)
    · have hq := left_item_lt_of_opened hi
      rw [hi] at hitem
      rw [afterItem_of_opened hi]
      exact (hitem.trans (reaches_itemsFrom true q)).trans (reaches_expect _ _)
  rw [itemsFrom_eq hend]
  exact hafter.trans (reaches_itemsFrom inBody p.afterItem)
termination_by p.left

/-- Closing an item is a way on. -/
theorem reaches_closeItem (r : Item × Parser) : Reaches r.2 (closeItem r).2 := by
  rcases r with ⟨ds | ⟨s, body⟩, q⟩
  · exact .refl
  · exact (reaches_itemsFrom true q).trans (reaches_expect _ _)

/-- The way past an item is a way on. -/
theorem reaches_afterItem (p : Parser) : Reaches p p.afterItem :=
  ((reaches_item p).trans (reaches_closeItem p.item)).trans (reaches_pastItem p _)

end Parser

/-! ## Where a declaration starts -/

/-- A declaration starts where the first of its modifiers stands, or without any at its keyword. -/
theorem lo?_read (afterDefault : Bool) (m : DeclModifiers) (count : Nat) (ts : List Token) :
    count ≤ (DeclModifiers.read afterDefault m count ts).2 ∧
      ∀ e : Token, (DeclModifiers.read afterDefault m count ts).1.lo?.getD
          ((ts.drop ((DeclModifiers.read afterDefault m count ts).2 - count)).headD e).span.lo
        = m.lo?.getD (ts.headD e).span.lo := by
  have hstop : ∀ (m : DeclModifiers) (count : Nat) (ts : List Token), count ≤ count ∧ ∀ e : Token,
      m.lo?.getD ((ts.drop (count - count)).headD e).span.lo
        = m.lo?.getD (ts.headD e).span.lo := by
    intro m count ts
    rw [Nat.sub_self]
    exact ⟨Nat.le_refl _, fun _ => rfl⟩
  -- a modifier notes its place, unless there is one before it
  have hmore : ∀ (m m₁ : DeclModifiers) (count : Nat) (t n : Token) (us : List Token)
      (a : DeclModifiers × Nat), m₁.lo? = some (m.lo?.getD t.span.lo) →
      (count + 1 ≤ a.2 ∧ ∀ e : Token,
        a.1.lo?.getD (((n :: us).drop (a.2 - (count + 1))).headD e).span.lo
          = m₁.lo?.getD ((n :: us).headD e).span.lo) →
      count ≤ a.2 ∧ ∀ e : Token,
        a.1.lo?.getD (((t :: n :: us).drop (a.2 - count)).headD e).span.lo
          = m.lo?.getD ((t :: n :: us).headD e).span.lo := by
    intro m m₁ count t n us a hlo ⟨hle, hrest⟩
    refine ⟨by omega, fun e => ?_⟩
    rw [show a.2 - count = (a.2 - (count + 1)) + 1 by omega, List.drop_succ_cons, hrest e, hlo]
    rfl
  fun_induction DeclModifiers.read afterDefault m count ts with
  | case1 m count t n us _ => exact hstop m count _
  | case2 m count t n us _ _ ih => exact hmore m _ count t n us _ rfl ih
  | case3 m count t n us _ _ _ ih => exact hmore m _ count t n us _ rfl ih
  | case4 m count t n us _ _ _ _ ih => exact hmore m _ count t n us _ rfl ih
  | case5 m count t n us _ _ _ _ => exact hstop m count _
  | case6 => exact hstop _ _ _

/-- A declaration starts where its modifiers do. -/
theorem declStart_read (p : Parser) (afterDefault : Bool) (exported : ExportMode) :
    (p.advance (DeclModifiers.read afterDefault { exported } 0 p.ahead).2).declStart
      (DeclModifiers.read afterDefault { exported } 0 p.ahead).1 = p.peek.span.lo := by
  have hlo := (lo?_read afterDefault { exported } 0 p.ahead).2 (Token.eofAt p.cursor.stop)
  have hpeek : ∀ n, (p.advance n).peek = (p.ahead.drop n).headD (Token.eofAt p.cursor.stop) := by
    intro n
    rw [peek, Cursor.peek, ← ahead_advance]
    show _ = (p.advance n).cursor.ahead.headD _
    rw [show p.cursor.stop = (p.advance n).cursor.stop from (Cursor.stop_advance _ _).symm]
  rw [declStart, hpeek]
  exact hlo

/-! ## The name of a namespace -/

/-- The cursor behind a dotted name stands behind its last token. -/
theorem previous_dottedName {last : Token} (c : Cursor) (ts : List Token) (hts : c.ahead = ts)
    (hlast : c.previous = last) :
    (c.advance (dottedName last ts).1).previous = (dottedName last ts).2 := by
  fun_induction dottedName last ts generalizing c with
  | case1 last a b ts hab n t hrest ih =>
    have hbump : c.bump = ⟨a :: c.behind, b :: ts, c.stop⟩ := by rw [Cursor.bump, hts]
    have hnext : c.bump.bump = ⟨b :: a :: c.behind, ts, c.stop⟩ := by rw [hbump, Cursor.bump]
    rw [hrest] at ih
    have hadvance := ih c.bump.bump (by rw [hnext]) (by rw [hnext]; rfl)
    rwa [Nat.add_comm]
  | case2 last a b ts hab => exact hlast
  | case3 last ts hshort => exact hlast

end SignatureLedger
