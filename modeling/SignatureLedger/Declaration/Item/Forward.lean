import SignatureLedger.Declaration.Item

/-!
# Items take tokens only forward

Behind an item there are no more tokens than before it (`left_item_le`), and behind the opening
brace of a namespace there are fewer (`left_item_lt_of_opened`). This is what lets modules be read
item by item.
-/

namespace SignatureLedger

namespace Parser

/-! ## Parts of declarations -/

/-- A statement is taken forward; at a bracket that closes nothing it takes the bracket. -/
theorem left_skipStatement_le (p : Parser) : p.skipStatement.left ≤ p.left := by
  unfold skipStatement; split
  · rw [left_bump, left_report]; omega
  · split
    · exact Nat.le_refl _
    · rw [left_take]; omega

/-- A clause is taken forward. -/
theorem left_skipClause_le (p : Parser) : p.skipClause.left ≤ p.left := by
  unfold skipClause; split
  · exact Nat.le_refl _
  · rw [left_take]; omega

/-- The head of a class is taken forward. -/
theorem left_skipHeritage_le (p : Parser) : p.skipHeritage.left ≤ p.left := by
  unfold skipHeritage; split
  · exact Nat.le_refl _
  · rw [left_take]; omega

theorem left_typeParams?_le (p : Parser) : p.typeParams?.2.left ≤ p.left := by
  unfold typeParams?; split
  · split <;> exact left_takeAngle_le p
  · exact Nat.le_refl _

/-- A body that has to be there is taken or left. -/
theorem left_requiredBody_le (p : Parser) : p.requiredBody.2.left ≤ p.left := by
  unfold requiredBody; split
  · exact left_body?_le p
  · exact left_expect_le p _

/-- The report of a missing name takes no token. -/
theorem left_reportNoName (p : Parser) (what : String) : (p.reportNoName what).left = p.left :=
  left_report p _ _ _

/-- The body of a class is taken forward, its last brace included. -/
theorem left_classBody_le (p : Parser) : p.classBody.2.left ≤ p.left := by
  unfold classBody
  dsimp only
  refine Nat.le_trans (left_expect_le _ _) (Nat.le_trans (left_membersFrom_le _) ?_)
  rw [left_bump]; omega

/-- Choosing between a state with fewer tokens and the state itself. -/
theorem left_ite_le {c : Prop} [Decidable c] {p a b : Parser} (ha : a.left ≤ p.left)
    (hb : b.left ≤ p.left) : (if c then a else b).left ≤ p.left := by
  split <;> assumption

/-- A step is forward. -/
theorem left_bump_le (p : Parser) : p.bump.left ≤ p.left := by rw [left_bump]; omega

theorem left_bump_skipType_le (p : Parser) : p.bump.skipType.left ≤ p.left :=
  Nat.le_trans (left_skipType_le _) (left_bump_le p)

/-! ## Declarations -/

/-- A function is taken forward: its name, parameters, result type and body come one behind the
other. -/
theorem left_functionDecl_le (p : Parser) (m : DeclModifiers) :
    (p.functionDecl m).2.left ≤ p.left := by
  unfold functionDecl
  dsimp only
  have h₁ := Nat.le_trans (left_skipPunct_le p.bump .star) (left_bump_le p)
  generalize p.bump.skipPunct .star = a at h₁ ⊢
  split
  · have h₂ : ((a.reportNoName "function").recover [.semicolon, .openBrace]).left ≤ a.left :=
      Nat.le_trans (left_recover_le _ _) (Nat.le_of_eq (left_reportNoName a _))
    generalize (a.reportNoName "function").recover [.semicolon, .openBrace] = b at h₂ ⊢
    have h₃ := left_takeGroup_le b
    have h₄ := left_skipPunct_le b .semicolon
    exact left_ite_le (by omega) (by omega)
  · have h₂ : (if a.peek.kind = .ident then a.bump else a).left ≤ a.left :=
      left_ite_le (left_bump_le a) (Nat.le_refl _)
    generalize (if a.peek.kind = .ident then a.bump else a) = b at h₂ ⊢
    have h₃ := left_typeParams?_le b
    generalize b.typeParams? = tp at h₃ ⊢
    have h₄ : (if tp.2.isPunct .openParen then tp.2.takeGroup
        else (tp.2.expect .openParen).2).left ≤ tp.2.left :=
      left_ite_le (left_takeGroup_le _) (left_expect_le _ _)
    generalize (if tp.2.isPunct .openParen then tp.2.takeGroup
        else (tp.2.expect .openParen).2) = c at h₄ ⊢
    have h₅ : (if c.isPunct .colon then c.bump.skipType else c).left ≤ c.left :=
      left_ite_le (left_bump_skipType_le c) (Nat.le_refl _)
    generalize (if c.isPunct .colon then c.bump.skipType else c) = d at h₅ ⊢
    have h₆ := left_body?_le d
    have h₇ := left_finishItem_le d.body?.2
    exact left_ite_le (by omega) (by omega)

/-- A class is taken forward. -/
theorem left_classDecl_le (p : Parser) (m : DeclModifiers) :
    (p.classDecl m).2.left ≤ p.left := by
  unfold classDecl
  dsimp only
  have h₁ := left_bump_le p
  generalize p.bump = a at h₁ ⊢
  have h₂ : (if (a.peek.kind = .ident && !a.isWord "implements") = true then a.bump
      else if m.exported ≠ .asDefault then a.reportNoName "class" else a).left ≤ a.left :=
    left_ite_le (left_bump_le a)
      (left_ite_le (Nat.le_of_eq (left_reportNoName a _)) (Nat.le_refl _))
  generalize (if (a.peek.kind = .ident && !a.isWord "implements") = true then a.bump
      else if m.exported ≠ .asDefault then a.reportNoName "class" else a) = b at h₂ ⊢
  have h₃ := left_typeParams?_le b
  have h₄ := left_skipHeritage_le b.typeParams?.2
  generalize b.typeParams?.2.skipHeritage = c at h₄ ⊢
  split
  · exact Nat.le_trans (left_classBody_le c) (by omega)
  · exact Nat.le_trans (left_expect_le c .openBrace) (by omega)

/-- An interface is taken forward. -/
theorem left_interfaceDecl_le (p : Parser) (m : DeclModifiers) :
    (p.interfaceDecl m).2.left ≤ p.left := by
  unfold interfaceDecl
  dsimp only
  have h₁ := left_bump_le p
  have h₂ := left_bump_le p.bump
  have h₃ := left_typeParams?_le p.bump.bump
  have h₄ := left_skipHeritage_le p.bump.bump.typeParams?.2
  have h₅ := left_requiredBody_le p.bump.bump.typeParams?.2.skipHeritage
  omega

/-- A type alias is taken forward. -/
theorem left_typeAliasDecl_le (p : Parser) (m : DeclModifiers) :
    (p.typeAliasDecl m).2.left ≤ p.left := by
  unfold typeAliasDecl
  dsimp only
  have h₁ := left_bump_le p
  have h₂ := left_bump_le p.bump
  have h₃ := left_typeParams?_le p.bump.bump
  generalize p.bump.bump.typeParams?.2 = a at h₃ ⊢
  have h₄ := left_expect_le a .assign
  refine Nat.le_trans (left_finishItem_le _) (left_ite_le ?_ (by omega))
  exact Nat.le_trans (left_skipType_le _) (by omega)

/-- An enum is taken forward. -/
theorem left_enumDecl_le (p : Parser) (m : DeclModifiers) : (p.enumDecl m).2.left ≤ p.left := by
  unfold enumDecl
  dsimp only
  have h₁ := left_bump_le p
  generalize p.bump = a at h₁ ⊢
  split
  · have := left_bump_le a
    have := left_requiredBody_le a.bump
    dsimp only; omega
  · have h₂ : ((a.reportNoName "enum").recover [.semicolon, .openBrace]).left ≤ a.left :=
      Nat.le_trans (left_recover_le _ _) (Nat.le_of_eq (left_reportNoName a _))
    exact left_ite_le (Nat.le_trans (left_takeGroup_le _) (by omega)) (by omega)

/-- Declarators are taken forward; each comma is one more token. -/
theorem left_declarators_le (m : DeclModifiers) (word : VarKeyword) (p : Parser) :
    (declarators m word p).2.left ≤ p.left := by
  fun_induction declarators m word p with
  | case1 p _ => exact left_finishItem_le p
  | case2 p _ _ =>
    refine Nat.le_trans (left_skipPunct_le _ _) (Nat.le_trans (left_recover_le _ _) ?_)
    exact Nat.le_of_eq (left_reportNoName p _)
  | case3 p _ name isPattern q hq lo head d hc rest ih =>
    have := left_bump_le q.declaratorRest
    have := left_declaratorRest_le q
    have := left_declaratorName?_le hq
    have : rest.2.left ≤ q.declaratorRest.bump.left := ih
    dsimp only; omega
  | case4 p _ name isPattern q hq lo head d hc =>
    have := left_finishItem_le q.declaratorRest
    have := left_declaratorRest_le q
    have := left_declaratorName?_le hq
    dsimp only; omega

theorem left_variableDecl_le (p : Parser) (m : DeclModifiers) :
    (p.variableDecl m).2.left ≤ p.left :=
  Nat.le_trans (left_declarators_le _ _ _) (left_bump_le p)

/-- The name of a namespace is taken forward. -/
theorem left_spaceStart_le (p : Parser) (m : DeclModifiers) :
    (p.spaceStart m).2.left ≤ p.left := by
  unfold spaceStart
  dsimp only
  have h₁ := left_bump_le p
  have h₂ := left_bump_le p.bump
  split
  · exact h₁
  · split
    · dsimp only; omega
    · dsimp only; rw [left_advance]; omega

/-! ## Items -/

/-- An item has taken tokens only forward, and the brace of an opened namespace for certain. -/
def Moved (start : Parser) (r : Item × Parser) : Prop :=
  r.2.left ≤ start.left ∧ ∀ s b, r.1 = .opened s b → r.2.left < start.left

/-- An item that is complete need only have been taken forward. -/
theorem moved_complete {start p : Parser} {ds : List Decl} (h : p.left ≤ start.left) :
    Moved start (.complete ds, p) := ⟨h, by simp⟩

/-- What has moved from a state has moved from each one before it. -/
theorem Moved.mono {p start : Parser} {r : Item × Parser} (h : Moved p r)
    (hp : p.left ≤ start.left) : Moved start r :=
  ⟨Nat.le_trans h.1 hp, fun s b hs => Nat.lt_of_lt_of_le (h.2 s b hs) hp⟩

/-- A namespace takes its brace for certain. -/
theorem moved_namespaceItem (p : Parser) (m : DeclModifiers) : Moved p (p.namespaceItem m) := by
  unfold namespaceItem
  dsimp only
  have h₁ := left_spaceStart_le p m
  generalize p.spaceStart m = s at h₁ ⊢
  split
  · rename_i hb
    have := left_bump_lt_of_isPunct hb
    exact ⟨by dsimp only; omega, fun _ _ _ => by dsimp only; omega⟩
  · exact moved_complete (Nat.le_trans (left_finishItem_le _) h₁)

/-- Whatever is taken is taken forward. -/
def MayMove (start : Parser) (o : Option (Item × Parser)) : Prop := ∀ r, o = some r → Moved start r

/-- Where nothing is found, nothing has moved. -/
theorem MayMove.none (start : Parser) : MayMove start none := by simp [MayMove]

/-- An item that is found has moved if the item itself has. -/
theorem Moved.mayMove {start : Parser} {r : Item × Parser} (h : Moved start r) :
    MayMove start (some r) := by
  intro r' hr
  obtain rfl := Option.some.inj hr
  exact h

/-- A choice moves forward if both alternatives do. -/
theorem MayMove.ite {c : Prop} [Decidable c] {start : Parser} {a b : Option (Item × Parser)}
    (ha : MayMove start a) (hb : MayMove start b) : MayMove start (if c then a else b) := by
  split <;> assumption

/-- Whatever kind of declaration is found behind the modifiers, it has moved. -/
theorem mayMove_declRest? (p : Parser) (onlyDefault : Bool) (m : DeclModifiers) :
    MayMove p (p.declRest? onlyDefault m) := by
  unfold declRest?
  dsimp only
  refine .ite (moved_complete (left_functionDecl_le p m)).mayMove ?_
  refine .ite (moved_complete (left_classDecl_le p m)).mayMove ?_
  refine .ite (moved_complete (left_interfaceDecl_le p m)).mayMove ?_
  refine .ite (.none p) ?_
  refine .ite (moved_complete (left_enumDecl_le p m)).mayMove ?_
  refine .ite (moved_complete (Nat.le_trans (left_enumDecl_le _ _) (left_bump_le p))).mayMove ?_
  refine .ite (moved_complete (left_variableDecl_le p m)).mayMove ?_
  refine .ite (moved_complete (left_variableDecl_le p m)).mayMove ?_
  refine .ite (moved_complete (left_typeAliasDecl_le p m)).mayMove ?_
  refine .ite (moved_namespaceItem p _).mayMove ?_
  exact .ite (moved_namespaceItem p _).mayMove (.none p)

/-- The same with the modifiers in front. -/
theorem moved_declItem? {start : Parser} {exported : ExportMode} {r : Item × Parser}
    (h : start.declItem? exported = some r) : Moved start r :=
  (mayMove_declRest? _ _ _ r h).mono (by rw [left_advance]; omega)

/-- An exported item has moved, be it a declaration, a value or a clause. What is none of these is
reported, and then it is passed like a statement. -/
theorem moved_exportItem (p : Parser) : Moved p p.exportItem := by
  unfold exportItem
  dsimp only
  have hb := left_bump_le p
  split
  · have hd := left_skipDecorators_le p.bump
    split
    · rename_i r hr
      exact (moved_declItem? hr).mono (by omega)
    · exact moved_complete (Nat.le_trans (left_finishItem_le _)
        (Nat.le_trans (left_skipExpr_le _) (by omega)))
  · split
    · exact moved_complete (Nat.le_trans (left_finishItem_le _)
        (Nat.le_trans (left_skipExpr_le _) hb))
    · split
      · exact moved_complete (left_skipClause_le p)
      · have hd := left_skipDecorators_le p
        split
        · rename_i r hr
          exact (moved_declItem? hr).mono hd
        · split
          · exact moved_complete (Nat.le_trans (Nat.le_of_eq (left_report _ _ _ _)) hd)
          · exact moved_complete (Nat.le_trans (left_skipStatement_le _)
              (Nat.le_trans (Nat.le_of_eq (left_report _ _ _ _)) hd))

/-- Every item has moved. -/
theorem moved_item (start : Parser) : Moved start start.item := by
  unfold item
  dsimp only
  split
  · exact moved_complete (left_bump_le start)
  · have hd := left_skipDecorators_le start
    generalize start.skipDecorators = p at hd ⊢
    split
    · split
      · exact moved_complete (Nat.le_trans (left_skipStatement_le p) hd)
      · exact moved_complete (Nat.le_trans (left_skipClause_le _)
          (Nat.le_trans (left_bump_le p) hd))
    · split
      · exact (moved_exportItem p.bump).mono (Nat.le_trans (left_bump_le p) hd)
      · split
        · rename_i r hr
          exact (moved_declItem? hr).mono hd
        · exact moved_complete (Nat.le_trans (left_skipStatement_le p) hd)

/-- No item gives a token back. -/
theorem left_item_le (p : Parser) : p.item.2.left ≤ p.left := (moved_item p).1

/-- A namespace that opens has taken a token. -/
theorem left_item_lt_of_opened {p q : Parser} {s : SpaceStart} {b : Nat}
    (h : p.item = (.opened s b, q)) : q.left < p.left := by
  have := (moved_item p).2 s b (by rw [h])
  rwa [h] at this

end Parser

end SignatureLedger
