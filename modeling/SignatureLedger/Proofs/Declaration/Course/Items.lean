import SignatureLedger.Proofs.Declaration.Course.Members

/-!
# The course of items

Every item is skimmed over between items, and the loop over them ends where it has to: at the end of
the source, if the parse has been quiet. Import and export clauses, the heads of classes and
interfaces and the values of a default export are skimmed over in places of their own.
-/

namespace SignatureLedger

namespace Parser

variable {m : Place} {p q : Parser}

/-! ## Functions and classes -/

theorem course_skipBraces (p : Parser) : Course m p (skipBraces p) :=
  .ite (fun _ => course_takeGroup p) (fun hno => course_expect fun h => absurd h hno)

theorem course_skipName (p : Parser) : Course m p (skipName p) :=
  .ite (fun h => course_bump_of_kind h rfl) (fun _ => .refl)

theorem sited_takeGroup (p : Parser) : Sited p p.takeGroup :=
  (course_takeGroup (m := .items) p).sited

theorem Course.of_noName (what : String) (stops : List Punct)
    (h : Sited ((p.reportNoName what).recover stops) q) : Course m p q :=
  .of_report (by decide) _ ((sited_recover _ stops).trans h)

theorem course_skipNameless (what : String) (p : Parser) : Course m p (skipNameless what p) := by
  refine .of_noName what [.semicolon, .openBrace] ?_
  unfold skipNameless
  dsimp only
  split
  · exact sited_takeGroup _
  · exact sited_skipPunct _ _

/-- A declared function goes on from its word. -/
theorem onward_functionDecl (h : p.isKeyword .functionKw = true) (mods : DeclModifiers) :
    Onward p (p.functionDecl mods).2 := by
  rw [functionDecl_snd]
  have hstar : Course .items p.bump (p.bump.skipPunct .star) := course_skipPunct _ rfl
  refine .of_bump (course_bump_of_isKeyword h) (hstar.trans (.ite ?_ ?_))
  · exact fun _ => course_skipNameless _ _
  · exact fun _ => (course_skipName _).trans (course_skipSignature _)

theorem course_skipClassName (mods : DeclModifiers) (p : Parser) :
    Course m p (skipClassName mods p) := by
  refine .ite (fun h => ?_) (fun _ => .ite (fun _ => .of_report (by decide) _ .refl)
    (fun _ => .refl))
  simp only [Bool.and_eq_true, decide_eq_true_eq] at h
  exact course_bump_of_kind h.1 rfl

theorem course_skipHeritage (p : Parser) : Course .clause p p.skipHeritage :=
  .ite (fun _ => .refl) (fun _ => course_take (Extent.blames_heritage _) (skims_heritage _))

theorem course_skipClassBody (p : Parser) : Course .items p (skipClassBody p) :=
  .ite course_classBody (fun hno => course_expect fun h => absurd h hno)

/-- The head of a class stands behind its keyword, and its body behind the head. -/
theorem onward_classDecl (h : p.isKeyword .classKw = true) (mods : DeclModifiers) :
    Onward p (p.classDecl mods).2 := by
  rw [classDecl_snd]
  have hlead : Place.clause.startsBehind p.peek = true := by
    simp [Place.startsBehind, show p.peek.isKeyword .classKw = true from h]
  exact (Onward.lead hlead (((course_skipClassName mods _).trans (course_takeAngle _)).trans
    (course_skipHeritage _))).trans (course_skipClassBody _)

/-! ## Interfaces, type aliases and enums -/

theorem course_bump_of_peekNext (hn : p.peekNext.kind = .ident) : Course m p.bump p.bump.bump :=
  course_bump_of_kind (by rw [peek_bump, hn]) rfl

/-- A declared interface goes on from its word. -/
theorem onward_interfaceDecl (hw : p.isWord "interface" = true) (hn : p.peekNext.kind = .ident)
    (mods : DeclModifiers) : Onward p (p.interfaceDecl mods).2 := by
  rw [interfaceDecl_snd]
  have hlead : Place.clause.startsBehind p.peek = true := by
    simp [Place.startsBehind, show p.peek.isWord "interface" = true from hw]
  exact (Onward.lead hlead (((course_bump_of_peekNext hn).trans (course_takeAngle _)).trans
    (course_skipHeritage _))).trans (course_skipBraces _)

/-- A declared alias goes on from its word. -/
theorem onward_typeAliasDecl {w : String} (hw : p.isWord w = true)
    (hn : p.peekNext.kind = .ident) (mods : DeclModifiers) :
    Onward p (p.typeAliasDecl mods).2 := by
  rw [typeAliasDecl_snd]
  have hdefinition : Course .items p.bump.bump.takeAngle (skipDefinition p.bump.bump.takeAngle) :=
    .expect_then rfl (fun _ => course_skipType _)
  exact .of_bump (course_bump_of_isWord hw) ((((course_bump_of_peekNext hn).trans
    (course_takeAngle _)).trans hdefinition).trans (course_finishItem _))

/-- An enumeration is a course over items. -/
theorem course_skipEnum (p : Parser) : Course .items p (skipEnum p) := by
  refine .ite (fun h => (course_bump_of_kind h rfl).trans (course_skipBraces _)) (fun _ => ?_)
  refine .of_noName "enum" [.semicolon, .openBrace] ?_
  dsimp only
  split
  · exact sited_takeGroup _
  · exact .refl

/-- A declared enumeration goes on from its word. -/
theorem onward_enumDecl {k : Keyword} (h : p.isKeyword k = true) (mods : DeclModifiers) :
    Onward p (p.enumDecl mods).2 := by
  rw [enumDecl_snd]
  exact .of_bump (course_bump_of_isKeyword h) (course_skipEnum _)

/-! ## Variables -/

theorem course_declaratorRest (p : Parser) : Course .items p p.declaratorRest := by
  rw [declaratorRest_eq]
  exact ((course_skipPunct p rfl).trans (course_skipColonType _)).trans (course_skipInitializer _)

theorem course_skipTarget (p : Parser) : Course m p (skipTarget p) :=
  .ite (fun h => course_bump_of_kind h rfl) (fun _ => course_takeGroup p)

/-- The loop over declared variables is a course: one target, its rest and the next one each time.
-/
theorem course_skipDeclarators (mods : DeclModifiers) (word : VarKeyword) (p : Parser) :
    Course .items p (skipDeclarators mods word p) := by
  rw [skipDeclarators_eq]
  refine .ite (fun _ => course_finishItem p) (fun _ => .ite (fun _ => ?_) (fun _ => ?_))
  · -- one declarator, and the others behind a comma
    refine ((course_skipTarget p).trans (course_declaratorRest _)).trans (.ite (fun hcomma => ?_)
      (fun _ => course_finishItem _))
    have h₁ := left_skipTarget_le p
    have h₂ := left_declaratorRest_le (skipTarget p)
    have h₃ := left_bump_lt_of_isPunct hcomma
    exact (course_bump_of_isPunct hcomma rfl).trans
      (course_skipDeclarators mods word (skipTarget p).declaratorRest.bump)
  · exact .of_noName "variable" [.semicolon] (sited_skipPunct _ _)
termination_by p.left

/-- Declared variables go on from their word. -/
theorem onward_variableDecl (hbump : Course .items p p.bump) (mods : DeclModifiers) :
    Onward p (p.variableDecl mods).2 := .of_bump hbump (course_skipDeclarators _ _ _)

/-! ## Statements and clauses -/

/-- A statement takes a token, unless it starts with a closing bracket. -/
theorem one_le_width_statement {t : Token} (ht : t.kind.isCloser = false) (ts : List Token) :
    1 ≤ (Extent.statement none (t :: ts)).width := by
  rw [Extent.statement]
  split
  · exact Nat.le_refl _
  · rw [if_neg (by simp [ht])]
    split
    · split
      · exact Nat.le_trans (Nat.le_add_right 1 _) (Nat.le_add_right _ _)
      · exact Nat.le_add_right 1 _
    · exact Nat.le_add_right 1 _

/-- Skipping a statement goes on. -/
theorem onward_skipStatement (p : Parser) : Onward p p.skipStatement := by
  unfold skipStatement
  split
  · exact .of_report (by decide) _ (.bump .refl)
  rename_i hcloser
  split
  · rename_i hh
    exact ⟨.refl, fun hq => absurd hq.running (by simp [hh])⟩
  refine ⟨course_take (Extent.blames_statement none _) (skims_statement none _), fun _ => ?_⟩
  rw [left_take]
  cases hp : p.ahead with
  | nil =>
    have : p.left = 0 := congrArg List.length hp
    omega
  | cons t ts =>
    rw [peek_of_ahead hp] at hcloser
    have := one_le_width_statement (Bool.not_eq_true _ ▸ hcloser) ts
    omega

theorem sited_skipClause (p : Parser) : Sited p p.skipClause := by
  unfold skipClause
  split
  · exact .refl
  · exact sited_take (Extent.blames_clause 0 none _)

/-- A clause stands behind the word that it starts with; a semicolon behind it belongs to it. -/
theorem onward_skipClause (h : Place.clause.startsBehind p.peek = true) :
    Onward p p.bump.skipClause := by
  obtain ⟨t, rest, hp, ht⟩ := exists_of_startsBehind h
  have hsited := (Sited.bump .refl).trans (sited_skipClause p.bump)
  refine ⟨⟨hsited, fun hq => ?_⟩, fun _ => ?_⟩
  · unfold skipClause at hq ⊢
    by_cases hh : p.bump.halted = true
    · rw [if_pos hh] at hq
      rw [hq.running] at hh
      exact absurd hh (by decide)
    rw [if_neg hh] at hq ⊢
    have hclosed := unclosed?_of_quiet hq
    obtain ⟨f, u, v, huv, hf, hv⟩ := skimsClause_clause 0 none _ hclosed
    have hsemicolons : Skimmed .items [] v := .of_passes fun s hs => passes_of_isPunct (hv s hs) rfl
    refine ⟨f ++ [], t :: (u ++ v), ?_, .lead ht hf hsemicolons⟩
    rw [take_of_unclosed? hclosed, ahead_advance, List.cons_append, ← huv, List.take_append_drop,
      hp, ahead_bump_of_cons hp]
  · rw [← left_bump]
    exact left_le_of_reaches (sited_skipClause p.bump).reaches

/-! ## Namespaces -/

theorem course_skipSpaceName (h : p.peek.kind = .ident ∨ p.peek.kind = .stringLit) :
    Course m p (skipSpaceName p) := by
  refine .ite (fun hs => course_bump_of_kind hs rfl) (fun hs => ?_)
  exact (course_bump_of_kind (h.resolve_right hs) rfl).trans
    (course_take (.closed _ _) (skims_dotted m _ _))

/-- The head of a namespace goes on from its word. -/
theorem onward_spaceStart {w : String} (hw : p.isWord w = true)
    (hn : p.isWord "global" = false → p.peekNext.kind = .ident ∨ p.peekNext.kind = .stringLit)
    (mods : DeclModifiers) : Onward p (p.spaceStart mods).2 := by
  rw [spaceStart_snd]
  have hbump : Course .items p p.bump := course_bump_of_isWord hw
  refine .ite (fun _ => .of_bump hbump .refl) (fun hglobal => .of_bump hbump ?_)
  rw [← peek_bump] at hn
  exact course_skipSpaceName (hn (Bool.not_eq_true _ ▸ hglobal))

/-- An item is skimmed over as a whole, or up to the brace that opens the body of a namespace. -/
def ItemCourse (p : Parser) (r : Item × Parser) : Prop :=
  match r.1 with
  | .complete _ => Onward p r.2
  | .opened _ _ => ∃ q, Course .items p q ∧ q.isPunct .openBrace = true ∧ r.2 = q.bump

theorem ItemCourse.behind {r : Item × Parser} (h : Course .items p q) (hr : ItemCourse q r) :
    ItemCourse p r := by
  rcases r with ⟨ds | ⟨s, b⟩, r⟩
  · exact Onward.behind h hr
  · obtain ⟨q', hq', hbrace, heq⟩ := hr
    exact ⟨q', h.trans hq', hbrace, heq⟩

theorem ItemCourse.ite {a b : Item × Parser} {t : Prop} [Decidable t] (ha : t → ItemCourse p a)
    (hb : ¬ t → ItemCourse p b) : ItemCourse p (if t then a else b) := by
  split
  · exact ha ‹_›
  · exact hb ‹_›

/-- A namespace goes on from its word, up to its body. -/
theorem itemCourse_namespaceItem {w : String} (hw : p.isWord w = true)
    (hn : p.isWord "global" = false → p.peekNext.kind = .ident ∨ p.peekNext.kind = .stringLit)
    (mods : DeclModifiers) : ItemCourse p (p.namespaceItem mods) := by
  have hstart := onward_spaceStart hw hn mods
  show ItemCourse p (openSpace (p.spaceStart mods).1 (p.spaceStart mods).2)
  refine .ite (fun h => ⟨_, hstart.course, h, rfl⟩) (fun _ => hstart.trans (course_finishItem _))

/-! ## Declarations -/

/-- A constant enumeration goes on from its first word. -/
theorem onward_constEnumDecl (hconst : p.isKeyword .constKw = true)
    (henum : p.peekNext.isKeyword .enumKw = true) (mods : DeclModifiers) :
    Onward p (p.bump.enumDecl mods).2 := by
  have hword : p.bump.isKeyword .enumKw = true := by
    rw [isKeyword, peek_bump]
    exact henum
  exact .of_bump (course_bump_of_isKeyword hconst) (onward_enumDecl hword mods).course

/-- Every kind of declaration is skimmed over between items. -/
theorem eachDecl_itemCourse (p : Parser) (m : DeclModifiers) : EachDecl (ItemCourse p) p m where
  functionDecl := fun h => onward_functionDecl h m
  classDecl := fun h => onward_classDecl h m
  interfaceDecl := fun hw hn => onward_interfaceDecl hw hn m
  enumDecl := fun h => onward_enumDecl h m
  constEnumDecl := fun hconst henum => onward_constEnumDecl hconst henum _
  variableDecl := by
    rintro (h | h | h)
    · exact onward_variableDecl (course_bump_of_isKeyword h) m
    · exact onward_variableDecl (course_bump_of_isKeyword h) m
    · exact onward_variableDecl (course_bump_of_isWord h) m
  typeAliasDecl := fun hw hn => onward_typeAliasDecl hw hn m
  namespaceItem := fun _ hw hn _ => itemCourse_namespaceItem hw hn m

/-- A declaration that is found has a course. -/
theorem findsCourse_declItem? (p : Parser) (exported : ExportMode) :
    Finds (ItemCourse p) (p.declItem? exported) := by
  obtain ⟨k, hk, hwords⟩ :=
    exists_words_of_read (exported = .asDefault) { exported } 0 p.ahead
  rw [Nat.zero_add] at hk
  subst hk
  exact ((eachDecl_itemCourse _ _).declRest? _).imp fun _ =>
    .behind (.of_advance ⟨_, .of_words hwords⟩)

/-! ## Exported items -/

/-- A default export has a course. -/
theorem itemCourse_defaultItem (h : p.isKeyword .defaultKw = true) :
    ItemCourse p (defaultItem p.bump.skipDecorators) := by
  have hbump : Course .items p p.bump.skipDecorators :=
    (course_bump_of_isKeyword h).trans (course_skipDecorators _)
  have hlead : Place.value.startsBehind p.peek = true := by
    simp [Place.startsBehind, show p.peek.isKeyword .defaultKw = true from h]
  refine ((findsCourse_declItem? _ .asDefault).imp fun _ => .behind hbump).orElse ?_
  -- a value behind the word
  exact (Onward.lead hlead ((course_skipDecorators _).trans (course_skipExpr _))).trans
    (course_finishItem _)

/-- An export with a name has a course. -/
theorem itemCourse_namedItem (p : Parser) : ItemCourse p (namedItem p) := by
  refine (findsCourse_declItem? p .named).orElse (.ite (fun _ => ?_) (fun _ => ?_))
  · exact Onward.of_report (by decide) _ .refl
  · exact Onward.of_report (by decide) _ (onward_skipStatement _).course.sited

/-- Behind the word `export` stands an item, a value or a clause. -/
theorem itemCourse_exportItem (h : p.isKeyword .exportKw = true) :
    ItemCourse p p.bump.exportItem := by
  have hbump : Course .items p p.bump := course_bump_of_isKeyword h
  rw [exportItem_eq]
  refine .ite (fun hdefault => (itemCourse_defaultItem hdefault).behind hbump) (fun _ => ?_)
  refine .ite (fun hassign => ?_) (fun _ => .ite (fun _ => ?_) (fun _ => ?_))
  · have hlead : Place.value.startsBehind p.bump.peek = true := by
      simp [Place.startsBehind, show p.bump.peek.isPunct .assign = true from hassign]
    exact ((Onward.lead hlead (course_skipExpr _)).trans (course_finishItem _)).behind hbump
  · apply onward_skipClause
    simp [Place.startsBehind, show p.peek.isKeyword .exportKw = true from h]
  · exact (itemCourse_namedItem _).behind (hbump.trans (course_skipDecorators _))

/-! ## All items -/

/-- Every item behind its decorators has a course. -/
theorem itemCourse_undecoratedItem (p : Parser) : ItemCourse p (undecoratedItem p) := by
  refine .ite (fun h => ?_) (fun _ => ?_)
  · -- an import: a statement, if it is a call or a member of it is named
    refine .ite (fun _ => onward_skipStatement p) (fun _ => ?_)
    apply onward_skipClause
    simp [Place.startsBehind, show p.peek.isKeyword .importKw = true from h]
  refine .ite itemCourse_exportItem (fun _ => ?_)
  exact (findsCourse_declItem? p .none).orElse (onward_skipStatement p)

/-- Every item has a course. -/
theorem itemCourse_item (p : Parser) : ItemCourse p p.item := by
  rw [item_eq]
  refine .ite (fun h => Onward.of_bump (course_bump_of_isPunct h rfl) .refl) (fun _ => ?_)
  exact (itemCourse_undecoratedItem _).behind (course_skipDecorators p)

mutual

/-- The way past an item is a course, as long as the source is not at its end. -/
theorem course_afterItem (p : Parser) (hend : p.atEnd = false) :
    Course .items p p.afterItem := by
  have hitem := itemCourse_item p
  rcases hi : p.item with ⟨ds | ⟨s, b⟩, q⟩
  · rw [hi] at hitem
    rw [afterItem_of_complete hi]
    exact Onward.past hitem hend
  · -- a namespace is closed by the brace behind its items
    have hlt : q.left < p.left := left_item_lt_of_opened hi
    rw [hi] at hitem
    obtain ⟨r, hr, hbrace, hq⟩ := hitem
    have hinner : Course .items q (skipItems true q) := course_skipItems true q
    rw [afterItem_of_opened hi]
    exact hr.trans (.body hbrace (hq ▸ hinner))
termination_by 2 * p.left

/-- The loop over items is a course, by induction on the tokens left. -/
theorem course_skipItems (inBody : Bool) (p : Parser) : Course .items p (skipItems inBody p) := by
  rw [skipItems_eq]
  refine .ite (fun _ => .refl) (fun h => ?_)
  have hend := atEnd_of_itemsEnd h
  have hlt := left_afterItem_lt hend
  exact (course_afterItem p hend).trans (course_skipItems inBody p.afterItem)
termination_by 2 * p.left + 1

end

/-- The items stop where they have to. -/
theorem itemsEnd_skipItems (inBody : Bool) (p : Parser) :
    (skipItems inBody p).itemsEnd inBody = true := by
  rw [skipItems_eq]
  split
  · assumption
  · have hlt := left_afterItem_lt (atEnd_of_itemsEnd ‹_›)
    exact itemsEnd_skipItems inBody p.afterItem
termination_by p.left

end Parser

end SignatureLedger
