import SignatureLedger.Proofs.Declaration.Twin.Members

/-!
# Declarations in step

Two parses abreast take the same declarations: of each kind the name and the parts that its text is
made of. Functions and classes can have the body that differs in them, the others have none.
-/

namespace SignatureLedger

open SignatureLedger.Parser SignatureLedger.Normal

/-! ## What the moves reach -/

namespace Parser

/-- A missing name is reported, so the parse is not quiet. -/
theorem not_quiet_skipNameless (what : String) (p : Parser) : ¬ Quiet (skipNameless what p) :=
  not_quiet_of_report ((reaches_recover _ _).trans
    (.ite (fun _ => reaches_takeGroup _) (fun _ => reaches_skipPunct _ _)))

end Parser

namespace Runs

variable {r : Runs} {V : Views} {p p' : Parser} {m m' : DeclModifiers}

/-! ## The same declarations -/

/-- If of both parses something can be said, then the declarations that they have taken offer the
same, and they stand along the hole. -/
def Hole.Same (H : r.Hole V) (a a' : List Decl × Parser) : Prop :=
  Lives r.tail H.hole (Decl.bodiesOfAll a.1) a.2 →
    Lives r.tail' H.hole' (Decl.bodiesOfAll a'.1) a'.2 →
    V.SameOffers a.1 a'.1 ∧ Along H a.2 a'.2

/-- Declarations that note no bodies are taken before the hole. -/
theorem Hole.Same.of_keeps {H : r.Hole V} {a a' : List Decl × Parser}
    (hb : Decl.bodiesOfAll a.1 = []) (hb' : Decl.bodiesOfAll a'.1 = [])
    (h : Keeps r.tail a.2 → Keeps r.tail' a'.2 → V.SameOffers a.1 a'.1 ∧ r.Abreast a.2 a'.2) :
    H.Same a a' := by
  intro hl hl'
  rw [hb] at hl
  rw [hb'] at hl'
  obtain ⟨hoffers, hafter⟩ := h hl.of_nil hl'.of_nil
  exact ⟨hoffers, .inl hafter⟩

/-- Declarations with the same modifiers start at matched tokens. -/
structure SameStart (r : Runs) (p p' : Parser) (m m' : DeclModifiers) : Prop where
  unplaced : m'.unplaced = m.unplaced
  starts : r.Starts (p.declStart m) (p'.declStart m')

/-- Modifiers that agree but for their place export alike. -/
theorem exported_of_unplaced (h : m'.unplaced = m.unplaced) : m'.exported = m.exported := by
  show m'.unplaced.exported = m.unplaced.exported
  rw [h]

/-! ## Heads -/

/-- The type parameters of two parsers abreast are nearly akin. -/
theorem Texts.typeParams? (ht : r.Texts V) (h : r.Abreast p p') (hk : Keeps r.tail p.takeAngle)
    (hk' : Keeps r.tail' p'.takeAngle) :
    Option.Rel V.AkinAt p.typeParams?.1 p'.typeParams?.1 := by
  have hafter := inStep_takeAngle p p' h hk hk'
  have hclosed := (keeps_take hk).2.closed
  have hclosed' := (keeps_take hk').2.closed
  unfold Parser.typeParams?
  rw [h.isPunct, hclosed, hclosed']
  by_cases hl : p.isPunct .less = true
  · rw [if_pos hl, if_pos hl]
    have hlt := Nat.lt_of_le_of_lt hk.tail (left_takeAngle_lt hl)
    exact .some (ht.joined (h.peek_inner hlt) hafter.previous)
  · rw [if_neg hl, if_neg hl]
    exact .none

theorem inStep_skipHeritage (p p' : Parser) : r.InStep skipHeritage p p' := by
  apply InStep.ite
  · intro h
    rw [h.halted]
  · exact .of_halted
  · intro _
    exact inStep_take (fun _ _ h => h.heritage r.tails) p p'

theorem inStep_skipName (p p' : Parser) : r.InStep skipName p p' := by
  apply InStep.ite
  · intro h
    rw [h.kind]
  · intro _
    exact inStep_bump p p'
  · intro _
    exact inStep_id p p'

theorem inStep_skipBraces (p p' : Parser) : r.InStep skipBraces p p' := by
  apply InStep.ite
  · intro h
    rw [h.isPunct]
  · intro _
    exact inStep_takeGroup p p'
  · intro _
    exact inStep_expect .openBrace p p'

/-- Two parsers abreast read the same name. -/
theorem name_namedHead (named : Bool) (h : r.Abreast p p') :
    (namedHead m' named p').name = (namedHead m named p).name := by
  cases named with
  | true => exact h.lexeme
  | false => rfl

theorem exported_namedHead (named : Bool) (p : Parser) :
    (namedHead m named p).exported = m.exported := by
  cases named <;> rfl

/-! ## Functions -/

/-- Both parses take the same function. Its body can be the one that differs. A missing name would
be reported, unless it is a default export. -/
theorem same_functionDecl (H : r.Hole V) (h : r.Abreast p p') (hs : r.SameStart p p' m m') :
    H.Same (p.functionDecl m) (p'.functionDecl m') := by
  intro hl hl'
  have hexported := exported_of_unplaced hs.unplaced
  have hreach : ∀ q : Parser, Reaches q (q.bump.skipPunct .star) := fun q =>
    (reaches_bump q).trans (reaches_skipPunct _ .star)
  have hr := hreach p
  have hr' := hreach p'
  have hstar : Keeps r.tail (p.bump.skipPunct .star) → Keeps r.tail' (p'.bump.skipPunct .star) →
      r.Abreast (p.bump.skipPunct .star) (p'.bump.skipPunct .star) :=
    ((inStep_bump p p').comp (reaches_skipPunct · .star) (inStep_skipPunct .star _ _)) h
  rw [functionDecl_eq] at hl hl' ⊢
  rw [functionDecl_eq p' m']
  unfold skipFunction at hl hl' ⊢
  dsimp only at hl hl' ⊢
  generalize p.bump.skipPunct .star = a at hl hr hstar ⊢
  generalize p'.bump.skipPunct .star = a' at hl' hr' hstar ⊢
  by_cases hname : a.peek.kind ≠ .ident ∧ m.exported ≠ .asDefault
  · rw [if_pos hname, if_pos hname] at hl
    exact absurd hl.quiet (not_quiet_skipNameless _ _)
  by_cases hname' : a'.peek.kind ≠ .ident ∧ m'.exported ≠ .asDefault
  · rw [if_pos hname', if_pos hname'] at hl'
    exact absurd hl'.quiet (not_quiet_skipNameless _ _)
  rw [if_neg hname, if_neg hname] at hl ⊢
  rw [if_neg hname', if_neg hname'] at hl' ⊢
  -- the head is taken before the hole, and then comes the body
  have hhead : ∀ q : Parser, Reaches q (skipName q).skipHead := fun q =>
    (reaches_skipName q).trans (reaches_skipHead _)
  simp only [Decl.bodiesOfAll, functionItem, Decl.bodies, DeclForm.bodies, List.append_nil]
    at hl hl'
  have hk := hl.keeps H.pin ((suffix_of_reaches (hr.trans (hhead a))).trans h.suffix)
    (reaches_skipBody _) fun _ ho => taken_skipBody (Option.mem_toList.mp ho)
  have hk' := hl'.keeps H.pin' ((suffix_of_reaches (hr'.trans (hhead a'))).trans h.suffix')
    (reaches_skipBody _) fun _ ho => taken_skipBody (Option.mem_toList.mp ho)
  have ha := hstar (hk.of_reaches (hhead a)) (hk'.of_reaches (hhead a'))
  have hd : r.Abreast (skipName a).skipHead (skipName a').skipHead :=
    ((inStep_skipName a a').comp reaches_skipHead (inStep_skipHead _ _)) ha hk hk'
  refine ⟨.item ?_ ?_ (.function (H.texts.body? hs.starts hd)), H.body hd hl hl'⟩
  · exact (exported_namedHead _ _).trans (hexported.trans (exported_namedHead _ _).symm)
  · show (namedHead m' _ a').name = (namedHead m _ a).name
    rw [ha.kind]
    exact name_namedHead _ ha

/-! ## Classes -/

theorem inStep_skipClassName (m : DeclModifiers) (p p' : Parser) :
    r.InStep (skipClassName m) p p' := by
  apply InStep.ite
  · intro h
    rw [h.kind, h.isWord]
  · intro _
    exact inStep_bump p p'
  intro _
  apply InStep.ite
  · intro _
    rfl
  · intro _
    exact .of_loud (not_quiet_report _ _ _ _)
  · intro _
    exact inStep_id p p'

theorem inStep_skipClassHead (m : DeclModifiers) (p p' : Parser) :
    r.InStep (skipClassHead m) p p' :=
  ((inStep_skipClassName m p p').comp reaches_takeAngle (inStep_takeAngle _ _)).comp
    reaches_skipHeritage (inStep_skipHeritage _ _)

/-- The modifiers matter for the name of a class only in whether it can be left out. -/
theorem skipClassName_congr (h : m'.exported = m.exported) (p : Parser) :
    skipClassName m' p = skipClassName m p := by
  unfold skipClassName
  rw [h]

/-- Where a class head ends depends on the export alone. -/
theorem skipClassHead_congr (h : m'.exported = m.exported) (p : Parser) :
    skipClassHead m' p = skipClassHead m p := by
  unfold skipClassHead
  rw [skipClassName_congr h]

/-- A class without its name is reported, unless it is a default export. -/
theorem not_quiet_skipClassHead (hname : isClassName p = false) (hm : m.exported ≠ .asDefault) :
    ¬ Quiet (skipClassHead m p) := by
  have hloud : skipClassName m p = p.reportNoName "class" := by
    unfold skipClassName
    unfold isClassName at hname
    rw [hname, if_neg Bool.false_ne_true, if_pos hm]
  unfold skipClassHead
  rw [hloud]
  exact not_quiet_of_report ((reaches_takeAngle _).trans (reaches_skipHeritage _))

/-- The members of a class, with its braces. -/
theorem along_skipClassBody (H : r.Hole V) (h : r.Abreast p p')
    (hl : Lives r.tail H.hole (memberBodies (classMembers p)) (skipClassBody p))
    (hl' : Lives r.tail' H.hole' (memberBodies (classMembers p')) (skipClassBody p')) :
    List.Forall₂ V.SameMember (classMembers p) (classMembers p') ∧
      Along H (skipClassBody p) (skipClassBody p') := by
  unfold classMembers skipClassBody at hl hl' ⊢
  rw [h.isPunct] at hl' ⊢
  by_cases hb : p.isPunct .openBrace = true
  · rw [if_pos hb, if_pos hb] at hl hl'
    rw [if_pos hb, if_pos hb, if_pos hb, if_pos hb]
    exact along_classBody H h hl hl'
  · rw [if_neg hb, if_neg hb] at hl
    exact absurd (expect_of_quiet hl.quiet).1 hb

/-- Both parses take the same class. The body that differs can be one in it. As for a function, a
missing name would be reported. -/
theorem same_classDecl (H : r.Hole V) (h : r.Abreast p p') (hs : r.SameStart p p' m m') :
    H.Same (p.classDecl m) (p'.classDecl m') := by
  intro hl hl'
  have hexported := exported_of_unplaced hs.unplaced
  have hbump : Keeps r.tail p.bump → Keeps r.tail' p'.bump → r.Abreast p.bump p'.bump :=
    inStep_bump p p' h
  have hr := reaches_bump p
  have hr' := reaches_bump p'
  rw [classDecl_eq] at hl hl' ⊢
  rw [classDecl_eq p' m']
  rw [skipClassHead_congr hexported, hexported] at hl' ⊢
  dsimp only at hl hl' ⊢
  generalize p.bump = a at hl hr hbump ⊢
  generalize p'.bump = a' at hl' hr' hbump ⊢
  have hnamed : ∀ {q : Parser}, Quiet (skipClassBody (skipClassHead m q)) →
      ¬ (!isClassName q && decide (m.exported ≠ .asDefault)) = true := by
    intro q hq hnameless
    rw [Bool.and_eq_true, Bool.not_eq_true', decide_eq_true_eq] at hnameless
    exact not_quiet_skipClassHead hnameless.1 hnameless.2 (.of_reaches (reaches_skipClassBody _) hq)
  rw [if_neg (hnamed hl.quiet)] at hl ⊢
  rw [if_neg (hnamed hl'.quiet)] at hl' ⊢
  -- the head is taken before the hole, and then come the members
  simp only [Decl.bodiesOfAll, classItem, Decl.bodies, DeclForm.bodies, List.append_nil]
    at hl hl'
  rw [skipClassHead_congr hexported] at hl'
  have hhead : ∀ q : Parser, Reaches q (skipClassHead m q) := reaches_skipClassHead m
  have hk := hl.keeps H.pin ((suffix_of_reaches (hr.trans (hhead a))).trans h.suffix)
    (reaches_skipClassBody _) fun _ ho => taken_skipClassBody ho
  have hk' := hl'.keeps H.pin' ((suffix_of_reaches (hr'.trans (hhead a'))).trans h.suffix')
    (reaches_skipClassBody _) fun _ ho => taken_skipClassBody ho
  have ha := hbump (hk.of_reaches (hhead a)) (hk'.of_reaches (hhead a'))
  have hd := inStep_skipClassHead m a a' ha hk hk'
  have hangle := hk.of_reaches (reaches_skipHeritage _)
  have hangle' := hk'.of_reaches (reaches_skipHeritage _)
  have hname := inStep_skipClassName m a a' ha (hangle.of_reaches (reaches_takeAngle _))
    (hangle'.of_reaches (reaches_takeAngle _))
  obtain ⟨hmembers, halong⟩ := along_skipClassBody H hd hl hl'
  refine ⟨.item ?_ ?_ ?_, halong⟩
  · exact (exported_namedHead _ _).trans (hexported.trans (exported_namedHead _ _).symm)
  · show (namedHead m' (isClassName a') a').name = (namedHead m (isClassName a) a).name
    rw [show isClassName a' = isClassName a by rw [isClassName, isClassName, ha.kind, ha.isWord]]
    exact name_namedHead _ ha
  · refine .classForm ?_ ?_
    · dsimp only
      rw [skipClassName_congr hexported]
      exact H.texts.typeParams? hname hangle hangle'
    · rw [skipClassHead_congr hexported]
      exact hmembers

/-! ## Interfaces, type aliases and enums -/

/-- A word and the name behind it. -/
theorem inStep_takeNamed (p p' : Parser) : r.InStep (fun q => q.bump.bump) p p' :=
  (inStep_bump p p').comp reaches_bump (inStep_bump _ _)

/-- Two parsers abreast declare the same interface. -/
theorem same_interfaceDecl (H : r.Hole V) (h : r.Abreast p p') (hs : r.SameStart p p' m m') :
    H.Same (p.interfaceDecl m) (p'.interfaceDecl m') := by
  refine .of_keeps rfl rfl fun hk hk' => ?_
  have hafter : r.InStep (fun q => skipBraces q.bump.bump.takeAngle.skipHeritage) p p' :=
    (((inStep_takeNamed p p').comp reaches_takeAngle (inStep_takeAngle _ _)).comp
      reaches_skipHeritage (inStep_skipHeritage _ _)).comp
      reaches_skipBraces (inStep_skipBraces _ _)
  have hend : r.Abreast (p.interfaceDecl m).2 (p'.interfaceDecl m').2 := by
    rw [interfaceDecl_snd] at hk hk' ⊢
    rw [interfaceDecl_snd]
    exact hafter h hk hk'
  have hrest : ∀ (q : Parser) (m : DeclModifiers), Reaches q.bump (q.interfaceDecl m).2 := by
    intro q m
    rw [interfaceDecl_snd]
    exact (((reaches_bump _).trans (reaches_takeAngle _)).trans (reaches_skipHeritage _)).trans
      (reaches_skipBraces _)
  have hname := (inStep_bump p p' h (hk.of_reaches (hrest p m))
    (hk'.of_reaches (hrest p' m'))).lexeme
  exact ⟨.item (exported_of_unplaced hs.unplaced) hname
    (.interfaceForm (H.texts.akinAt_endOffset hs.starts hend)), hend⟩

theorem inStep_skipDefinition (p p' : Parser) : r.InStep skipDefinition p p' :=
  .expect_then reaches_skipType fun _ => inStep_skipType _ _

/-- Two parsers abreast declare the same alias. -/
theorem same_typeAliasDecl (H : r.Hole V) (h : r.Abreast p p') (hs : r.SameStart p p' m m') :
    H.Same (p.typeAliasDecl m) (p'.typeAliasDecl m') := by
  refine .of_keeps rfl rfl fun hk hk' => ?_
  have hafter : r.InStep (fun q => skipDefinition q.bump.bump.takeAngle) p p' :=
    ((inStep_takeNamed p p').comp reaches_takeAngle (inStep_takeAngle _ _)).comp
      reaches_skipDefinition (inStep_skipDefinition _ _)
  rw [typeAliasDecl_snd] at hk hk' ⊢
  rw [typeAliasDecl_snd]
  have htype := hk.of_reaches (reaches_finishItem _)
  have htype' := hk'.of_reaches (reaches_finishItem _)
  have hend := hafter h htype htype'
  have hrest : ∀ q : Parser, Reaches q.bump (skipDefinition q.bump.bump.takeAngle) :=
    fun q => ((reaches_bump _).trans (reaches_takeAngle _)).trans (reaches_skipDefinition _)
  have hname := (inStep_bump p p' h (htype.of_reaches (hrest p))
    (htype'.of_reaches (hrest p'))).lexeme
  refine ⟨.item (exported_of_unplaced hs.unplaced) hname (.typeAlias ?_),
    inStep_finishItem _ _ hend hk hk'⟩
  show V.AkinAt ⟨p.declStart m, (skipDefinition p.bump.bump.typeParams?.2).endOffset⟩
    ⟨p'.declStart m', (skipDefinition p'.bump.bump.typeParams?.2).endOffset⟩
  rw [typeParams?_snd, typeParams?_snd]
  exact H.texts.akinAt_endOffset hs.starts hend

theorem inStep_skipEnum (p p' : Parser) : r.InStep skipEnum p p' := by
  apply InStep.ite
  · intro h
    rw [h.kind]
  · intro _
    exact (inStep_bump p p').comp reaches_skipBraces (inStep_skipBraces _ _)
  · intro _
    exact .of_loud (not_quiet_of_report ((reaches_recover _ _).trans
      (.ite (fun _ => reaches_takeGroup _) (fun _ => .refl))))

/-- Two parsers abreast declare the same enumeration. There is no hole in it, so that they stay
abreast to its end. -/
theorem same_enumDecl (H : r.Hole V) (h : r.Abreast p p') (hs : r.SameStart p p' m m') :
    H.Same (p.enumDecl m) (p'.enumDecl m') := by
  refine .of_keeps (bodies_enumDecl p m) (bodies_enumDecl p' m') fun hk hk' => ?_
  have hafter : r.InStep (fun q => skipEnum q.bump) p p' :=
    (inStep_bump p p').comp reaches_skipEnum (inStep_skipEnum _ _)
  have hrest : ∀ (q : Parser) (m : DeclModifiers), Reaches q.bump (q.enumDecl m).2 := by
    intro q m
    rw [enumDecl_snd]
    exact reaches_skipEnum _
  have hend : r.Abreast (p.enumDecl m).2 (p'.enumDecl m').2 := by
    rw [enumDecl_snd] at hk hk' ⊢
    rw [enumDecl_snd]
    exact hafter h hk hk'
  have hname := inStep_bump p p' h (hk.of_reaches (hrest p m)) (hk'.of_reaches (hrest p' m'))
  refine ⟨?_, hend⟩
  unfold enumDecl at hend ⊢
  dsimp only at hend ⊢
  rw [hname.kind] at hend ⊢
  by_cases hk : p.bump.peek.kind = .ident
  · rw [if_pos hk, if_pos hk] at hend ⊢
    exact .item (exported_of_unplaced hs.unplaced) hname.lexeme
      (.enumForm (H.texts.akinAt_endOffset hs.starts hend))
  · rw [if_neg hk, if_neg hk]
    exact .nil

/-! ## Variables -/

theorem inStep_declaratorRest (p p' : Parser) : r.InStep declaratorRest p p' :=
  .congr declaratorRest_eq (((inStep_skipPunct .bang p p').comp reaches_skipColonType
    (inStep_skipColonType _ _)).comp reaches_skipInitializer (inStep_skipInitializer _ _))

theorem inStep_skipTarget (p p' : Parser) : r.InStep skipTarget p p' := by
  apply InStep.ite
  · intro h
    rw [h.kind]
  · intro _
    exact inStep_bump p p'
  · intro _
    exact inStep_takeGroup p p'

/-- The name of a declarator; a pattern has none. -/
def targetHead (p : Parser) : DeclHead :=
  if p.peek.kind = .ident then { name := p.peek.lexeme, nameSpan := p.peek.span } else {}

/-- The name of a variable is read where a target stands. -/
theorem declaratorName?_eq (p : Parser) :
    p.declaratorName? =
      if atTarget p then some (targetHead p, decide (p.peek.kind ≠ .ident), skipTarget p)
      else none := by
  unfold declaratorName? atTarget targetHead skipTarget
  by_cases hk : p.peek.kind = .ident
  · simp [hk]
  · by_cases hb : (p.isPunct .openBrace || p.isPunct .openBracket) = true
    · simp [hk, hb]
    · simp [hk, hb]

/-- One declarator. -/
def declaratorItem (m : DeclModifiers) (word : VarKeyword) (p : Parser) : Decl :=
  .item { m.head with
    name := (targetHead p).name
    nameSpan := (targetHead p).nameSpan
    span := ⟨p.peek.span.lo, (skipTarget p).declaratorRest.endOffset⟩ }
    (.variableForm word (p.peek.kind ≠ .ident))

/-- The declarators behind a comma, or the end of the declaration. -/
def moreDeclarators (m : DeclModifiers) (word : VarKeyword) (p : Parser) : List Decl × Parser :=
  if p.isPunct .comma then declarators m word p.bump else ([], p.finishItem)

/-- The loop over declared variables, unfolded once, with what it gives. It goes on behind a comma
only, and it ends where no name and no pattern is found. -/
theorem declarators_eq (m : DeclModifiers) (word : VarKeyword) (p : Parser) :
    declarators m word p =
      if p.halted then ([], p.finishItem)
      else if atTarget p then
        (declaratorItem m word p :: (moreDeclarators m word (skipTarget p).declaratorRest).1,
          (moreDeclarators m word (skipTarget p).declaratorRest).2)
      else ([], skipNoTarget p) := by
  have hname := declaratorName?_eq p
  rw [declarators.eq_def]
  split
  · rfl
  · split
    · rename_i hq
      rw [hq] at hname
      rw [if_neg]
      · rfl
      · intro htarget
        rw [if_pos htarget] at hname
        exact absurd hname (by simp)
    · rename_i name isPattern q hq
      rw [hq] at hname
      by_cases htarget : atTarget p = true
      · rw [if_pos htarget, Option.some_inj] at hname
        obtain ⟨rfl, hrest⟩ := Prod.mk.inj hname
        obtain ⟨rfl, rfl⟩ := Prod.mk.inj hrest
        rw [if_pos htarget]
        unfold moreDeclarators declaratorItem
        split <;> rfl
      · rw [if_neg htarget] at hname
        exact absurd hname (by simp)

theorem reaches_moreDeclarators (m : DeclModifiers) (word : VarKeyword) (p : Parser) :
    Reaches p (moreDeclarators m word p).2 := by
  unfold moreDeclarators
  rw [apply_ite Prod.snd]
  exact .ite (fun _ => (reaches_bump p).trans (reaches_declarators m word _))
    (fun _ => reaches_finishItem p)

/-- Two parsers abreast see a target, or neither does. -/
theorem atTarget_eq (h : r.Abreast p p') : atTarget p' = atTarget p := by
  rw [atTarget, atTarget, h.kind, h.isPunct, h.isPunct]

/-- The declarators at the cursors are the same. -/
theorem same_declaratorItem (ht : r.Texts V) (word : VarKeyword) {p p' : Parser}
    (h : r.Abreast p p') (hm : m'.exported = m.exported)
    (hend : r.Abreast (skipTarget p).declaratorRest (skipTarget p').declaratorRest) :
    V.SameOffers [declaratorItem m word p] [declaratorItem m' word p'] := by
  unfold declaratorItem targetHead
  rw [h.kind]
  refine .item hm ?_ (.variableForm (ht.akinAt_endOffset h.starts hend))
  by_cases hkind : p.peek.kind = .ident
  · rw [if_pos hkind, if_pos hkind]
    exact h.lexeme
  · rw [if_neg hkind, if_neg hkind]

/-- Both parses take the same declarators. By recursion on the tokens left: one declarator is
compared, and then those behind a comma. -/
theorem abreast_declarators (ht : r.Texts V) (word : VarKeyword) {p p' : Parser}
    (h : r.Abreast p p') (hm : m'.exported = m.exported)
    (hk : Keeps r.tail (declarators m word p).2) (hk' : Keeps r.tail' (declarators m' word p').2) :
    V.SameOffers (declarators m word p).1 (declarators m' word p').1 ∧
      r.Abreast (declarators m word p).2 (declarators m' word p').2 := by
  rw [declarators_eq] at hk hk' ⊢
  rw [declarators_eq m' word p']
  rw [h.halted, atTarget_eq h] at hk' ⊢
  by_cases hh : p.halted = true
  · exact absurd h.quiet.running (by simp [hh])
  rw [if_neg hh] at hk hk' ⊢
  rw [if_neg hh]
  by_cases htarget : atTarget p = true
  · rw [if_pos htarget] at hk hk' ⊢
    rw [if_pos htarget]
    dsimp only at hk hk' ⊢
    -- this declarator
    have hone : r.InStep (fun q => (skipTarget q).declaratorRest) p p' :=
      (inStep_skipTarget p p').comp reaches_declaratorRest (inStep_declaratorRest _ _)
    have hle : (skipTarget p).declaratorRest.left ≤ p.left :=
      Nat.le_trans (left_declaratorRest_le _) (left_skipTarget_le p)
    have hend := hone h (hk.of_reaches (reaches_moreDeclarators m word _))
      (hk'.of_reaches (reaches_moreDeclarators m' word _))
    dsimp only at hend
    have hitem : V.SameOffers [declaratorItem m word p] [declaratorItem m' word p'] :=
      same_declaratorItem ht word h hm hend
    generalize (skipTarget p).declaratorRest = q at hk hend hle ⊢
    generalize (skipTarget p').declaratorRest = q' at hk' hend ⊢
    -- and those behind a comma
    have hmore : V.SameOffers (moreDeclarators m word q).1 (moreDeclarators m' word q').1 ∧
        r.Abreast (moreDeclarators m word q).2 (moreDeclarators m' word q').2 := by
      unfold moreDeclarators at hk hk' ⊢
      rw [hend.isPunct] at hk' ⊢
      by_cases hc : q.isPunct .comma = true
      · rw [if_pos hc] at hk hk' ⊢
        rw [if_pos hc]
        have hlt := left_bump_lt_of_isPunct hc
        have hbump := inStep_bump q q' hend (hk.of_reaches (reaches_declarators m word _))
          (hk'.of_reaches (reaches_declarators m' word _))
        exact abreast_declarators ht word hbump hm hk hk'
      · rw [if_neg hc] at hk hk' ⊢
        rw [if_neg hc]
        exact ⟨.nil, inStep_finishItem q q' hend hk hk'⟩
    exact ⟨hitem.append hmore.1, hmore.2⟩
  · rw [if_neg htarget] at hk
    exact absurd hk.quiet (not_quiet_of_report
      ((reaches_recover _ _).trans (reaches_skipPunct _ _)))
termination_by p.left

theorem bodies_variableDecl (p : Parser) (m : DeclModifiers) :
    Decl.bodiesOfAll (p.variableDecl m).1 = [] := bodies_declarators _ _

/-- Two parsers abreast declare the same variables. -/
theorem same_variableDecl (H : r.Hole V) (h : r.Abreast p p') (hs : r.SameStart p p' m m') :
    H.Same (p.variableDecl m) (p'.variableDecl m') := by
  refine .of_keeps (bodies_variableDecl p m) (bodies_variableDecl p' m') fun hk hk' => ?_
  unfold variableDecl at hk hk' ⊢
  dsimp only at hk hk' ⊢
  rw [h.isKeyword, h.isKeyword] at hk' ⊢
  exact abreast_declarators H.texts _ (inStep_bump p p' h
    (hk.of_reaches (reaches_declarators m _ _)) (hk'.of_reaches (reaches_declarators m' _ _)))
    (exported_of_unplaced hs.unplaced) hk hk'

end Runs

end SignatureLedger
