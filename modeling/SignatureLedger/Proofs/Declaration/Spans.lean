import SignatureLedger.Proofs.Declaration.Standing

/-!
# Spans of declarations

Each kind of member and declaration is formed from the tokens that are taken for it, so that its
parts lie in it and it lies between the frontier where it starts and the one where it ends.
Namespaces come without their bodies here (`SpaceStart.Starts`).
-/

namespace SignatureLedger

namespace Parser

variable {source : Bytes} {p q : Parser} {m : DeclModifiers} {lo : Nat}

/-! ## Members -/

section Members

variable {accessor : Option MemberKind} {modifiers : MemberModifiers} {name : MemberName}

/-- A span from an offset to the frontier. -/
theorem between_endOffset {hi : Nat} (hlo : lo < p.frontier) (hhi : p.frontier ≤ hi) :
    (⟨lo, p.endOffset⟩ : Span).Between lo hi := by
  rw [endOffset_eq (Nat.zero_lt_of_lt hlo)]
  exact ⟨Nat.le_refl _, hlo, hhi⟩

/-- Skipping a body is a way on from behind its braces. -/
theorem reaches_body?_skipBody (p : Parser) : Reaches p.body?.2 (skipBody p) := by
  rw [← skipBody_eq]
  exact .ite (fun _ => .refl) (fun _ => reaches_finishItem _)

/-- A method stands between its start and its end, and its body inside. -/
theorem Stands.methodRest (h : Stands source p) (hlo : lo < p.frontier) (a : Member) :
    (p.methodRest lo a).1.span.Between lo (p.methodRest lo a).2.frontier ∧
      (p.methodRest lo a).1.Fits := by
  have hhead := h.of_reaches (reaches_skipHead p)
  have hbody := hhead.1.of_reaches (reaches_body? p.skipHead)
  have hrest := hbody.1.frontier_le (reaches_body?_skipBody p.skipHead)
  have hspan : lo < p.skipHead.body?.2.frontier := by omega
  rw [methodRest_fst, methodRest_snd_eq]
  refine ⟨between_endOffset hspan hrest, fun b hb => ?_⟩
  have := hhead.1.body? hb
  dsimp only
  rw [endOffset_eq (Nat.zero_lt_of_lt hspan)]
  omega

/-- A property stands between its start and its end. -/
theorem Stands.propertyRest (h : Stands source p) (hlo : lo < p.frontier) {a : Member}
    (ha : a.body? = none) :
    (p.propertyRest lo a).1.span.Between lo (p.propertyRest lo a).2.frontier ∧
      (p.propertyRest lo a).1.Fits := by
  have hannotation : Reaches p p.typeAnnotation?.2 := by
    rw [typeAnnotation?_snd]
    exact reaches_skipColonType p
  have htype := h.of_reaches hannotation
  have hvalue := htype.1.of_reaches (reaches_skipInitializer _)
  have hrest := hvalue.1.frontier_le (reaches_finishItem _)
  have hspan : lo < p.typeAnnotation?.2.skipInitializer.frontier := by omega
  refine ⟨between_endOffset hspan hrest, fun b hb => ?_⟩
  rw [show (p.propertyRest lo a).1.body? = none from ha] at hb
  exact absurd hb (by simp)

/-- What follows the name stands so, too. -/
theorem Stands.memberRest (h : Stands source p) (hlo : lo < p.frontier) :
    (memberRest lo accessor modifiers name p).1.span.Between lo
        (memberRest lo accessor modifiers name p).2.frontier ∧
      (memberRest lo accessor modifiers name p).1.Fits := by
  have hmark := h.of_reaches (reaches_skipMark p)
  have hlo' : lo < (skipMark p).frontier := by omega
  unfold Parser.memberRest
  dsimp only
  split
  · exact hmark.1.methodRest hlo' _
  · exact hmark.1.propertyRest hlo' rfl

/-- A name takes a token. There is one case for each kind of first token, and in those without a
name nothing is to be shown. -/
theorem memberName?_some {q : Parser} (hq : p.memberName? = (some name, q)) :
    p.atEnd = false ∧ Reaches p.bump q := by
  have hend : p.atEnd = false := by
    rw [← Bool.not_eq_true, atEnd_iff]
    intro hnil
    rw [memberName?, Parser.peek, Cursor.peek, show p.cursor.ahead = [] from hnil] at hq
    exact absurd (congrArg Prod.fst hq) (by simp [Token.eofAt])
  refine ⟨hend, ?_⟩
  unfold memberName? at hq
  dsimp only at hq
  split at hq
  · exact (Prod.mk.inj hq).2 ▸ .refl
  · exact (Prod.mk.inj hq).2 ▸ .refl
  · exact (Prod.mk.inj hq).2 ▸ .refl
  · rename_i hkind
    split at hq
    · exact absurd (Prod.mk.inj hq).1 (by simp)
    · obtain rfl := (Prod.mk.inj hq).2
      exact reaches_bump_takeGroup (by rw [hkind]; rfl)
  · exact (Prod.mk.inj hq).2 ▸ .refl
  · exact (Prod.mk.inj hq).2 ▸ .refl
  · exact absurd (Prod.mk.inj hq).1 (by simp)
  · exact absurd (Prod.mk.inj hq).1 (by simp)

/-- A member starts where the tokens do that it is read from. -/
theorem Stands.memberFrom {first : Nat} (h : Stands source p)
    (hlo : p.atEnd = false → first ≤ lo ∧ lo ≤ p.peek.span.lo) :
    Member.Row first (memberFrom lo accessor modifiers p).2.frontier
      (memberFrom lo accessor modifiers p).1.toList := by
  unfold Parser.memberFrom
  split
  · exact .nil
  · rename_i name q hq
    obtain ⟨hend, hreach⟩ := memberName?_some hq
    have hpeek := h.peek hend
    have hname := h.bump.1.of_reaches hreach
    have hstart := hlo hend
    have hlt : lo < q.frontier := by
      have := hpeek.lt
      have := hpeek.hi_le
      omega
    obtain ⟨hspan, hfits⟩ := hname.1.memberRest hlt
    exact .single (hspan.mono hstart.1 (Nat.le_refl _)) hfits

/-- A member behind its decorators stands ahead. A static block reaches up to the end of its group,
and any other member is read from its name on, which is not before its first modifier. -/
theorem Stands.memberAfter (h : Stands source p) :
    Member.Row p.frontier (memberAfter p).2.frontier (memberAfter p).1.toList := by
  have hrun := reaches_advance p (ModifierRun.read {} p.ahead).width
  unfold Parser.memberAfter memberBehind
  by_cases hblock : (ModifierRun.read {} p.ahead).block = true
  · rw [if_pos hblock]
    have hend : p.atEnd = false := by
      rw [← Bool.not_eq_true, atEnd_iff]
      intro hnil
      rw [hnil] at hblock
      exact absurd hblock (by simp [ModifierRun.read])
    have hreach : Reaches p.bump (p.advance (ModifierRun.read {} p.ahead).width).bump := by
      rw [bump_eq_advance (p.advance _), advance_advance, advance_succ]
      exact reaches_advance _ _
    have hpeek := h.peek hend
    have hgroup := h.bump.1.frontier_le (hreach.trans (reaches_takeGroup _))
    have hspan : p.peek.span.lo <
        (p.advance (ModifierRun.read {} p.ahead).width).bump.takeGroup.frontier := by
      have := hpeek.lt
      have := hpeek.hi_le
      omega
    refine .single ((between_endOffset hspan (Nat.le_refl _)).mono hpeek.lo_le (Nat.le_refl _)) ?_
    exact fun b hb => absurd hb (by simp [staticBlock])
  · rw [if_neg hblock]
    have hname := (hrun.trans (reaches_skipAccessor _)).trans (reaches_skipPunct _ .star)
    refine (h.reach hname).memberFrom fun hend => ?_
    exact ⟨(h.peek (not_atEnd_of_reaches hname hend)).lo_le, h.peek_le hname hend⟩

/-- **Members lie one behind the other.** -/
theorem Stands.membersFrom (h : Stands source p) :
    Member.Row p.frontier (membersFrom p).2.frontier (membersFrom p).1 := by
  fun_induction Parser.membersFrom p with
  | case1 p _ => exact .nil
  | case2 p _ _ ih => exact (ih h.bump.1).mono h.bump.2 (Nat.le_refl _)
  | case3 p _ _ q rest ih =>
    have hdecorators := h.of_reaches (reaches_skipDecorators p)
    have hpast : Reaches q (if q.left = p.left then q.bump else q) := reaches_pastItem p q
    have hq := h.of_reaches (reaches_member? p)
    have hnext := hq.1.of_reaches hpast
    have hrest := hnext.1.frontier_le (reaches_skipMembers _)
    have hmember : Member.Row p.skipDecorators.frontier q.frontier p.member?.1.toList :=
      hdecorators.1.memberAfter
    exact (hmember.mono hdecorators.2 (Nat.le_refl _)).append (ih hnext.1) hq.2 hnext.2 hrest

end Members

/-! ## Declarations -/

/-- A name that comes next lies between this frontier and the one behind it. -/
theorem Stands.namedHead {named : Bool} (h : Stands source p)
    (hnamed : named = true → p.atEnd = false ∧ Reaches p.bump q) :
    (namedHead m named p).nameSpan = ⟨0, 0⟩ ∧ (namedHead m named p).name = [] ∨
      (namedHead m named p).nameSpan.Between p.frontier q.frontier := by
  cases named with
  | false => exact .inl ⟨rfl, rfl⟩
  | true =>
    obtain ⟨hend, hreach⟩ := hnamed rfl
    exact .inr ((h.peek hend).mono (Nat.le_refl _) (h.bump.1.frontier_le hreach))

/-- A parse that sees a token of a kind is not at its end. -/
theorem not_atEnd_of_kind {k : TokenKind} (h : p.peek.kind = k) (hk : k ≠ .eof) :
    p.atEnd = false := by
  rw [← Bool.not_eq_true, atEnd_iff]
  intro hnil
  rw [Parser.peek, Cursor.peek, show p.cursor.ahead = [] from hnil] at h
  exact hk h.symm

/-- What starts before the next token does starts before the next frontier. -/
theorem Stands.lt_bump (h : Stands source p) (hend : p.atEnd = false) (hlo : lo ≤ p.peek.span.lo) :
    lo < p.bump.frontier := by
  have hpeek := h.peek hend
  exact Nat.lt_of_le_of_lt hlo (Nat.lt_of_lt_of_le hpeek.lt hpeek.hi_le)

/-- What lies between the start of a declaration and the frontier lies in it. -/
theorem fits_of_span {h : DeclHead} (hq : lo < q.frontier) (hspan : h.span = ⟨lo, q.endOffset⟩)
    (hname : h.nameSpan = ⟨0, 0⟩ ∧ h.name = [] ∨ h.nameSpan.Between lo q.frontier)
    (hparams : ∀ s ∈ h.typeParams?, s.Between lo q.frontier)
    (hbody : ∀ b ∈ h.body?, lo < b ∧ b < q.frontier) : h.Fits := by
  rw [endOffset_eq (Nat.zero_lt_of_lt hq)] at hspan
  exact ⟨by rwa [hspan], by rwa [hspan], by rwa [hspan]⟩

/-- Reading the head of a function is a way on from behind its angles. -/
theorem reaches_takeAngle_skipHead (p : Parser) : Reaches p.takeAngle p.skipHead :=
  (reaches_skipParameters _).trans (reaches_skipColonType _)

/-- What a function declares from its name on. -/
theorem Stands.functionItem {isGenerator : Bool} (h : Stands source p) (hlo : lo < p.frontier) :
    Decl.Forest lo (skipBody (skipName p).skipHead).frontier
      [functionItem m lo isGenerator p] := by
  have hname := h.of_reaches (reaches_skipName p)
  have hparams := hname.1.of_reaches (reaches_takeAngle (skipName p))
  have hhead := hparams.1.of_reaches (reaches_takeAngle_skipHead (skipName p))
  have hbody := hhead.1.of_reaches (reaches_body? (skipName p).skipHead)
  have hrest := hbody.1.frontier_le (reaches_body?_skipBody _)
  have hspan : lo < (skipName p).skipHead.body?.2.frontier := by omega
  refine .single (between_endOffset hspan hrest) (.item (fits_of_span hspan rfl ?_ ?_ ?_) (.inl rfl)
    (fun a ha => absurd ha List.not_mem_nil))
  · refine (h.namedHead (q := skipName p) fun hk => ?_).imp_right fun hbetween => ?_
    · have hk : p.peek.kind = .ident := by simpa using hk
      exact ⟨not_atEnd_of_kind hk (by simp), by rw [skipName, if_pos hk]; exact .refl⟩
    · exact hbetween.mono (by omega) (by omega)
  · exact fun s hs => (hname.1.typeParams? hs).mono (by omega) (by omega)
  · intro b hb
    have := hhead.1.body? hb
    omega

/-- **Functions are well nested.** -/
theorem Stands.functionDecl (h : Stands source p) (hend : p.atEnd = false)
    (hlo : p.declStart m ≤ p.peek.span.lo) :
    Decl.Forest (p.declStart m) (p.functionDecl m).2.frontier (p.functionDecl m).1 := by
  have hstar := h.bump.1.of_reaches (reaches_skipPunct p.bump .star)
  have hlo' := Nat.lt_of_lt_of_le (h.lt_bump hend hlo) hstar.2
  rw [functionDecl_eq]
  dsimp only
  unfold skipFunction
  split
  · exact .nil
  · exact hstar.1.functionItem hlo'

/-- The members of a class lie behind the brace that opens its body. -/
theorem Stands.classMembers (h : Stands source p) :
    (classMembers p = [] ∨ p.isPunct .openBrace = true ∧
        Member.Row (p.peek.span.lo + 1) (skipClassBody p).frontier (classMembers p)) ∧
      (p.isPunct .openBrace = true → p.peek.span.lo < (skipClassBody p).frontier) := by
  unfold Parser.classMembers skipClassBody
  by_cases hbrace : p.isPunct .openBrace = true
  · have hpeek := h.peek (atEnd_of_isPunct hbrace)
    have hmembers := h.bump.1.of_reaches (reaches_skipMembers p.bump)
    have hrest := hmembers.1.frontier_le (reaches_expect _ .closeBrace)
    have hlt := hpeek.lt
    have hle := hpeek.hi_le
    rw [if_pos hbrace, if_pos hbrace]
    refine ⟨.inr ⟨hbrace, h.bump.1.membersFrom.mono (by omega) hrest⟩, fun _ => ?_⟩
    show p.peek.span.lo < ((skipMembers p.bump).expect .closeBrace).2.frontier
    omega
  · rw [if_neg hbrace]
    exact ⟨.inl rfl, fun h => absurd h hbrace⟩

/-- What a class declares from its name on. Its name, its type parameters and the brace of its body
stand one behind the other, and the members stand behind the brace. -/
theorem Stands.classItem (h : Stands source p) (hlo : lo < p.frontier) :
    Decl.Forest lo (skipClassBody (skipClassHead m p)).frontier [classItem m lo p] := by
  have hname := h.of_reaches (reaches_skipClassName m p)
  have hparams := hname.1.of_reaches (reaches_takeAngle (skipClassName m p))
  have hhead : Stands source (skipClassHead m p) ∧
      (skipClassName m p).takeAngle.frontier ≤ (skipClassHead m p).frontier :=
    hparams.1.of_reaches (reaches_skipHeritage _)
  have hbody := hhead.1.of_reaches (reaches_skipClassBody (skipClassHead m p))
  have hspan : lo < (skipClassBody (skipClassHead m p)).frontier := by omega
  obtain ⟨hmembers, hbrace⟩ := hhead.1.classMembers
  refine .single (between_endOffset hspan (Nat.le_refl _))
    (.item (fits_of_span hspan rfl ?_ ?_ ?_) ?_ ?_)
  · refine (h.namedHead (q := skipClassName m p) fun hk => ?_).imp_right fun hbetween => ?_
    · have hkind : p.peek.kind = .ident := by
        rw [isClassName, Bool.and_eq_true, decide_eq_true_eq] at hk
        exact hk.1
      refine ⟨not_atEnd_of_kind hkind (by simp), ?_⟩
      rw [show skipClassName m p = p.bump from if_pos hk]
      exact .refl
    · exact hbetween.mono (by omega) (by omega)
  · exact fun s hs => (hname.1.typeParams? hs).mono (by omega) (by omega)
  · intro b hb
    dsimp only at hb
    obtain ⟨hopen, hb⟩ := Option.ite_none_right_eq_some.mp hb
    obtain rfl := Option.some.inj hb
    have := (hhead.1.peek (atEnd_of_isPunct hopen)).lo_le
    have := hbrace hopen
    omega
  · -- the members, if there is a body
    rcases hmembers with hnil | ⟨hopen, hrow⟩
    · exact .inl (by rw [DeclForm.members, hnil]; rfl)
    · refine .inr ⟨(skipClassHead m p).peek.span.lo, ?_, ?_⟩
      · rw [if_pos hopen]
        rfl
      · dsimp only
        rw [endOffset_eq (Nat.zero_lt_of_lt hspan)]
        exact hrow.order
  · rcases hmembers with hnil | ⟨-, hrow⟩
    · rw [DeclForm.members, hnil]
      exact fun a ha => absurd ha List.not_mem_nil
    · exact hrow.fits

/-- **Classes are well nested.** -/
theorem Stands.classDecl (h : Stands source p) (hend : p.atEnd = false)
    (hlo : p.declStart m ≤ p.peek.span.lo) :
    Decl.Forest (p.declStart m) (p.classDecl m).2.frontier (p.classDecl m).1 := by
  rw [classDecl_eq]
  dsimp only
  split
  · exact .nil
  · exact h.bump.1.classItem (h.lt_bump hend hlo)

/-- **Interfaces are well nested.** The name, the type parameters and the body stand one behind the
other, and there are no members to order. -/
theorem Stands.interfaceDecl (h : Stands source p) (hend : p.bump.atEnd = false)
    (hlo : p.declStart m ≤ p.peek.span.lo) :
    Decl.Forest (p.declStart m) (p.interfaceDecl m).2.frontier (p.interfaceDecl m).1 := by
  have hstart := h.lt_bump (not_atEnd_of_reaches (reaches_bump p) hend) hlo
  have hname := h.bump.1.peek hend
  have hparams := h.bump.1.bump.1.of_reaches (reaches_takeAngle p.bump.bump)
  have hhead := hparams.1.of_reaches (reaches_skipHeritage _)
  have hbody := hhead.1.of_reaches (reaches_requiredBody _)
  have hle := h.bump.1.bump.2
  unfold Parser.interfaceDecl
  dsimp only
  rw [typeParams?_snd]
  have hspan : p.declStart m < p.bump.bump.takeAngle.skipHeritage.requiredBody.2.frontier := by
    omega
  refine .single (between_endOffset hspan (Nat.le_refl _))
    (.item (fits_of_span hspan rfl (.inr ?_) ?_ ?_) (.inl rfl)
      (fun a ha => absurd ha List.not_mem_nil))
  · exact hname.mono (by omega) (by omega)
  · exact fun s hs => (h.bump.1.bump.1.typeParams? hs).mono (by omega) (by omega)
  · intro b hb
    have := hhead.1.requiredBody hb
    omega

/-- **Type aliases are well nested.** -/
theorem Stands.typeAliasDecl (h : Stands source p) (hend : p.bump.atEnd = false)
    (hlo : p.declStart m ≤ p.peek.span.lo) :
    Decl.Forest (p.declStart m) (p.typeAliasDecl m).2.frontier (p.typeAliasDecl m).1 := by
  have hstart := h.lt_bump (not_atEnd_of_reaches (reaches_bump p) hend) hlo
  have hname := h.bump.1.peek hend
  have hparams := h.bump.1.bump.1.of_reaches (reaches_takeAngle p.bump.bump)
  have htype := hparams.1.of_reaches (reaches_skipDefinition _)
  have hle := h.bump.1.bump.2
  have hrest := htype.1.frontier_le (reaches_finishItem _)
  unfold Parser.typeAliasDecl
  dsimp only
  rw [typeParams?_snd]
  have hspan : p.declStart m < (skipDefinition p.bump.bump.takeAngle).frontier := by omega
  refine .single (between_endOffset hspan hrest)
    (.item (fits_of_span hspan rfl (.inr ?_) ?_ ?_) (.inl rfl)
      (fun a ha => absurd ha List.not_mem_nil))
  · exact hname.mono (by omega) (by omega)
  · exact fun s hs => (h.bump.1.bump.1.typeParams? hs).mono (by omega) (by omega)
  · exact fun b hb => absurd hb (by simp [DeclModifiers.head])

/-- **Enums are well nested.** -/
theorem Stands.enumDecl (h : Stands source p) (hend : p.atEnd = false)
    (hlo : p.declStart m ≤ p.peek.span.lo) :
    Decl.Forest (p.declStart m) (p.enumDecl m).2.frontier (p.enumDecl m).1 := by
  have hstart := h.lt_bump hend hlo
  unfold Parser.enumDecl
  dsimp only
  split
  · rename_i hk
    have hname := h.bump.1.peek (not_atEnd_of_kind hk (by simp))
    have hbody := h.bump.1.bump.1.of_reaches (reaches_requiredBody _)
    have hle := h.bump.1.bump.2
    have hspan : p.declStart m < p.bump.bump.requiredBody.2.frontier := by omega
    refine .single (between_endOffset hspan (Nat.le_refl _))
      (.item (fits_of_span hspan rfl (.inr ?_) ?_ ?_) (.inl rfl)
        (fun a ha => absurd ha List.not_mem_nil))
    · exact hname.mono (by omega) (by omega)
    · exact fun s hs => absurd hs (by simp [DeclModifiers.head])
    · intro b hb
      have := h.bump.1.bump.1.requiredBody hb
      omega
  · exact .nil

/-! ### Variables -/

/-- A declarator starts with its name, or with a pattern. -/
theorem declaratorName?_some {name : DeclHead} {isPattern : Bool}
    (hq : p.declaratorName? = some (name, isPattern, q)) :
    p.atEnd = false ∧ Reaches p.bump q ∧
      (name.nameSpan = ⟨0, 0⟩ ∧ name.name = [] ∨ name.nameSpan = p.peek.span) := by
  unfold declaratorName? at hq
  split at hq
  · rename_i hk
    simp only [Option.some.injEq, Prod.mk.injEq] at hq
    obtain ⟨rfl, -, rfl⟩ := hq
    exact ⟨not_atEnd_of_kind hk (by simp), .refl, .inr rfl⟩
  split at hq
  · rename_i hopen
    simp only [Option.some.injEq, Prod.mk.injEq] at hq
    obtain ⟨rfl, -, rfl⟩ := hq
    have hgroup : p.atEnd = false ∧ p.peek.kind.isOpener = true := by
      rcases Bool.or_eq_true_iff.mp hopen with h | h
      · exact ⟨atEnd_of_isPunct h, isOpener_of_isPunct h rfl⟩
      · exact ⟨atEnd_of_isPunct h, isOpener_of_isPunct h rfl⟩
    exact ⟨hgroup.1, reaches_bump_takeGroup hgroup.2, .inl ⟨rfl, rfl⟩⟩
  · exact absurd hq (by simp)

/-- One declarator. It reaches from its name or pattern up to the end of its value, and it has
neither type parameters nor a body. -/
theorem Stands.declarator {name : DeclHead} {isPattern : Bool} {word : VarKeyword}
    (h : Stands source p) (hq : p.declaratorName? = some (name, isPattern, q)) :
    Decl.Forest p.frontier q.declaratorRest.frontier
      [.item { m.head with
          name := name.name
          nameSpan := name.nameSpan
          span := ⟨p.peek.span.lo, q.declaratorRest.endOffset⟩ }
        (.variableForm word isPattern)] := by
  obtain ⟨hend, hreach, hname⟩ := declaratorName?_some hq
  have hpeek := h.peek hend
  have hq' := h.bump.1.of_reaches hreach
  have hrest := hq'.1.frontier_le (reaches_declaratorRest q)
  have hlt := h.lt_bump hend (Nat.le_refl _)
  have hspan : p.peek.span.lo < q.declaratorRest.frontier := by omega
  refine .single ((between_endOffset hspan (Nat.le_refl _)).mono hpeek.lo_le (Nat.le_refl _))
    (.item (fits_of_span hspan rfl ?_ ?_ ?_) (.inl rfl) (fun a ha => absurd ha List.not_mem_nil))
  · refine hname.imp_right fun heq => ?_
    dsimp only
    rw [heq]
    exact ⟨Nat.le_refl _, hpeek.lt, Nat.le_trans hpeek.hi_le (by omega)⟩
  · exact fun s hs => absurd hs (by simp [DeclModifiers.head])
  · exact fun b hb => absurd hb (by simp [DeclModifiers.head])

/-- **Declarators lie one behind the other.** -/
theorem Stands.declarators (word : VarKeyword) (h : Stands source p) :
    Decl.Forest p.frontier (declarators m word p).2.frontier (declarators m word p).1 := by
  fun_induction Parser.declarators m word p with
  | case1 p _ => exact .nil
  | case2 p _ _ => exact .nil
  | case3 p _ name isPattern q hq lo head d hc rest ih =>
    obtain ⟨-, hreach, -⟩ := declaratorName?_some hq
    have hrest := h.of_reaches (((reaches_bump p).trans hreach).trans (reaches_declaratorRest q))
    have hmore := hrest.1.bump.1.frontier_le (reaches_declarators m word _)
    exact (h.declarator hq).append (ih hrest.1.bump.1) hrest.2 hrest.1.bump.2 hmore
  | case4 p _ name isPattern q hq lo head d hc =>
    obtain ⟨-, hreach, -⟩ := declaratorName?_some hq
    have hrest := h.reach (((reaches_bump p).trans hreach).trans (reaches_declaratorRest q))
    exact (h.declarator hq).mono (Nat.le_refl _) (hrest.frontier_le (reaches_finishItem _))

/-- Declared variables stand ahead, one after the other. -/
theorem Stands.variableDecl (h : Stands source p) :
    Decl.Forest p.frontier (p.variableDecl m).2.frontier (p.variableDecl m).1 :=
  (h.bump.1.declarators _).mono h.bump.2 (Nat.le_refl _)

/-! ### Namespaces -/

/-- A namespace starts behind the offset `lo`, and its name is before the offset `hi`. -/
structure SpaceStart.Starts (s : SpaceStart) (lo hi : Nat) : Prop where
  lo_le : lo ≤ s.lo
  name : s.head.nameSpan.Between s.lo hi
  plain : s.head.typeParams? = none

/-- The head of a namespace stands behind its first token. The name is the word `global`, a text in
quotes or a dotted name. -/
theorem Stands.spaceStart (h : Stands source p) (hend : p.bump.atEnd = false)
    (hlo : p.declStart m ≤ p.peek.span.lo) :
    (p.spaceStart m).1.Starts (p.declStart m) (p.spaceStart m).2.frontier := by
  have hstart := not_atEnd_of_reaches (reaches_bump p) hend
  have hword := h.peek hstart
  have hname := h.bump.1.peek hend
  have hlt := h.lt_bump hstart hlo
  unfold Parser.spaceStart
  dsimp only
  split
  · exact ⟨Nat.le_refl _, ⟨hlo, hword.lt, hword.hi_le⟩, rfl⟩
  split
  · exact ⟨Nat.le_refl _, hname.mono (Nat.le_of_lt hlt) (Nat.le_refl _), rfl⟩
  · -- the last part of a dotted name is taken last
    have hprevious : p.bump.bump.previous = p.bump.peek := by
      obtain ⟨t, ts, hp⟩ := exists_of_not_atEnd hend
      rw [previous_bump hp, peek_of_ahead hp]
    have hdotted := previous_dottedName p.bump.bump.cursor p.bump.bump.ahead rfl hprevious
    have hreach := reaches_advance p.bump.bump (dottedName p.bump.peek p.bump.bump.ahead).1
    have hlast := h.bump.1.previous hend hreach
    have hfront := h.bump.1.bump.1.frontier_le hreach
    rw [show (p.bump.bump.advance _).previous = _ from hdotted] at hlast
    refine ⟨Nat.le_refl _, ⟨?_, ?_, ?_⟩, rfl⟩
    all_goals
      have := hname.lo_le
      have := hname.lt
      have := hname.hi_le
      simp only [Span.join]
      omega

/-- The finished namespace holds what lies in its body. -/
theorem SpaceStart.Starts.finish {s : SpaceStart} {first hi : Nat} {body? : Option Nat}
    {children : List Decl} (hs : s.Starts first hi) (hq : hi ≤ q.frontier)
    (hbody : ∀ b ∈ body?, s.lo < b ∧ b < q.frontier)
    (hchildren : children = [] ∨ ∃ b ∈ body?, Decl.Forest (b + 1) q.frontier children) :
    Decl.Forest first q.frontier [s.finish body? children q] := by
  have hspan : s.lo < q.frontier := by
    have := hs.name.lo_le
    have := hs.name.lt
    have := hs.name.hi_le
    omega
  refine .single ((between_endOffset hspan (Nat.le_refl _)).mono hs.lo_le (Nat.le_refl _))
    (.space (fits_of_span hspan rfl (.inr ?_) ?_ hbody) ?_ ?_)
  · exact hs.name.mono (Nat.le_refl _) hq
  · exact fun t ht => absurd ht (by simp [hs.plain])
  · refine hchildren.imp (fun h => by rw [h]; rfl) fun ⟨b, hb, h⟩ => ⟨b, hb, ?_⟩
    dsimp only
    rw [endOffset_eq (Nat.zero_lt_of_lt hspan)]
    exact h.order
  · rcases hchildren with rfl | ⟨b, hb, h⟩
    · exact fun d hd => absurd hd List.not_mem_nil
    · exact h.nested

end Parser

end SignatureLedger
