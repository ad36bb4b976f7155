import SignatureLedger.Proofs.Declaration.Twin.Declarations

/-!
# Items in step

Two parses abreast take the same items: declarations that offer the same, namespaces with the same
name, and statements and clauses, which declare nothing. Item after item they come to the end of the
module (`same_itemsFrom`), through the body that differs if there is one.
-/

namespace SignatureLedger

open SignatureLedger.Parser SignatureLedger.Normal

namespace Views

/-- Namespaces that have the same name, if their names may be compared. -/
structure SameSpace (V : Views) (s s' : SpaceStart) : Prop where
  exported : s'.head.exported = s.head.exported
  isGlobal : s'.isGlobal = s.isGlobal
  name : V.fits s.head.nameSpan → V.fits' s'.head.nameSpan → s'.head.name = s.head.name

/-- The same namespace, with members that make the same offers. -/
theorem SameSpace.finish {V : Views} {s s' : SpaceStart} (h : V.SameSpace s s')
    {body? body'? : Option Nat} {children children' : List Decl}
    (hchildren : V.SameOffers children children') (p p' : Parser) :
    V.SameOffers [s.finish body? children p] [s'.finish body'? children' p'] := by
  unfold SpaceStart.finish
  rw [h.isGlobal]
  exact .space h.exported h.name hchildren

/-- Items of the same kind: with declarations that offer the same, or namespaces whose bodies come
next. -/
inductive SameItem (V : Views) : Item → Item → Prop
  | complete {ds ds' : List Decl} (h : V.SameOffers ds ds') :
      SameItem V (.complete ds) (.complete ds')
  | opened {s s' : SpaceStart} {body body' : Nat} (h : V.SameSpace s s') :
      SameItem V (.opened s body) (.opened s' body')

end Views

namespace Runs

variable {r : Runs} {V : Views} {p p' : Parser} {m m' : DeclModifiers}

/-- If of both parses something can be said, then the items that they have taken are the same, and
they stand along the hole. -/
def Hole.SameItem (H : r.Hole V) (a a' : Item × Parser) : Prop :=
  Lives r.tail H.hole (itemBodies a.1) a.2 → Lives r.tail' H.hole' (itemBodies a'.1) a'.2 →
    V.SameItem a.1 a'.1 ∧ Along H a.2 a'.2

/-- An item that declares nothing. -/
theorem Hole.sameItem_of_inStep {H : r.Hole V} {f : Parser → Parser} (h : r.Abreast p p')
    (hf : r.InStep f p p') : H.SameItem (.complete [], f p) (.complete [], f p') :=
  fun hl hl' => ⟨.complete .nil, .inl (hf h hl.of_nil hl'.of_nil)⟩

/-- The same declarations, as a complete item. -/
theorem Hole.Same.sameItem {H : r.Hole V} {a a' : List Decl × Parser} (h : H.Same a a') :
    H.SameItem (.complete a.1, a.2) (.complete a'.1, a'.2) := fun hl hl' =>
  ⟨.complete (h hl hl').1, (h hl hl').2⟩

/-- The same item in either branch, if both parsers take the same one. -/
theorem Hole.SameItem.ite {H : r.Hole V} {t t' : Prop} [Decidable t] [Decidable t']
    {a a' b b' : Item × Parser} (ht : t' ↔ t) (ha : t → H.SameItem a a')
    (hb : ¬ t → H.SameItem b b') :
    H.SameItem (if t then a else b) (if t' then a' else b') := by
  by_cases h : t
  · rw [if_pos h, if_pos (ht.mpr h)]
    exact ha h
  · rw [if_neg h, if_neg fun h' => h (ht.mp h')]
    exact hb h

/-! ## Namespaces -/

theorem inStep_skipSpaceName (p p' : Parser) : r.InStep skipSpaceName p p' := by
  apply InStep.ite
  · intro h
    rw [h.kind]
  · intro _
    exact inStep_bump p p'
  · intro _ h hk hk'
    have hbump := inStep_bump p p' h (hk.of_reaches (reaches_take _ _))
      (hk'.of_reaches (reaches_take _ _))
    exact hbump.take (hbump.twins.dotted _ _ r.tails) hk hk'

/-- Two parsers abreast stay so over the head of a namespace. -/
theorem abreast_spaceStart (h : r.Abreast p p') (hk : Keeps r.tail (p.spaceStart m).2)
    (hk' : Keeps r.tail' (p'.spaceStart m').2) :
    r.Abreast (p.spaceStart m).2 (p'.spaceStart m').2 := by
  have hname : r.InStep (fun q => if q.isWord "global" then q.bump else skipSpaceName q.bump)
      p p' := by
    apply InStep.ite
    · intro h
      rw [h.isWord]
    · intro _
      exact inStep_bump p p'
    · intro _
      exact (inStep_bump p p').comp reaches_skipSpaceName (inStep_skipSpaceName _ _)
  rw [spaceStart_snd] at hk hk' ⊢
  rw [spaceStart_snd]
  exact hname h hk hk'

/-- The last token of a dotted name. -/
theorem inner_dottedName (hend : p.atEnd = false) (hend' : p'.atEnd = false)
    (hafter : r.Abreast (p.bump.advance (dottedName p.peek p.bump.ahead).1)
      (p'.bump.advance (dottedName p'.peek p'.bump.ahead).1)) :
    r.Inner (dottedName p.peek p.bump.ahead).2 (dottedName p'.peek p'.bump.ahead).2 := by
  have hlast : ∀ q : Parser, q.atEnd = false →
      (dottedName q.peek q.bump.ahead).2
        = (q.bump.advance (dottedName q.peek q.bump.ahead).1).previous := by
    intro q hq
    obtain ⟨t, ts, hp⟩ := exists_of_not_atEnd hq
    refine (previous_dottedName q.bump.cursor _ rfl ?_).symm
    rw [peek_of_ahead hp]
    show q.cursor.bump.previous = t
    rw [Cursor.bump, show q.cursor.ahead = t :: ts from hp]
    rfl
  rw [hlast p hend, hlast p' hend']
  exact hafter.previous

theorem atEnd_of_kind (hk : p.peek.kind = .ident) : p.atEnd = false := by
  rw [← Bool.not_eq_true, atEnd_iff]
  intro hnil
  rw [Parser.peek, Cursor.peek, show p.cursor.ahead = [] from hnil] at hk
  exact absurd hk (by simp [Token.eofAt])

theorem left_of_ident (h : r.Abreast p p') (hk : p.peek.kind = .ident) :
    1 + r.tail.length ≤ p.left :=
  h.left_of_peek (by simp [Parser.isPunct, Token.isPunct, hk]) (atEnd_of_kind hk)

/-- The name of a namespace is the same, if it may be compared. The word `global` and a text in
quotes are single tokens; a dotted name is the text from its first part to its last. -/
theorem Texts.spaceStart (ht : r.Texts V) (h : r.Abreast p p') (hm : m'.exported = m.exported)
    (hname : p.isWord "global" = false →
      p.peekNext.kind = .ident ∨ p.peekNext.kind = .stringLit)
    (hk : Keeps r.tail (p.spaceStart m).2) (hk' : Keeps r.tail' (p'.spaceStart m').2) :
    V.SameSpace (p.spaceStart m).1 (p'.spaceStart m').1 := by
  have hafter := abreast_spaceStart h hk hk'
  have hreach : ∀ (q : Parser) (m : DeclModifiers), Reaches q.bump (q.spaceStart m).2 := by
    intro q m
    rw [spaceStart_snd]
    exact .ite (fun _ => .refl) (fun _ => reaches_skipSpaceName _)
  have hbump := inStep_bump p p' h (hk.of_reaches (hreach p m)) (hk'.of_reaches (hreach p' m'))
  have hword : p'.peek.isWord "global" = p.peek.isWord "global" := h.isWord "global"
  rw [← peek_bump] at hname
  unfold Parser.spaceStart at hafter ⊢
  dsimp only at hafter ⊢
  rw [hword, hbump.kind] at hafter ⊢
  by_cases hglobal : p.peek.isWord "global" = true
  · rw [if_pos hglobal, if_pos hglobal]
    exact ⟨hm, rfl, fun _ _ => h.lexeme⟩
  rw [if_neg hglobal, if_neg hglobal] at hafter ⊢
  by_cases hstring : p.bump.peek.kind = .stringLit
  · rw [if_pos hstring, if_pos hstring]
    exact ⟨hm, rfl, fun _ _ => congrArg unquote hbump.lexeme⟩
  · rw [if_neg hstring, if_neg hstring] at hafter ⊢
    have hident := (hname (Bool.not_eq_true _ ▸ hglobal)).resolve_right hstring
    have hlt : r.tail.length < p.bump.left := by
      have := left_of_ident hbump hident
      omega
    refine ⟨hm, rfl, fun hfits hfits' => ?_⟩
    dsimp only at hfits hfits' ⊢
    rw [show p.bump.bump.source = V.source from hbump.source.trans ht.source,
      show p'.bump.bump.source = V.source' from hbump.source'.trans ht.source']
    exact ht.named (hbump.peek_inner hlt)
      (inner_dottedName (atEnd_of_kind hident) (atEnd_of_kind (hbump.kind.trans hident)) hafter)
      hfits hfits'

/-- Two parsers abreast open the same namespace. There is no hole in the head of it, and a brace
behind the name opens it in both parses or in neither. -/
theorem same_namespaceItem (H : r.Hole V) (h : r.Abreast p p') (hm : m'.exported = m.exported)
    (hname : p.isWord "global" = false →
      p.peekNext.kind = .ident ∨ p.peekNext.kind = .stringLit) :
    H.SameItem (p.namespaceItem m) (p'.namespaceItem m') := by
  intro hl hl'
  rw [bodies_namespaceItem] at hl hl'
  have hk := hl.of_nil
  have hk' := hl'.of_nil
  have hspace : Keeps r.tail (p.spaceStart m).2 := hk.of_reaches (reaches_openSpace _ _)
  have hspace' : Keeps r.tail' (p'.spaceStart m').2 := hk'.of_reaches (reaches_openSpace _ _)
  have hafter := abreast_spaceStart h hspace hspace'
  have hsame := H.texts.spaceStart h hm hname hspace hspace'
  unfold namespaceItem at hk hk' ⊢
  dsimp only at hk hk' ⊢
  rw [hafter.isPunct] at hk' ⊢
  by_cases hb : (p.spaceStart m).2.isPunct .openBrace = true
  · rw [if_pos hb] at hk hk' ⊢
    rw [if_pos hb]
    exact ⟨.opened hsame, .inl (inStep_bump _ _ hafter hk hk')⟩
  · rw [if_neg hb] at hk hk' ⊢
    rw [if_neg hb]
    exact ⟨.complete (hsame.finish .nil _ _), .inl (inStep_finishItem _ _ hafter hk hk')⟩

/-! ## Declarations -/

/-- Two choices between the same branches are related if the branches are. -/
theorem rel_ite {α β : Type} {R : α → β → Prop} {t t' : Prop} [Decidable t] [Decidable t']
    {a b : Option α} {a' b' : Option β} (ht : t' ↔ t) (ha : t → Option.Rel R a a')
    (hb : ¬ t → Option.Rel R b b') :
    Option.Rel R (if t then a else b) (if t' then a' else b') := by
  by_cases h : t
  · rw [if_pos h, if_pos (ht.mpr h)]
    exact ha h
  · rw [if_neg h, if_neg fun h' => h (ht.mp h')]
    exact hb h

/-- Behind a token that is no brace the next one is not behind the first one of the tails. -/
theorem left_of_isWord (h : r.Abreast p p') {w : String} (hw : p.isWord w = true) :
    1 + r.tail.length ≤ p.left := left_of_ident h (Token.kind_of_isWord hw)

theorem left_of_isKeyword (h : r.Abreast p p') {k : Keyword} (hk : p.isKeyword k = true) :
    1 + r.tail.length ≤ p.left := by
  refine h.left_of_peek ?_ (atEnd_of_isKeyword hk)
  simp only [Parser.isKeyword, Token.isKeyword, beq_iff_eq] at hk
  simp [Parser.isPunct, Token.isPunct, hk]

/-- A test of the token behind the next one, where something is known of that. -/
theorem and_peekNext (h : r.Abreast p p') {b : Bool} (hb : b = true → 1 + r.tail.length ≤ p.left)
    (P : Token → Bool) (hP : ∀ t s, P (Token.moved t s) = P t) :
    (b && P p'.peekNext) = (b && P p.peekNext) := by
  cases b with
  | false => rfl
  | true =>
    have hnext := (h.peekAt (n := 1) (hb rfl)).same.congr P hP
    rw [Bool.true_and, Bool.true_and]
    exact hnext

theorem atTypeAlias_eq (h : r.Abreast p p') : p'.atTypeAlias = p.atTypeAlias := by
  have hnext := and_peekNext h (b := p.isWord "type") (left_of_isWord h)
    (fun t => t.kind == .ident && !t.newlineBefore) fun _ _ => rfl
  unfold atTypeAlias
  dsimp only at hnext ⊢
  rw [← Bool.and_assoc, ← Bool.and_assoc] at hnext
  rw [h.isWord, hnext]
  -- the third token is tested behind a word and a name only
  cases hhead : (p.isWord "type" && p.peekNext.kind == .ident && !p.peekNext.newlineBefore) with
  | false => rfl
  | true =>
    simp only [Bool.and_eq_true, beq_iff_eq] at hhead
    have hbump := h.advance_of_le (left_of_isWord h hhead.1.1)
    have hname : p.bump.peek.kind = .ident := by rw [peek_bump, hhead.1.2]
    have hleft := left_of_ident hbump hname
    rw [left_advance] at hleft
    have hthird := (h.peekAt (n := 2) (by omega)).same
    rw [hthird.congr (·.isPunct .assign) fun _ _ => rfl,
      hthird.congr (·.isPunct .less) fun _ _ => rfl]

theorem isDeclare_of_unplaced (h : m'.unplaced = m.unplaced) : m'.isDeclare = m.isDeclare := by
  show m'.unplaced.isDeclare = m.unplaced.isDeclare
  rw [h]

/-- An enum behind the word `const` starts at that word. -/
theorem same_constEnumDecl (H : r.Hole V) (h : r.Abreast p p') (hs : r.SameStart p p' m m')
    (hconst : p.isKeyword .constKw = true) :
    H.Same (p.bump.enumDecl (m.startAt p.peek)) (p'.bump.enumDecl (m'.startAt p'.peek)) := by
  have hbump := h.advance_of_le (left_of_isKeyword h hconst)
  exact same_enumDecl H hbump ⟨hs.unplaced, hs.starts⟩

/-- Both parses find the same declaration behind modifiers, or none. Each test looks at the words
ahead and at the modifiers, and it comes out alike in both. -/
theorem rel_declRest? (H : r.Hole V) (h : r.Abreast p p') (hs : r.SameStart p p' m m')
    (onlyDefault : Bool) :
    Option.Rel H.SameItem (p.declRest? onlyDefault m) (p'.declRest? onlyDefault m') := by
  have hexported := exported_of_unplaced hs.unplaced
  unfold declRest?
  dsimp only
  -- kind by kind, in the order in which the kinds are tried
  refine rel_ite (by rw [h.isKeyword]) (fun _ => .some (same_functionDecl H h hs).sameItem) ?_
  intro _
  refine rel_ite (by rw [h.isKeyword]) (fun _ => .some (same_classDecl H h hs).sameItem) ?_
  intro _
  refine rel_ite ?_ (fun _ => .some (same_interfaceDecl H h hs).sameItem) ?_
  · have hnext := and_peekNext h (left_of_isWord h (w := "interface"))
      (fun t => t.kind == .ident && !t.newlineBefore) fun _ _ => rfl
    rw [Bool.and_assoc, Bool.and_assoc, h.isWord, hnext]
  intro _
  refine rel_ite Iff.rfl (fun _ => .none) ?_
  intro _
  refine rel_ite (by rw [h.isKeyword]) (fun _ => .some (same_enumDecl H h hs).sameItem) ?_
  intro _
  refine rel_ite ?_ (fun hk => ?_) ?_
  · rw [h.isKeyword, and_peekNext h (left_of_isKeyword h) (·.isKeyword .enumKw) fun _ _ => rfl]
  · rw [Bool.and_eq_true] at hk
    exact .some (same_constEnumDecl H h hs hk.1).sameItem
  intro _
  refine rel_ite (by rw [h.isKeyword, h.isKeyword])
    (fun _ => .some (same_variableDecl H h hs).sameItem) ?_
  intro _
  refine rel_ite ?_ (fun _ => .some (same_variableDecl H h hs).sameItem) ?_
  · rw [h.isWord, and_peekNext h (left_of_isWord h)
      (fun t => t.kind == .ident || t.isPunct .openBracket || t.isPunct .openBrace) fun _ _ => rfl]
  intro _
  refine rel_ite (by rw [atTypeAlias_eq h]) (fun _ => .some (same_typeAliasDecl H h hs).sameItem) ?_
  intro _
  refine rel_ite ?_ (fun hk => .some (same_namespaceItem H h hexported fun _ => ?_)) ?_
  · have hwords : (p.isWord "namespace" || p.isWord "module") = true →
        1 + r.tail.length ≤ p.left := fun hw => by
      rcases Bool.or_eq_true .. ▸ hw with hw | hw <;> exact left_of_isWord h hw
    have hnext := and_peekNext h hwords
      (fun t => (t.kind == .ident || t.kind == .stringLit) && !t.newlineBefore) fun _ _ => rfl
    rw [Bool.and_assoc, Bool.and_assoc, h.isWord, h.isWord, hnext]
  · simp only [Bool.and_eq_true, Bool.or_eq_true, beq_iff_eq] at hk
    exact hk.1.2
  intro _
  refine rel_ite ?_ (fun hk => .some (same_namespaceItem H h hexported fun hglobal => ?_))
    fun _ => .none
  swap
  · rw [hglobal] at hk
    exact absurd hk (by simp)
  rw [h.isWord, isDeclare_of_unplaced hs.unplaced, and_peekNext h
    (fun hw => left_of_isWord h (Bool.and_eq_true .. ▸ hw).1) (·.isPunct .openBrace) fun _ _ => rfl]

/-- Two parsers abreast find the same declaration, or neither finds one. -/
theorem rel_declItem? (H : r.Hole V) (h : r.Abreast p p') (exported : ExportMode) :
    Option.Rel H.SameItem (p.declItem? exported) (p'.declItem? exported) := by
  have hlo := declStart_read p (exported = .asDefault) exported
  have hlo' := declStart_read p' (exported = .asDefault) exported
  obtain ⟨hunplaced, hcount, hleaves⟩ := h.twins.declModifiers r.tails (exported = .asDefault) 0
    (rfl : DeclModifiers.unplaced { exported } = DeclModifiers.unplaced { exported })
  unfold declItem?
  dsimp only
  generalize DeclModifiers.read (exported = .asDefault) { exported } 0 p.ahead = a at *
  generalize DeclModifiers.read (exported = .asDefault) { exported } 0 p'.ahead = a' at *
  rw [hcount] at hlo' ⊢
  have hafter := h.advance_of_le (n := a.2) (by rw [Nat.zero_add] at hleaves; exact hleaves)
  refine rel_declRest? H hafter ⟨hunplaced, ?_⟩ _
  rw [hlo, hlo']
  exact h.starts

/-! ## Statements and clauses -/

theorem inStep_skipStatement (p p' : Parser) : r.InStep skipStatement p p' := by
  apply InStep.ite
  · intro h
    rw [h.kind]
  · intro _
    exact .of_loud (not_quiet_of_report (reaches_bump _))
  intro _
  apply InStep.ite
  · intro h
    rw [h.halted]
  · exact .of_halted
  · intro _
    exact inStep_take (fun _ _ h => h.statement r.tails .none) p p'

theorem inStep_skipClause (p p' : Parser) : r.InStep skipClause p p' := by
  apply InStep.ite
  · intro h
    rw [h.halted]
  · exact .of_halted
  · intro _
    exact inStep_take (fun _ _ h => h.clause r.tails .none) p p'

/-! ## Items -/

section Items

variable {H : r.Hole V} {f : Parser → Item × Parser} {g : Parser → Parser}

/-- The declaration that is found, or else another item. -/
theorem Hole.SameItem.orElse {o o' : Option (Item × Parser)} {a a' : Item × Parser} :
    Option.Rel H.SameItem o o' → H.SameItem a a' →
      H.SameItem (match o with | .some x => x | .none => a)
        (match o' with | .some x => x | .none => a') := by
  intro ho ha
  cases ho with
  | none => exact ha
  | some hsame => exact hsame

/-- An item behind moves that both parses make in step. -/
theorem Hole.SameItem.after (h : r.Abreast p p') (hg : r.InStep g p p')
    (hreach : ∀ q, Reaches q (g q)) (hf : ∀ q, Reaches q (f q).2) (ht : ∀ q, TakesBodies q (f q))
    (hs : r.Abreast (g p) (g p') → H.SameItem (f (g p)) (f (g p'))) :
    H.SameItem (f (g p)) (f (g p')) := by
  intro hl hl'
  have hk := hl.keeps H.pin ((suffix_of_reaches (hreach p)).trans h.suffix) (hf _) (ht _)
  have hk' := hl'.keeps H.pin' ((suffix_of_reaches (hreach p')).trans h.suffix') (hf _) (ht _)
  exact hs (hg h hk hk') hl hl'

/-- Two parsers abreast read the same default export. -/
theorem same_defaultItem (H : r.Hole V) (h : r.Abreast p p') :
    H.SameItem (defaultItem p) (defaultItem p') := by
  have hrest : r.InStep (fun q => q.skipExpr.finishItem) p p' :=
    (inStep_skipExpr p p').comp reaches_finishItem (inStep_finishItem _ _)
  exact .orElse (rel_declItem? H h .asDefault)
    (Hole.sameItem_of_inStep (f := fun q => q.skipExpr.finishItem) h hrest)

/-- Two parsers abreast read the same export with a name. -/
theorem same_namedItem (H : r.Hole V) (h : r.Abreast p p') :
    H.SameItem (namedItem p) (namedItem p') := by
  refine .orElse (rel_declItem? H h .named) ?_
  refine .ite (by rw [h.atEnd]) (fun _ => ?_) fun _ => ?_
  · intro hl
    exact absurd hl.quiet (not_quiet_report _ _ _ _)
  · intro hl
    exact absurd hl.quiet (not_quiet_of_report (reaches_skipStatement _))

theorem atExportClause_eq (h : r.Abreast p p') : p'.atExportClause = p.atExportClause := by
  unfold atExportClause
  rw [h.isPunct, h.isPunct, h.isKeyword, h.isWord, h.isWord, and_peekNext h (left_of_isWord h)
    (fun t => t.isPunct .openBrace || t.isPunct .star) fun _ _ => rfl]

/-- Two parsers abreast read the same export. -/
theorem same_exportItem (H : r.Hole V) (h : r.Abreast p p') :
    H.SameItem p.exportItem p'.exportItem := by
  have hdecorators : ∀ q : Parser, Reaches q q.bump.skipDecorators := fun q =>
    (reaches_bump q).trans (reaches_skipDecorators _)
  rw [exportItem_eq, exportItem_eq]
  refine .ite (by rw [h.isKeyword]) (fun _ => ?_) fun _ => ?_
  · exact .after (g := fun q => q.bump.skipDecorators) h
      ((inStep_bump p p').comp reaches_skipDecorators (inStep_skipDecorators _ _)) hdecorators
      reaches_defaultItem takesBodies_defaultItem (same_defaultItem H)
  refine .ite (by rw [h.isPunct]) (fun _ => ?_) fun _ => ?_
  · have hrest : r.InStep (fun q => q.bump.skipExpr.finishItem) p p' :=
      ((inStep_bump p p').comp reaches_skipExpr (inStep_skipExpr _ _)).comp reaches_finishItem
        (inStep_finishItem _ _)
    exact Hole.sameItem_of_inStep (f := fun q => q.bump.skipExpr.finishItem) h hrest
  refine .ite (by rw [atExportClause_eq h]) (fun _ => ?_) fun _ => ?_
  · exact Hole.sameItem_of_inStep h (inStep_skipClause p p')
  · exact .after h (inStep_skipDecorators p p') reaches_skipDecorators
      reaches_namedItem takesBodies_namedItem (same_namedItem H)

/-- Two parsers abreast read the same item behind its decorators. The words `import` and `export`
are looked at first, then the kinds of declarations, and what is left is a statement. -/
theorem same_undecoratedItem (H : r.Hole V) (h : r.Abreast p p') :
    H.SameItem (undecoratedItem p) (undecoratedItem p') := by
  unfold undecoratedItem
  by_cases himport : p.isKeyword .importKw = true
  · -- a call or a property of `import` is a statement
    have hnext := (h.peekAt (n := 1) (left_of_isKeyword h himport)).same
    rw [if_pos himport, if_pos ((h.isKeyword _).trans himport)]
    refine .ite ?_ (fun _ => ?_) fun _ => ?_
    · rw [show p'.peekNext.isPunct .openParen = p.peekNext.isPunct .openParen from
          hnext.congr (·.isPunct .openParen) fun _ _ => rfl,
        show p'.peekNext.isPunct .dot = p.peekNext.isPunct .dot from
          hnext.congr (·.isPunct .dot) fun _ _ => rfl]
    · exact Hole.sameItem_of_inStep h (inStep_skipStatement p p')
    · have hrest : r.InStep (fun q => q.bump.skipClause) p p' :=
        (inStep_bump p p').comp reaches_skipClause (inStep_skipClause _ _)
      exact Hole.sameItem_of_inStep (f := fun q => q.bump.skipClause) h hrest
  rw [if_neg himport, if_neg fun himport' => himport ((h.isKeyword _).symm.trans himport')]
  refine .ite (by rw [h.isKeyword]) (fun _ => ?_) fun _ => ?_
  · exact .after h (inStep_bump p p') reaches_bump reaches_exportItem
      takesBodies_exportItem (same_exportItem H)
  · exact .orElse (rel_declItem? H h .none)
      (Hole.sameItem_of_inStep h (inStep_skipStatement p p'))

/-- **Both parses take the same item.** -/
theorem same_item (H : r.Hole V) (h : r.Abreast p p') : H.SameItem p.item p'.item := by
  rw [item_eq, item_eq]
  refine .ite (by rw [h.isPunct]) (fun _ => ?_) fun _ => ?_
  · exact Hole.sameItem_of_inStep h (inStep_bump p p')
  · exact .after h (inStep_skipDecorators p p') reaches_skipDecorators
      reaches_undecoratedItem takesBodies_undecoratedItem (same_undecoratedItem H)

end Items

/-! ## Modules -/

/-- What can be said of a parse behind an item can be said of it before the item's body, if that is
a namespace. -/
theorem lives_item {x ts : List Token} {hole : Nat}
    (hl : Lives x hole (Decl.bodiesOfAll p.itemDecls) p.afterItem) (hp : Pin x ts hole)
    (hw : p.ahead <:+ ts) : Lives x hole (itemBodies p.item.1) p.item.2 := by
  have hreach := reaches_item p
  cases hi : p.item with
  | mk i q =>
    rw [hi] at hreach
    cases i with
    | complete ds =>
      rw [itemDecls_of_complete hi, afterItem_of_complete hi] at hl
      exact hl.before (reaches_pastItem p q)
    | opened s body =>
      rw [itemDecls_of_opened hi, bodiesOfAll_finish, afterItem_of_opened hi] at hl
      have hclose := reaches_expect (itemsFrom true q).1.2 .closeBrace
      rw [← List.nil_append (Decl.bodiesOfAll _)] at hl
      exact hl.first hp ((suffix_of_reaches hreach).trans hw)
        ((reaches_itemsFrom true q).trans hclose)
        fun _ ho => (taken_itemsFrom true q ho).of_reaches .refl hclose

/-- One item, with its items if it is a namespace. The items inside are compared by the hypothesis
on shorter parses, and the closing brace is behind them. -/
theorem along_afterItem (H : r.Hole V) (h : r.Abreast p p')
    (hinner : ∀ {s : Runs} (K : s.Hole V) (q q' : Parser), q.left < p.left → s.Abreast q q' →
      K.Same (itemsFrom true q).1 (itemsFrom true q').1)
    (hl : Lives r.tail H.hole (Decl.bodiesOfAll p.itemDecls) p.afterItem)
    (hl' : Lives r.tail' H.hole' (Decl.bodiesOfAll p'.itemDecls) p'.afterItem) :
    V.SameOffers p.itemDecls p'.itemDecls ∧ Along H p.afterItem p'.afterItem := by
  have htaken := takesBodies_item p
  have htaken' := takesBodies_item p'
  obtain ⟨hsame, halong⟩ := same_item H h (lives_item hl H.pin h.suffix)
    (lives_item hl' H.pin' h.suffix')
  cases hi : p.item with
  | mk i q =>
  cases hi' : p'.item with
  | mk i' q' =>
  rw [hi] at hsame halong htaken
  rw [hi'] at hsame halong htaken'
  cases hsame with
  | @complete ds ds' hoffers =>
    rw [itemDecls_of_complete hi, afterItem_of_complete hi] at hl ⊢
    rw [itemDecls_of_complete hi', afterItem_of_complete hi'] at hl' ⊢
    rw [← List.append_nil (Decl.bodiesOfAll _)] at hl hl'
    exact halong.andThenPast h htaken htaken' .refl .refl
      (fun _ ho => absurd ho List.not_mem_nil) (fun _ ho => absurd ho List.not_mem_nil) hl hl'
      fun K hq _ _ => ⟨hoffers, .inl hq⟩
  | @opened s s' body body' hspace =>
    -- the items of the namespace, and its closing brace
    rw [itemDecls_of_opened hi, bodiesOfAll_finish, afterItem_of_opened hi] at hl
    rw [itemDecls_of_opened hi', bodiesOfAll_finish, afterItem_of_opened hi'] at hl'
    rw [itemDecls_of_opened hi, afterItem_of_opened hi, itemDecls_of_opened hi',
      afterItem_of_opened hi']
    have hlt := left_item_lt_of_opened hi
    have hreach := reaches_item p
    have hreach' := reaches_item p'
    rw [hi] at hreach
    rw [hi'] at hreach'
    have hclose : ∀ a : Parser, Reaches (itemsFrom true a).1.2
        ((itemsFrom true a).1.2.expect .closeBrace).2 := fun _ => reaches_expect _ .closeBrace
    obtain ⟨hoffers, hafter⟩ := halong.andThen h
      (fun o (ho : o ∈ ([] : List Nat)) => absurd ho List.not_mem_nil)
      (fun o (ho : o ∈ ([] : List Nat)) => absurd ho List.not_mem_nil)
      (reaches_itemsFrom true q) (reaches_itemsFrom true q') (hl.before (hclose q))
      (hl'.before (hclose q')) fun K hq => hinner K q q' hlt hq
    refine ⟨hspace.finish hoffers _ _, ?_⟩
    exact hafter.inStep h (fun _ ho => (taken_itemsFrom true q ho).of_reaches hreach .refl)
      (fun _ ho => (taken_itemsFrom true q' ho).of_reaches hreach' .refl) (hclose q) (hclose q')
      hl hl' fun s => s.inStep_expect .closeBrace _ _

/-- **Both parses take the same items.** By recursion on the tokens left, with the first item and
those behind it. -/
theorem same_itemsFrom {r : Runs} (H : r.Hole V) (inBody : Bool) {p p' : Parser}
    (h : r.Abreast p p') : H.Same (itemsFrom inBody p).1 (itemsFrom inBody p').1 := by
  intro hl hl'
  have hend : p'.itemsEnd inBody = p.itemsEnd inBody := by
    rw [itemsEnd, itemsEnd, h.atEnd, h.halted, h.isPunct]
  by_cases hp : p.itemsEnd inBody = true
  · rw [itemsFrom_of_itemsEnd hp, itemsFrom_of_itemsEnd (hend.trans hp)]
    exact ⟨.nil, .inl h⟩
  have hlt := left_afterItem_lt (atEnd_of_itemsEnd hp)
  have hp' : ¬ p'.itemsEnd inBody = true := by rwa [hend]
  rw [itemsFrom_eq hp, Decl.bodiesOfAll_append] at hl
  rw [itemsFrom_eq hp', Decl.bodiesOfAll_append] at hl'
  rw [itemsFrom_eq hp, itemsFrom_eq hp']
  dsimp only at hl hl' ⊢
  have htaken : ∀ q : Parser, ∀ o ∈ Decl.bodiesOfAll q.itemDecls, Taken q q.afterItem o :=
    fun q _ => taken_itemDecls q fun a _ _ ho => taken_itemsFrom true a ho
  -- the hole is in the first item or behind it
  obtain ⟨hitem, halong⟩ := along_afterItem H h (fun K _ _ _ hq => same_itemsFrom K true hq)
    (hl.first H.pin ((suffix_of_reaches (reaches_afterItem p)).trans h.suffix)
      (reaches_itemsFrom inBody _) fun _ ho => taken_itemsFrom inBody _ ho)
    (hl'.first H.pin' ((suffix_of_reaches (reaches_afterItem p')).trans h.suffix')
      (reaches_itemsFrom inBody _) fun _ ho => taken_itemsFrom inBody _ ho)
  obtain ⟨hrest, hafter⟩ := halong.andThen h (htaken p) (htaken p') (reaches_itemsFrom inBody _)
    (reaches_itemsFrom inBody _) hl hl' fun K hq => same_itemsFrom K inBody hq
  exact ⟨hitem.append hrest, hafter⟩
termination_by p.left

end Runs

end SignatureLedger
