import Mathlib.Data.List.Forall2
import SignatureLedger.Proofs.Declaration.Twin.Hole

/-!
# Members in step

Two parses abreast take the same members of a class, and of each member what their texts are made
of: the name, the marks, the type, and where it starts and ends. The body of a method can be the one
that differs; then the parses are abreast again behind it.
-/

namespace SignatureLedger

open SignatureLedger.Parser SignatureLedger.Normal

namespace Runs

variable {r : Runs} {V : Views} {p p' : Parser}

/-! ## Parts of members -/

theorem inStep_skipExpr (p p' : Parser) : r.InStep skipExpr p p' := by
  apply InStep.ite
  · intro h
    rw [h.halted]
  · exact .of_halted
  · intro _
    exact inStep_take (fun _ _ h => h.expr r.tails .none) p p'

theorem inStep_skipInitializer (p p' : Parser) : r.InStep skipInitializer p p' := by
  apply InStep.ite
  · intro h
    rw [h.isPunct]
  · intro _
    exact (inStep_bump p p').comp reaches_skipExpr (inStep_skipExpr _ _)
  · intro _
    exact inStep_id p p'

theorem inStep_skipParameters (p p' : Parser) : r.InStep skipParameters p p' := by
  apply InStep.ite
  · intro h
    rw [h.isPunct]
  · intro _
    exact inStep_takeGroup p p'
  · intro _
    exact inStep_expect .openParen p p'

theorem inStep_skipColonType (p p' : Parser) : r.InStep skipColonType p p' := by
  apply InStep.ite
  · intro h
    rw [h.isPunct]
  · intro _
    exact (inStep_bump p p').comp reaches_skipType (inStep_skipType _ _)
  · intro _
    exact inStep_id p p'

theorem inStep_skipHead (p p' : Parser) : r.InStep skipHead p p' :=
  ((inStep_takeAngle p p').comp reaches_skipParameters (inStep_skipParameters _ _)).comp
    reaches_skipColonType (inStep_skipColonType _ _)

/-- The stretch from a token to the last one that is taken. -/
theorem Texts.akinAt_endOffset (ht : r.Texts V) {lo lo' : Nat} (hlo : r.Starts lo lo')
    (h : r.Abreast p p') : V.AkinAt ⟨lo, p.endOffset⟩ ⟨lo', p'.endOffset⟩ := by
  obtain ⟨t, t', hm, rfl, rfl⟩ := hlo
  exact ht.closed hm h.previous

/-- The types behind the colons of two parsers abreast are nearly akin. -/
theorem Texts.typeAnnotation? (ht : r.Texts V) (h : r.Abreast p p')
    (hk : Keeps r.tail (skipColonType p)) (hk' : Keeps r.tail' (skipColonType p')) :
    Option.Rel V.AkinAt p.typeAnnotation?.1 p'.typeAnnotation?.1 := by
  have hafter := inStep_skipColonType p p' h hk hk'
  unfold skipColonType at hk hk' hafter
  unfold Parser.typeAnnotation?
  rw [h.isPunct] at hk' hafter ⊢
  by_cases hc : p.isPunct .colon = true
  · rw [if_pos hc] at hk hk' hafter ⊢
    rw [if_pos hc] at hafter ⊢
    have hbump := inStep_bump p p' h (hk.of_reaches (reaches_skipType _))
      (hk'.of_reaches (reaches_skipType _))
    have hlt := Nat.lt_of_le_of_lt hk.tail (left_skipType_lt hk.quiet)
    exact .some (ht.joined (hbump.peek_inner hlt) hafter.previous)
  · rw [if_neg hc, if_neg hc]
    exact .none

/-! ## Names -/

/-- The names of two members are the same; only the text of a computed one may be laid out in
another way. -/
structure SameName (n n' : MemberName) : Prop where
  kind : n'.kind = n.kind
  isIndex : n'.isIndex = n.isIndex
  akin : Akin n.text n'.text
  first : n'.text.head? = n.text.head?
  exact : n.kind ≠ .computed → n'.text = n.text

theorem SameName.of_text {t t' : Bytes} {k : MemberNameKind} (h : t' = t) :
    SameName ⟨t, k, false⟩ ⟨t', k, false⟩ :=
  ⟨rfl, rfl, h ▸ .refl t, by rw [h], fun _ => h⟩

/-- Two parsers abreast stay so over the name of a member. -/
theorem inStep_nameBy (k : TokenKind) (p p' : Parser) :
    r.InStep (fun q => (nameBy k q).2) p p' := by
  unfold nameBy
  split
  · exact inStep_bump p p'
  · exact inStep_bump p p'
  · exact inStep_bump p p'
  · exact inStep_takeGroup p p'
  · exact inStep_bump p p'
  · exact inStep_bump p p'
  · exact inStep_expect .closeBrace p p'
  · exact .of_loud (not_quiet_of_report ((reaches_recover _ _).trans (reaches_skipPunct _ _)))

theorem memberName?_snd (p : Parser) : p.memberName?.2 = (nameBy p.peek.kind p).2 :=
  congrArg Prod.snd (memberName?_eq p)

theorem inStep_memberName? (p p' : Parser) : r.InStep (fun q => q.memberName?.2) p p' := by
  apply InStep.congr memberName?_snd
  intro h hk hk'
  dsimp only at hk hk' ⊢
  rw [h.kind] at hk' ⊢
  exact inStep_nameBy p.peek.kind p p' h hk hk'

/-- A group that leaves the tail has two tokens at least, its brackets. A group that nothing closes
would take the tail with it. -/
theorem left_of_takeGroup {x : List Token} (hb : p.peek.kind = .punct .openBracket)
    (hk : Keeps x p.takeGroup) :
    (Extent.group p.peek p.ahead.tail).unclosed? = none ∧ 2 + x.length ≤ p.left := by
  have hend : p.atEnd = false := by
    rw [← Bool.not_eq_true, atEnd_iff]
    intro hnil
    rw [Parser.peek, Cursor.peek, show p.cursor.ahead = [] from hnil] at hb
    exact absurd hb (by simp [Token.eofAt])
  obtain ⟨t, ts, hp⟩ := exists_of_not_atEnd hend
  rw [peek_of_ahead hp] at hb
  have hgroup : p.takeGroup = p.take ((Extent.group t ts).shift 1) := by
    rw [takeGroup_eq, hp, Extent.bracketed?, if_pos (by rw [hb]; rfl)]
  rw [hgroup] at hk
  obtain ⟨htake, hends⟩ := keeps_take hk
  rw [htake] at hk
  have hle := hk.tail
  -- the closing bracket is among the tokens that are taken
  have hwidth : 0 < (Extent.group t ts).width ∧ (Extent.group t ts).width ≤ ts.length := by
    have hclosed := hends.closed
    rw [Extent.group] at hclosed ⊢
    cases hg : groupEnd? 0 ts with
    | none =>
      rw [hg] at hclosed
      exact absurd hclosed (by simp [Extent.shift])
    | some n =>
      obtain ⟨u, c, v, rfl, -, rfl, -⟩ := groupEnd?_eq_some hg
      rw [List.length_append, List.length_cons]
      dsimp only
      omega
  have hleft : p.left = ts.length + 1 := congrArg List.length hp
  rw [left_advance, Extent.shift] at hle
  rw [peek_of_ahead hp, hp, List.tail_cons]
  refine ⟨hends.closed, ?_⟩
  dsimp only at hle
  by_cases hx : x = []
  · rw [hx, List.length_nil]
    omega
  · have := List.length_pos_iff.mpr hx
    omega

/-- The name of a member in square brackets: what stands in the brackets, and the brackets. -/
def bracketName (p : Parser) : MemberName :=
  ⟨p.source.slice p.peek.span.lo p.takeGroup.endOffset, .computed,
    p.peekNext.kind == .ident && (p.cursor.peekAt 2).isPunct .colon⟩

/-- A name in square brackets is read if its group is closed. -/
theorem memberName?_of_bracket (hb : p.peek.kind = .punct .openBracket)
    (hclosed : (Extent.group p.peek p.ahead.tail).unclosed? = none) :
    p.memberName? = (some (bracketName p), p.takeGroup) := by
  unfold Parser.memberName?
  simp only [hb, hclosed]
  rfl

theorem snd_memberName?_of_bracket (hb : p.peek.kind = .punct .openBracket) :
    p.memberName?.2 = p.takeGroup := by
  unfold Parser.memberName?
  simp only [hb]
  split <;> rfl

/-- The names in brackets that two parsers abreast read are the same. -/
theorem Texts.sameName_bracketName (ht : r.Texts V) (h : r.Abreast p p')
    (hlen : 2 + r.tail.length ≤ p.left) (hstep : r.Abreast p.takeGroup p'.takeGroup) :
    SameName (bracketName p) (bracketName p') := by
  have hnext := (h.peekAt (n := 1) (by omega)).same.congr (·.kind) fun _ _ => rfl
  have hthird := (h.peekAt (n := 2) hlen).same.congr (·.isPunct .colon) fun _ _ => rfl
  refine ⟨rfl, ?_, ?_, ?_, fun hne => absurd rfl hne⟩
  · dsimp only [bracketName] at hnext hthird ⊢
    rw [peekNext, peekNext, hnext, hthird]
  · dsimp only [bracketName]
    rw [h.source, h.source', ht.source, ht.source']
    exact ht.closed h.peek hstep.previous
  · dsimp only [bracketName]
    rw [h.source, h.source', ht.source, ht.source']
    exact ht.first h.peek hstep.previous

/-- Both parses read the same name of a member. A name in brackets is compared as a text; any other
name is one token. -/
theorem Texts.memberName? (ht : r.Texts V) (h : r.Abreast p p')
    (hk : Keeps r.tail p.memberName?.2) (hk' : Keeps r.tail' p'.memberName?.2) :
    ∃ n n', p.memberName?.1 = some n ∧ p'.memberName?.1 = some n' ∧ SameName n n' := by
  have hkind := h.kind
  have hlexeme := h.lexeme
  by_cases hb : p.peek.kind = .punct .openBracket
  · have hb' := hkind.trans hb
    rw [snd_memberName?_of_bracket hb] at hk
    rw [snd_memberName?_of_bracket hb'] at hk'
    obtain ⟨hclosed, hlen⟩ := left_of_takeGroup hb hk
    obtain ⟨hclosed', -⟩ := left_of_takeGroup hb' hk'
    rw [memberName?_of_bracket hb hclosed, memberName?_of_bracket hb' hclosed']
    exact ⟨_, _, rfl, rfl, ht.sameName_bracketName h hlen (inStep_takeGroup p p' h hk hk')⟩
  unfold Parser.memberName? at hk ⊢
  dsimp only at hk ⊢
  rw [hkind, hlexeme]
  cases hp : p.peek.kind with
  | punct j =>
    rw [hp] at hk hb
    cases j with
    | openBracket => exact absurd rfl hb
    | _ => exact absurd hk.quiet (not_quiet_of_report
        ((reaches_recover _ _).trans (reaches_skipPunct _ _)))
  | ident => exact ⟨_, _, rfl, rfl, .of_text rfl⟩
  | keyword k => exact ⟨_, _, rfl, rfl, .of_text rfl⟩
  | stringLit => exact ⟨_, _, rfl, rfl, .of_text rfl⟩
  | numberLit => exact ⟨_, _, rfl, rfl, .of_text rfl⟩
  | privateName => exact ⟨_, _, rfl, rfl, .of_text rfl⟩
  | eof =>
    -- no closing brace stands at the end
    rw [hp] at hk
    have := (expect_of_quiet hk.quiet).1
    simp [Parser.isPunct, Token.isPunct, hp] at this
  | _ =>
    rw [hp] at hk
    exact absurd hk.quiet (not_quiet_of_report
      ((reaches_recover _ _).trans (reaches_skipPunct _ _)))

/-! ## Bodies -/

/-- Whether the body that comes next is the one that differs is the same in both parses, and behind
it they are abreast again. -/
theorem Hole.body (H : r.Hole V) (h : r.Abreast p p')
    (hl : Lives r.tail H.hole p.body?.1.toList (skipBody p))
    (hl' : Lives r.tail' H.hole' p'.body?.1.toList (skipBody p')) :
    Along H (skipBody p) (skipBody p') := by
  unfold Parser.body? at hl hl'
  unfold skipBody at hl hl' ⊢
  rw [h.isPunct] at hl' ⊢
  have hleft := h.left
  by_cases hb : p.isPunct .openBrace = true
  · rw [if_pos hb] at hl hl' ⊢
    rw [if_pos hb] at hl hl' ⊢
    by_cases hat : r.tail ≠ [] ∧ p.left = r.tail.length
    · have hlt := left_takeGroup_lt_of_openBrace hb
      have hlt' := left_takeGroup_lt_of_openBrace (p := p') (by rw [h.isPunct, hb])
      exact .inr ⟨by omega, by omega, H.enters hat.1 p p' h hat.2⟩
    · -- before the hole the body is taken as any group
      have hnil := r.tails.nil_iff
      have hk := hl.keeps_of_brace H.pin h.suffix hb fun hx heq => hat ⟨hx, heq⟩
      have hk' := hl'.keeps_of_brace H.pin' h.suffix' (by rw [h.isPunct]; exact hb)
        fun hx heq => hat ⟨fun hx' => hx (hnil.mp hx'), by omega⟩
      exact .inl (inStep_takeGroup p p' h hk hk')
  · rw [if_neg hb] at hl hl' ⊢
    rw [if_neg hb] at hl hl' ⊢
    exact .inl (inStep_finishItem p p' h hl.of_nil hl'.of_nil)

/-- The text of a function or method: up to its body, if it has one. -/
theorem Texts.body? (ht : r.Texts V) {lo lo' : Nat} (hlo : r.Starts lo lo') (h : r.Abreast p p') :
    NearlyAkin (V.source.slice lo (p.body?.1.getD p.body?.2.endOffset))
      (V.source'.slice lo' (p'.body?.1.getD p'.body?.2.endOffset)) := by
  obtain ⟨t, t', hm, rfl, rfl⟩ := hlo
  unfold Parser.body?
  rw [h.isPunct]
  by_cases hb : p.isPunct .openBrace = true
  · rw [if_pos hb, if_pos hb]
    exact ht.opened hm h.peek (by simpa [Parser.isPunct, Token.isPunct] using hb)
  · rw [if_neg hb, if_neg hb]
    exact (ht.closed hm h.previous).nearly

/-! ## What follows a name -/

/-- As far as they are known, the members are made of the same parts. -/
structure SameParts (m m' : Member) : Prop where
  kind : m'.kind = m.kind
  modifiers : m'.modifiers = m.modifiers
  nameKind : m'.nameKind = m.nameKind
  first : m'.name.head? = m.name.head?
  name : Akin m.name m'.name
  isOptional : m'.isOptional = m.isOptional

section Rest

variable {lo lo' : Nat} {accessor : Option MemberKind} {modifiers : MemberModifiers}
  {n n' : MemberName} {m m' : Member}

/-- Two parsers abreast start the same member. -/
theorem sameParts_memberHead (hn : SameName n n') (h : r.Abreast p p') :
    SameParts (memberHead lo accessor modifiers n p) (memberHead lo' accessor modifiers n' p') :=
  ⟨rfl, rfl, hn.kind, hn.first, hn.akin, h.isPunct .question⟩

theorem methodKind_eq (hn : SameName n n') : methodKind accessor n' = methodKind accessor n := by
  unfold methodKind
  cases accessor with
  | some k => rfl
  | none =>
    dsimp only
    rw [hn.kind]
    by_cases hk : n.kind = .ident
    · rw [hn.exact (by rw [hk]; decide)]
    · simp only [hk, false_and]

/-- A method: its signature, and then a body, which can be the one that differs. -/
theorem along_methodRest (H : r.Hole V) (h : r.Abreast p p') (hlo : r.Starts lo lo')
    (hm : SameParts m m')
    (hl : Lives r.tail H.hole (p.methodRest lo m).1.body?.toList (p.methodRest lo m).2)
    (hl' : Lives r.tail' H.hole' (p'.methodRest lo' m').1.body?.toList (p'.methodRest lo' m').2) :
    V.SameMember (p.methodRest lo m).1 (p'.methodRest lo' m').1 ∧
      Along H (p.methodRest lo m).2 (p'.methodRest lo' m').2 := by
  rw [methodRest_fst, methodRest_snd_eq] at hl hl' ⊢
  rw [methodRest_fst, methodRest_snd_eq]
  dsimp only at hl hl' ⊢
  have hw := (suffix_of_reaches (reaches_skipHead p)).trans h.suffix
  have hw' := (suffix_of_reaches (reaches_skipHead p')).trans h.suffix'
  have hk := hl.keeps H.pin hw (reaches_skipBody _) fun _ ho =>
    taken_skipBody (Option.mem_toList.mp ho)
  have hk' := hl'.keeps H.pin' hw' (reaches_skipBody _) fun _ ho =>
    taken_skipBody (Option.mem_toList.mp ho)
  have hhead := inStep_skipHead p p' h hk hk'
  have hparams : r.Abreast (skipParameters p.takeAngle) (skipParameters p'.takeAngle) :=
    ((inStep_takeAngle p p').comp reaches_skipParameters (inStep_skipParameters _ _)) h
      (hk.of_reaches (reaches_skipColonType _)) (hk'.of_reaches (reaches_skipColonType _))
  refine ⟨?_, H.body hhead hl hl'⟩
  exact .of_parts hm.kind hm.modifiers hm.nameKind hm.first hm.name hm.isOptional
    (H.texts.typeAnnotation? hparams hk hk') (H.texts.body? hlo hhead)

/-- A property: its type and its value. There is no hole in it, as it has no body. -/
theorem along_propertyRest (H : r.Hole V) (h : r.Abreast p p') (hlo : r.Starts lo lo')
    (hm : SameParts m m') (hbody : m.body? = none) (hbody' : m'.body? = none)
    (hl : Lives r.tail H.hole (p.propertyRest lo m).1.body?.toList (p.propertyRest lo m).2)
    (hl' : Lives r.tail' H.hole' (p'.propertyRest lo' m').1.body?.toList
      (p'.propertyRest lo' m').2) :
    V.SameMember (p.propertyRest lo m).1 (p'.propertyRest lo' m').1 ∧
      Along H (p.propertyRest lo m).2 (p'.propertyRest lo' m').2 := by
  have hk : Keeps r.tail (p.propertyRest lo m).2 := by
    have : (p.propertyRest lo m).1.body? = none := hbody
    rw [this] at hl
    exact hl.of_nil
  have hk' : Keeps r.tail' (p'.propertyRest lo' m').2 := by
    have : (p'.propertyRest lo' m').1.body? = none := hbody'
    rw [this] at hl'
    exact hl'.of_nil
  rw [propertyRest_snd] at hk hk'
  rw [propertyRest_snd, propertyRest_snd]
  have hvalue := hk.of_reaches (reaches_finishItem _)
  have hvalue' := hk'.of_reaches (reaches_finishItem _)
  have htype := hvalue.of_reaches (reaches_skipInitializer _)
  have htype' := hvalue'.of_reaches (reaches_skipInitializer _)
  have hafter := inStep_skipInitializer _ _ (inStep_skipColonType p p' h htype htype')
    hvalue hvalue'
  refine ⟨?_, .inl (inStep_finishItem _ _ hafter hk hk')⟩
  unfold propertyRest
  dsimp only
  rw [typeAnnotation?_snd, typeAnnotation?_snd]
  refine .of_parts hm.kind hm.modifiers hm.nameKind hm.first hm.name hm.isOptional
    (H.texts.typeAnnotation? h htype htype') ?_
  dsimp only
  rw [hbody, hbody']
  exact (H.texts.akinAt_endOffset hlo hafter).nearly

theorem inStep_skipMark (p p' : Parser) : r.InStep skipMark p p' := by
  apply InStep.ite
  · intro h
    rw [h.isPunct, h.isPunct]
  · intro _
    exact inStep_bump p p'
  · intro _
    exact inStep_id p p'

/-- Behind the name of a member. A round bracket or a less sign makes it a method, in both parses
alike; without one it is a property. -/
theorem along_memberRest (H : r.Hole V) (h : r.Abreast p p') (hlo : r.Starts lo lo')
    (hn : SameName n n')
    (hl : Lives r.tail H.hole (memberRest lo accessor modifiers n p).1.body?.toList
      (memberRest lo accessor modifiers n p).2)
    (hl' : Lives r.tail' H.hole' (memberRest lo' accessor modifiers n' p').1.body?.toList
      (memberRest lo' accessor modifiers n' p').2) :
    V.SameMember (memberRest lo accessor modifiers n p).1 (memberRest lo' accessor modifiers n' p').1
      ∧ Along H (memberRest lo accessor modifiers n p).2
        (memberRest lo' accessor modifiers n' p').2 := by
  have hw := (suffix_of_reaches (reaches_skipMark p)).trans h.suffix
  have hw' := (suffix_of_reaches (reaches_skipMark p')).trans h.suffix'
  have hk := hl.keeps H.pin hw (reaches_memberRest p) fun _ ho =>
    taken_memberRest (Option.mem_toList.mp ho)
  have hk' := hl'.keeps H.pin' hw' (reaches_memberRest p') fun _ ho =>
    taken_memberRest (Option.mem_toList.mp ho)
  have hmark := inStep_skipMark p p' h hk hk'
  have hparts : SameParts (memberHead lo accessor modifiers n p)
      (memberHead lo' accessor modifiers n' p') := sameParts_memberHead hn h
  unfold memberRest at hl hl' ⊢
  dsimp only at hl hl' ⊢
  rw [hn.isIndex, hmark.isPunct, hmark.isPunct] at hl' ⊢
  by_cases hmethod :
      (!n.isIndex && ((skipMark p).isPunct .openParen || (skipMark p).isPunct .less)) = true
  · rw [if_pos hmethod] at hl hl' ⊢
    rw [if_pos hmethod]
    exact along_methodRest H hmark hlo { hparts with kind := methodKind_eq hn } hl hl'
  · rw [if_neg hmethod] at hl hl' ⊢
    rw [if_neg hmethod]
    exact along_propertyRest H hmark hlo { hparts with kind := rfl } rfl rfl hl hl'

/-! ## Members -/

/-- From the name on. Both parses find a name there, the same one, and go on behind it. -/
theorem along_memberFrom (H : r.Hole V) (h : r.Abreast p p') (hlo : r.Starts lo lo')
    (hl : Lives r.tail H.hole (memberBodies (memberFrom lo accessor modifiers p).1.toList)
      (memberFrom lo accessor modifiers p).2)
    (hl' : Lives r.tail' H.hole' (memberBodies (memberFrom lo' accessor modifiers p').1.toList)
      (memberFrom lo' accessor modifiers p').2) :
    List.Forall₂ V.SameMember (memberFrom lo accessor modifiers p).1.toList
        (memberFrom lo' accessor modifiers p').1.toList ∧
      Along H (memberFrom lo accessor modifiers p).2 (memberFrom lo' accessor modifiers p').2 := by
  have hk := hl.keeps H.pin ((suffix_of_reaches (reaches_memberName? p)).trans h.suffix)
    (reaches_memberFrom p) fun _ ho => taken_memberFrom ho
  have hk' := hl'.keeps H.pin' ((suffix_of_reaches (reaches_memberName? p')).trans h.suffix')
    (reaches_memberFrom p') fun _ ho => taken_memberFrom ho
  have hname : r.Abreast p.memberName?.2 p'.memberName?.2 := inStep_memberName? p p' h hk hk'
  obtain ⟨n, n', hn, hn', hsame⟩ := H.texts.memberName? h hk hk'
  unfold memberFrom at hl hl' ⊢
  cases hp : p.memberName? with
  | mk a q =>
  cases hp' : p'.memberName? with
  | mk a' q' =>
  rw [hp] at hn hname hl
  rw [hp'] at hn' hname hl'
  obtain rfl : a = some n := hn
  obtain rfl : a' = some n' := hn'
  have hbodies : ∀ m : Member, memberBodies [m] = m.body?.toList := fun m => by
    rw [memberBodies, List.filterMap_cons]
    cases m.body? <;> rfl
  dsimp only [Option.toList_some] at hl hl' ⊢
  rw [hbodies] at hl hl'
  obtain ⟨hmember, halong⟩ := along_memberRest H hname hlo hsame hl hl'
  exact ⟨.cons hmember .nil, halong⟩

/-- Two parsers abreast see the same accessor. -/
theorem accessor?_eq (h : r.Abreast p p') : p'.accessor? = p.accessor? := by
  unfold accessor?
  rw [h.isWord, h.isWord]
  -- the token behind the word matters only if the word is there
  by_cases hword : (p.isWord "get" || p.isWord "set") = true
  · have hend : p.atEnd = false := by
      rcases Bool.or_eq_true .. ▸ hword with hw | hw <;> exact atEnd_of_isWord hw
    have hkind : p.peek.kind = .ident := by
      rcases Bool.or_eq_true .. ▸ hword with hw | hw <;> exact Token.kind_of_isWord hw
    have hbrace : p.isPunct .openBrace = false := by
      simp [Parser.isPunct, Token.isPunct, hkind]
    have hnext := (h.peekAt (n := 1) (h.left_of_peek hbrace hend)).same
    rw [show p'.peekNext.startsMemberName = p.peekNext.startsMemberName from
        hnext.congr Token.startsMemberName fun _ _ => rfl,
      show p'.peekNext.isPunct .star = p.peekNext.isPunct .star from
        hnext.congr (·.isPunct .star) fun _ _ => rfl]
  · rw [Bool.not_eq_true, Bool.or_eq_false_iff] at hword
    rw [hword.1, hword.2]
    simp

theorem inStep_skipAccessor (p p' : Parser) : r.InStep skipAccessor p p' := by
  apply InStep.ite
  · intro h
    rw [accessor?_eq h]
  · intro _
    exact inStep_bump p p'
  · intro _
    exact inStep_id p p'

/-- Behind the decorators. The modifiers are the same in both. A static block is passed as a group,
and any other member is read from its name on. -/
theorem along_memberAfter (H : r.Hole V) (h : r.Abreast p p')
    (hl : Lives r.tail H.hole (memberBodies (memberAfter p).1.toList) (memberAfter p).2)
    (hl' : Lives r.tail' H.hole' (memberBodies (memberAfter p').1.toList) (memberAfter p').2) :
    List.Forall₂ V.SameMember (memberAfter p).1.toList (memberAfter p').1.toList ∧
      Along H (memberAfter p).2 (memberAfter p').2 := by
  have hlo := h.starts
  unfold memberAfter memberBehind at hl hl' ⊢
  rw [h.twins.memberModifiers r.tails] at hl' ⊢
  generalize ModifierRun.read {} p.ahead = run at hl hl' ⊢
  by_cases hblock : run.block = true
  · -- a block in the class
    rw [if_pos hblock] at hl hl' ⊢
    rw [if_pos hblock]
    have hk : Keeps r.tail (p.advance run.width).bump.takeGroup := hl.of_nil
    have hk' : Keeps r.tail' (p'.advance run.width).bump.takeGroup := hl'.of_nil
    have hrun := h.advance (hk.of_reaches ((reaches_bump _).trans (reaches_takeGroup _)))
    have hafter : r.Abreast (p.advance run.width).bump.takeGroup
        (p'.advance run.width).bump.takeGroup :=
      ((inStep_bump _ _).comp reaches_takeGroup (inStep_takeGroup _ _)) hrun hk hk'
    refine ⟨.cons ⟨rfl, fun hpublic => absurd hpublic ?_⟩ .nil, .inl hafter⟩
    simp [Member.isPublic, staticBlock]
  · -- a word such as `get` and the sign of a generator, and then a name
    rw [if_neg hblock] at hl hl' ⊢
    rw [if_neg hblock]
    have hreach : ∀ q : Parser, Reaches (q.advance run.width)
        ((skipAccessor (q.advance run.width)).skipPunct .star) := fun q =>
      (reaches_skipAccessor _).trans (reaches_skipPunct _ .star)
    have hw := (suffix_of_reaches ((reaches_advance p run.width).trans (hreach p))).trans h.suffix
    have hw' := (suffix_of_reaches ((reaches_advance p' run.width).trans (hreach p'))).trans
      h.suffix'
    have hk := hl.keeps H.pin hw ((reaches_memberName? _).trans (reaches_memberFrom _))
      fun _ ho => (taken_memberFrom ho).of_reaches (reaches_memberName? _) .refl
    have hk' := hl'.keeps H.pin' hw' ((reaches_memberName? _).trans (reaches_memberFrom _))
      fun _ ho => (taken_memberFrom ho).of_reaches (reaches_memberName? _) .refl
    have hrun := h.advance (hk.of_reaches (hreach p))
    have hstart : r.Abreast ((skipAccessor (p.advance run.width)).skipPunct .star)
        ((skipAccessor (p'.advance run.width)).skipPunct .star) :=
      ((inStep_skipAccessor _ _).comp (reaches_skipPunct · .star)
        (inStep_skipPunct .star _ _)) hrun hk hk'
    rw [accessor?_eq hrun] at hl' ⊢
    exact along_memberFrom H hstart hlo hl hl'

/-- One member, with its decorators. -/
theorem along_member? (H : r.Hole V) (h : r.Abreast p p')
    (hl : Lives r.tail H.hole (memberBodies p.member?.1.toList) p.member?.2)
    (hl' : Lives r.tail' H.hole' (memberBodies p'.member?.1.toList) p'.member?.2) :
    List.Forall₂ V.SameMember p.member?.1.toList p'.member?.1.toList ∧
      Along H p.member?.2 p'.member?.2 := by
  rw [member?_eq] at hl hl' ⊢
  rw [member?_eq]
  have hw := (suffix_of_reaches (reaches_skipDecorators p)).trans h.suffix
  have hw' := (suffix_of_reaches (reaches_skipDecorators p')).trans h.suffix'
  have hk := hl.keeps H.pin hw (reaches_memberAfter _) fun _ ho => taken_memberAfter ho
  have hk' := hl'.keeps H.pin' hw' (reaches_memberAfter _) fun _ ho => taken_memberAfter ho
  exact along_memberAfter H (inStep_skipDecorators p p' h hk hk') hl hl'

end Rest

/-! ## Class bodies -/

/-- Two parsers abreast see the end of a body, or neither does. -/
theorem bodyEnds_eq (h : r.Abreast p p') : p'.bodyEnds = p.bodyEnds := by
  rw [bodyEnds, bodyEnds, h.isPunct, h.atEnd, h.halted]

/-- **Both parses take the same members.** By recursion on the tokens left: a semicolon is passed,
and a member is compared before the ones behind it. -/
theorem along_membersFrom {r : Runs} (H : r.Hole V) {p p' : Parser} (h : r.Abreast p p')
    (hl : Lives r.tail H.hole (memberBodies (membersFrom p).1) (membersFrom p).2)
    (hl' : Lives r.tail' H.hole' (memberBodies (membersFrom p').1) (membersFrom p').2) :
    List.Forall₂ V.SameMember (membersFrom p).1 (membersFrom p').1 ∧
      Along H (membersFrom p).2 (membersFrom p').2 := by
  rw [membersFrom_eq] at hl hl' ⊢
  rw [membersFrom_eq p']
  rw [bodyEnds_eq h, h.isPunct] at hl' ⊢
  by_cases hend : p.bodyEnds = true
  · rw [if_pos hend, if_pos hend]
    exact ⟨.nil, .inl h⟩
  rw [if_neg hend] at hl hl' ⊢
  rw [if_neg hend]
  by_cases hsemi : p.isPunct .semicolon = true
  · rw [if_pos hsemi] at hl hl' ⊢
    rw [if_pos hsemi]
    have hlt := left_bump_lt_of_isPunct hsemi
    have hk := hl.keeps H.pin ((suffix_of_reaches (reaches_bump p)).trans h.suffix)
      (reaches_skipMembers _) fun _ ho => taken_membersFrom _ ho
    have hk' := hl'.keeps H.pin' ((suffix_of_reaches (reaches_bump p')).trans h.suffix')
      (reaches_skipMembers _) fun _ ho => taken_membersFrom _ ho
    exact along_membersFrom H (inStep_bump p p' h hk hk') hl hl'
  · -- one member, in which the hole can be, and the members behind it
    rw [if_neg hsemi] at hl hl' ⊢
    rw [if_neg hsemi]
    dsimp only at hl hl' ⊢
    rw [memberBodies_append] at hl hl'
    have hpast : ∀ q : Parser, Reaches q.member?.2 (pastItem q q.member?.2) :=
      fun q => reaches_pastItem q _
    have htaken : ∀ q : Parser, ∀ o ∈ memberBodies q.member?.1.toList, Taken q q.member?.2 o :=
      fun q o ho => (taken_memberAfter ho).of_reaches (reaches_skipDecorators q) .refl
    have hlt : (pastItem p p.member?.2).left < p.left := by
      simp only [bodyEnds, Bool.or_eq_true, not_or, Bool.not_eq_true] at hend
      exact left_pastItem_lt (left_member?_le p) hend.1.2
    obtain ⟨hmember, halong⟩ := along_member? H h
      (hl.first H.pin ((suffix_of_reaches (reaches_member? p)).trans h.suffix)
        ((hpast p).trans (reaches_skipMembers _))
        fun _ ho => (taken_membersFrom _ ho).of_reaches (hpast p) .refl)
      (hl'.first H.pin' ((suffix_of_reaches (reaches_member? p')).trans h.suffix')
        ((hpast p').trans (reaches_skipMembers _))
        fun _ ho => (taken_membersFrom _ ho).of_reaches (hpast p') .refl)
    obtain ⟨hrest, hafter⟩ := halong.andThenPast h (htaken p) (htaken p')
      (reaches_skipMembers _) (reaches_skipMembers _) (fun _ ho => taken_membersFrom _ ho)
      (fun _ ho => taken_membersFrom _ ho) hl hl'
      fun K hq hlives hlives' => along_membersFrom K hq hlives hlives'
    exact ⟨List.rel_append hmember hrest, hafter⟩
termination_by p.left

/-- The members of two class bodies go along with each other. -/
theorem along_classBody (H : r.Hole V) (h : r.Abreast p p')
    (hl : Lives r.tail H.hole (memberBodies p.classBody.1) p.classBody.2)
    (hl' : Lives r.tail' H.hole' (memberBodies p'.classBody.1) p'.classBody.2) :
    List.Forall₂ V.SameMember p.classBody.1 p'.classBody.1 ∧
      Along H p.classBody.2 p'.classBody.2 := by
  have hclose : ∀ q : Parser, Reaches (membersFrom q.bump).2 q.classBody.2 :=
    fun q => reaches_expect _ .closeBrace
  have hmembers : ∀ q : Parser, ∀ o ∈ memberBodies q.classBody.1,
      Taken q.bump (membersFrom q.bump).2 o := fun q _ ho => taken_membersFrom q.bump ho
  have hw := (suffix_of_reaches (reaches_bump p)).trans h.suffix
  have hw' := (suffix_of_reaches (reaches_bump p')).trans h.suffix'
  have hk := hl.keeps H.pin hw ((reaches_skipMembers _).trans (hclose p))
    fun o ho => (hmembers p o ho).of_reaches .refl (hclose p)
  have hk' := hl'.keeps H.pin' hw' ((reaches_skipMembers _).trans (hclose p'))
    fun o ho => (hmembers p' o ho).of_reaches .refl (hclose p')
  have hbump := inStep_bump p p' h hk hk'
  obtain ⟨hsame, halong⟩ := along_membersFrom H hbump
    (hl.before (hclose p)) (hl'.before (hclose p'))
  exact ⟨hsame, halong.inStep hbump (hmembers p) (hmembers p') (hclose p) (hclose p') hl hl'
    fun s => s.inStep_expect .closeBrace _ _⟩

end Runs

end SignatureLedger
