import SignatureLedger.Proofs.Declaration.Reaches
import SignatureLedger.Proofs.Declaration.TypeGrammar

/-!
# The parts of a type are taken exactly

The parser takes each part of a primary type up to where it ends in the grammar: the operators in
front, the path with its type arguments, and the array brackets behind. What comes behind a part
matters by its kind alone (`headKind`). A closed primary type is taken as a whole
(`skipPrimary_of_closed`), and in an open one the parser comes to the type that ends it
(`skipPrimary_of_openHead`).
-/

namespace SignatureLedger

/-! ## What comes next -/

/-- The kind of the first token; behind the last one stands the end. -/
def headKind : List Token → TokenKind
  | [] => .eof
  | t :: _ => t.kind

@[simp] theorem headKind_cons (t : Token) (ts : List Token) : headKind (t :: ts) = t.kind := rfl

/-- What may stand behind a type: `;`, `,`, a closing bracket, `=`, an opening brace or the end. -/
def typeEnds : List TokenKind :=
  [.eof, .punct .semicolon, .punct .comma, .punct .closeParen, .punct .closeBracket,
    .punct .closeBrace, .punct .assign, .punct .openBrace]

/-- What may stand behind a type in another one. -/
def branchEnds : List TokenKind := .punct .question :: .punct .colon :: typeEnds

/-- What may stand behind a primary type. -/
def primaryEnds : List TokenKind := .keyword .extendsKw :: .punct .bar :: .punct .amp :: branchEnds

/-- What may stand behind a type without its array brackets; the word `is` is an identifier. -/
def baseEnds : List TokenKind := .ident :: .punct .openBracket :: primaryEnds

namespace Parser

variable {p : Parser} {r : List Token}

/-- The kind of the token ahead. -/
theorem kind_peek (p : Parser) : p.peek.kind = headKind p.ahead := by
  unfold peek Cursor.peek ahead
  cases p.cursor.ahead <;> rfl

/-- Which sign stands ahead, by the kind of the first token. -/
theorem isPunct_iff {k : Punct} : p.isPunct k = true ↔ headKind p.ahead = .punct k := by
  rw [isPunct, Token.isPunct, kind_peek, beq_iff_eq]

/-- Which keyword stands ahead, by the kind of the first token. -/
theorem isKeyword_iff {k : Keyword} : p.isKeyword k = true ↔ headKind p.ahead = .keyword k := by
  rw [isKeyword, Token.isKeyword, kind_peek, beq_iff_eq]

/-- A word ahead is an identifier. -/
theorem headKind_of_isWord {w : String} (h : p.isWord w = true) : headKind p.ahead = .ident :=
  (kind_peek p).symm.trans (Token.kind_of_isWord h)

end Parser

/-- A kind other than the end marker's is that of a first token. -/
theorem exists_of_headKind {r : List Token} {k : TokenKind} (h : headKind r = k) (hk : k ≠ .eof) :
    ∃ t ts, r = t :: ts ∧ t.kind = k := by
  cases r with
  | nil => exact absurd h.symm hk
  | cons t ts => exact ⟨t, ts, rfl, h⟩

/-! ## Groups -/

/-- An enclosed stretch starts with its opening bracket. -/
theorem Enclosed.headKind_append {opening closing : Punct} {bs : List Token}
    (h : Enclosed opening closing bs) (r : List Token) : headKind (bs ++ r) = .punct opening := by
  cases h with
  | mk ho _ _ => exact ho

/-- Angles start with the opening one. -/
theorem AngleGroup.headKind_append {bs : List Token} (h : AngleGroup bs) (r : List Token) :
    headKind (bs ++ r) = .punct .less := by
  cases h with
  | mk hl _ _ => exact hl

/-- The search for the end of a list in angle brackets passes over a stretch that is closed. -/
theorem angle_append {G : List Token} (hG : Angled G) (start : Token) {depth : Nat}
    (hd : 1 ≤ depth) (r : List Token) :
    Extent.angle start depth (G ++ r) = (Extent.angle start depth r).shift G.length := by
  induction hG generalizing depth r with
  | nil => simp [Extent.shift]
  | @plain t ts ht hkind hts ih =>
    obtain ⟨hopen, hclose, -⟩ := ht
    simp only [List.mem_cons, List.not_mem_nil, or_false, not_or] at hkind
    rw [List.cons_append, Extent.angle, if_neg (by simp [Token.isPunct, hkind]),
      if_neg (by simp [Token.isPunct, hkind]), if_neg (by simp [Token.isPunct, hkind]),
      if_neg (by simp [hopen]), if_neg (by simp [Token.isPunct, hkind, hclose]), ih hd]
    simp only [Extent.shift, List.length_cons, Extent.mk.injEq, and_true]
    omega
  | @group o c inner ts ho hc hinner hts ih =>
    have hpunct : ∀ k : Punct, k.isOpener = false → o.isPunct k = false :=
      fun _ => Token.isPunct_of_isOpener ho
    have hdrop : (inner ++ c :: (ts ++ r)).drop (inner.length + 1) = ts ++ r :=
      List.drop_length_add_append 1
    rw [List.cons_append, List.append_assoc, List.cons_append, Extent.angle,
      if_neg (by simp [hpunct .less rfl]), if_neg (by simp [hpunct .lessLess rfl]),
      if_neg (by simp [hpunct .greater rfl]), if_pos ho, groupEnd?_of_nested hinner hc]
    dsimp only
    rw [hdrop, ih hd]
    simp only [Extent.shift, List.length_cons, List.length_append, Extent.mk.injEq, and_true]
    omega
  | @angle l g inner ts hl hg hinner hts ihInner ih =>
    -- the inside is read one level further in, and its greater sign leads back
    have hback : Extent.angle start (depth + 1) (g :: (ts ++ r)) =
        (Extent.angle start depth (ts ++ r)).shift 1 := by
      rw [Extent.angle, if_neg (by simp [Token.isPunct, hg]), if_neg (by simp [Token.isPunct, hg]),
        if_pos (by simp [Token.isPunct, hg]), if_neg (by omega), Nat.add_sub_cancel]
    rw [List.cons_append, List.append_assoc, List.cons_append, Extent.angle,
      if_pos (by simp [Token.isPunct, hl]), ihInner (by omega), hback, ih hd]
    simp only [Extent.shift, List.length_cons, List.length_append, Extent.mk.injEq, and_true]
    omega

/-- A list in angle brackets ends with its last greater sign. -/
theorem angle?_of_group {gs : List Token} (hg : AngleGroup gs) (r : List Token) :
    Extent.angle? (gs ++ r) = ⟨gs.length, none⟩ := by
  obtain ⟨hl, hgreater, hinner⟩ := hg
  rename_i l g inner
  have hend : Extent.angle l 1 (g :: r) = ⟨1, none⟩ := by
    rw [Extent.angle, if_neg (by simp [Token.isPunct, hgreater]),
      if_neg (by simp [Token.isPunct, hgreater]), if_pos (by simp [Token.isPunct, hgreater]),
      if_pos (Nat.le_refl 1)]
  rw [List.cons_append, List.append_assoc, List.singleton_append, Extent.angle?,
    if_pos (by simp [Token.isPunct, hl]), angle_append hinner l (Nat.le_refl 1), hend]
  simp only [Extent.shift, List.length_cons, List.length_append, List.length_nil, Extent.mk.injEq,
    and_true]
  omega

/-- Array brackets are taken up to the last one. -/
theorem arraySuffix_append {ms : List Token} (hm : ArrayMarks ms) {r : List Token}
    (hr : headKind r ≠ .punct .openBracket) :
    Extent.arraySuffix (ms ++ r) = ⟨ms.length, none⟩ := by
  induction hm with
  | nil =>
    cases r with
    | nil => rw [List.nil_append, Extent.arraySuffix]; rfl
    | cons t r =>
      have ht : t.isPunct .openBracket = false := by simpa [Token.isPunct] using hr
      rw [List.nil_append, Extent.arraySuffix, ht]
      rfl
  | @cons o c inner ts ho hline hc hinner hts ih =>
    have hclose : c.kind.isCloser = true := by rw [hc]; rfl
    have hdrop : (inner ++ c :: (ts ++ r)).drop (inner.length + 1) = ts ++ r :=
      List.drop_length_add_append 1
    rw [List.cons_append, List.append_assoc, List.cons_append, Extent.arraySuffix,
      if_pos (by simp [Token.isPunct, ho, hline]), groupEnd?_of_nested hinner hclose]
    dsimp only
    rw [hdrop, ih]
    simp only [Extent.shift, List.length_cons, List.length_append, Extent.mk.injEq, and_true]
    omega

namespace Parser

variable {p : Parser} {r ts : List Token}

/-- Angles are taken to behind the closing one. -/
theorem takeAngle_of_group (hg : AngleGroup ts) (h : p.ahead = ts ++ r) :
    p.takeAngle = p.advance ts.length := by
  rw [takeAngle, h, angle?_of_group hg, take_of_closed]

/-- Where no angle opens, none are taken. -/
theorem takeAngle_of_headKind (h : headKind p.ahead ≠ .punct .less) : p.takeAngle = p := by
  cases hp : p.ahead with
  | nil => rw [takeAngle, hp]; rfl
  | cons t r =>
    rw [hp] at h
    exact takeAngle_of_not hp (by simpa [Token.isPunct] using h)

/-- Parentheses are taken to behind the closing one. -/
theorem takeParens_of_group (hb : Enclosed .openParen .closeParen ts) (h : p.ahead = ts ++ r) :
    p.takeParens = p.advance ts.length := by
  have hgroup := takeGroup_of_enclosed rfl rfl hb h
  cases hb with
  | mk ho hc hinner =>
    rw [takeParens, h, List.cons_append, Extent.parens?, if_pos (by simp [Token.isPunct, ho]),
      ← hgroup, takeGroup, h, List.cons_append]
    dsimp only
    rw [if_pos (by rw [ho]; rfl)]

/-- Array suffixes are taken to the last of them. -/
theorem takeArrays_of_marks (hm : ArrayMarks ts) (h : p.ahead = ts ++ r)
    (hr : headKind r ≠ .punct .openBracket) : p.takeArrays = p.advance ts.length := by
  rw [takeArrays, h, arraySuffix_append hm hr, take_of_closed]

/-- Where no dot stands, a path goes no further. -/
theorem pathWidth_of_headKind (hr : headKind r ≠ .punct .dot) : pathWidth r = 0 := by
  match r with
  | [] => rfl
  | [_] => rfl
  | a :: b :: r =>
    have ha : a.isPunct .dot = false := by simpa [Token.isPunct] using hr
    rw [pathWidth, ha]
    rfl

/-- A path is taken up to its end, with its type arguments. -/
theorem takePath_of_tail (hts : PathTail ts) (h : p.ahead = ts ++ r)
    (hr : headKind r ∉ [.punct .dot, .punct .less]) : p.takePath = p.advance ts.length := by
  simp only [List.mem_cons, List.not_mem_nil, or_false, not_or] at hr
  induction hts generalizing p with
  | nil =>
    rw [List.nil_append] at h
    rw [takePath, h, pathWidth_of_headKind hr.1, advance_zero,
      takeAngle_of_headKind (by rw [h]; exact hr.2)]
    rfl
  | @args gs hg =>
    have hdot : headKind (gs ++ r) ≠ .punct .dot := by simp [hg.headKind_append]
    rw [takePath, h, pathWidth_of_headKind hdot, advance_zero, takeAngle_of_group hg h]
  | @name d n ts hd hn hts ih =>
    have hrest : (p.advance 2).ahead = ts ++ r := by rw [ahead_advance, h]; rfl
    have hnext := ih hrest
    rw [takePath, hrest, advance_advance] at hnext
    rw [takePath, h, List.cons_append, List.cons_append, pathWidth,
      if_pos (by simp [Token.isPunct, hd, hn]), hnext, advance_advance, List.length_cons,
      List.length_cons, Nat.add_comm]

end Parser

/-! ## Operators -/

/-- Every name may be the start of a type. -/
theorem Token.startsType_of_isName {t : Token} (h : t.kind.isName = true) :
    t.startsType = true := by
  rw [startsType.eq_def]
  cases hk : t.kind <;> simp_all [TokenKind.isName]

/-- A type starts with an operator, if one starts behind it. -/
theorem TypePrefix.startsType {xs : List Token} (hx : TypePrefix xs) {r : List Token}
    (hr : r.head?.any Token.startsType = true) : (xs ++ r).head?.any Token.startsType = true := by
  have hstart : ∀ {u : Token}, u.kind.isName = true → ∀ us : List Token,
      (u :: us).head?.any Token.startsType = true := fun hu _ => Token.startsType_of_isName hu
  cases hx with
  | nil => exact hr
  | word hw _ => exact hstart (by rw [Token.kind_of_isTypeOperator hw]; rfl) _
  | keyword hk _ =>
    simp only [List.mem_cons, List.not_mem_nil, or_false] at hk
    exact hstart (by rcases hk with hk | hk <;> rw [hk] <;> rfl) _
  | abstractNew ha _ _ => exact hstart (by rw [Token.kind_of_isWord ha]; rfl) _

/-- The operators end where a type starts with another token. -/
theorem typeOperatorsWidth_append {xs : List Token} (hx : TypePrefix xs) {r : List Token}
    (hr : r.head?.any Token.startsType = true) (hop : typeOperatorsWidth r = 0) :
    typeOperatorsWidth (xs ++ r) = xs.length := by
  have hstep : ∀ {u : Token} {us : List Token}, u.isOperatorBefore (us ++ r) = true →
      typeOperatorsWidth (us ++ r) = us.length →
      typeOperatorsWidth (u :: us ++ r) = (u :: us).length := by
    intro u us hu hus
    rw [List.cons_append, typeOperatorsWidth_cons, if_pos hu, hus, List.length_cons, Nat.add_comm]
  induction hx with
  | nil => exact hop
  | word hw hxs ih =>
    refine hstep ?_ ih
    rw [Token.isOperatorBefore, hw, hxs.startsType hr]
    rfl
  | keyword hk _ ih =>
    refine hstep ?_ ih
    simp only [List.mem_cons, List.not_mem_nil, or_false] at hk
    rcases hk with hk | hk <;> simp [Token.isOperatorBefore, Token.isKeyword, hk]
  | abstractNew ha hn _ ih =>
    refine hstep (by simp [Token.isOperatorBefore, Token.isKeyword, ha, hn]) (hstep ?_ ih)
    simp [Token.isOperatorBefore, Token.isKeyword, hn]

/-- Only words and keywords are operators. -/
theorem typeOperatorsWidth_of_not_isName {r : List Token} (h : (headKind r).isName = false) :
    typeOperatorsWidth r = 0 := by
  cases r with
  | nil => rfl
  | cons t r =>
    rw [headKind_cons] at h
    have hkind : t.kind ≠ .ident ∧ ∀ k, t.kind ≠ .keyword k := by
      constructor
      · intro hk
        rw [hk] at h
        exact absurd h (by decide)
      · intro k hk
        rw [hk] at h
        exact absurd h (by simp [TokenKind.isName])
    rw [typeOperatorsWidth_cons, if_neg]
    simp [Token.isOperatorBefore, Token.isTypeOperator, Token.isWord, Token.isKeyword, hkind]

/-- The name that starts a path is no operator, unless `new` comes behind it. -/
theorem typeOperatorsWidth_of_isTypeName {t : Token} (ht : t.IsTypeName) {r : List Token}
    (hr : headKind r ≠ .keyword .newKw) : typeOperatorsWidth (t :: r) = 0 := by
  have hkeyword : t.isKeyword .typeofKw = false ∧ t.isKeyword .newKw = false := by
    have hnot := ht.notKeyword
    simp only [List.mem_cons, List.not_mem_nil, or_false, not_or] at hnot
    exact ⟨beq_eq_false_iff_ne.mpr hnot.1, beq_eq_false_iff_ne.mpr hnot.2.1⟩
  have hnew : r.head?.any (·.isKeyword .newKw) = false := by
    cases r with
    | nil => rfl
    | cons u r => simpa [Token.isKeyword] using hr
  rw [typeOperatorsWidth_cons, Token.isOperatorBefore, ht.notOperator, hkeyword.1, hkeyword.2, hnew,
    Bool.and_false]
  rfl

/-! ## Where types start -/

section Starts

variable {bs r : List Token}

/-- Whether a type starts depends on the kind of the first token. -/
theorem startsType_of_headKind (h : (headKind r).isName = true ∨ headKind r ∈ [.stringLit,
    .numberLit, .templateLit, .punct .openParen, .punct .openBracket, .punct .openBrace,
    .punct .less, .punct .minus]) : r.head?.any Token.startsType = true := by
  cases r with
  | nil => exact absurd h (by decide)
  | cons t r =>
    rcases h with h | h
    · exact Token.startsType_of_isName h
    · rw [headKind_cons] at h
      rw [List.head?_cons, Option.any_some, Token.startsType.eq_def]
      revert h
      generalize t.kind = k
      simp only [List.mem_cons, List.not_mem_nil, or_false]
      rintro (rfl | rfl | rfl | rfl | rfl | rfl | rfl | rfl) <;> rfl

/-- A base starts a type. -/
theorem TypeBase.startsType (hb : TypeBase bs) (r : List Token) :
    (bs ++ r).head?.any Token.startsType = true := by
  apply startsType_of_headKind
  cases hb with
  | path ht _ => exact .inl ht.isName
  | inlineImport hi _ _ => exact .inl (by rw [List.cons_append, headKind_cons, hi]; rfl)
  | literal ht =>
    simp only [List.mem_cons, List.not_mem_nil, or_false] at ht
    rcases ht with ht | ht | ht <;> simp [ht]
  | negative hm _ => simp [hm]
  | parens hts => simp [hts.headKind_append]
  | brackets hts => simp [hts.headKind_append]
  | braces hts => simp [hts.headKind_append]

/-- No operator stands at the front of a base. The first token tells that, and behind a name also
the next one, which is not the word `new`. -/
theorem TypeBase.typeOperatorsWidth_append (hb : TypeBase bs) (hr : headKind r ∈ baseEnds) :
    typeOperatorsWidth (bs ++ r) = 0 := by
  have hgroup : ∀ {opening closing : Punct}, Enclosed opening closing bs →
      typeOperatorsWidth (bs ++ r) = 0 := fun hts =>
    typeOperatorsWidth_of_not_isName (by rw [hts.headKind_append]; rfl)
  cases hb with
  | @path t ts ht hts =>
    refine typeOperatorsWidth_of_isTypeName ht ?_
    cases hts with
    | nil => exact (by decide : ∀ k ∈ baseEnds, k ≠ .keyword .newKw) _ hr
    | args hg => simp [hg.headKind_append]
    | name hd _ _ => simp [hd]
  | @inlineImport i bs ts hi _ _ =>
    rw [List.cons_append, typeOperatorsWidth_cons, if_neg]
    simp [Token.isOperatorBefore, Token.isTypeOperator, Token.isWord, Token.isKeyword, hi]
  | literal ht =>
    simp only [List.mem_cons, List.not_mem_nil, or_false] at ht
    refine typeOperatorsWidth_of_not_isName ?_
    rcases ht with ht | ht | ht <;> simp [ht, TokenKind.isName]
  | negative hm _ => exact typeOperatorsWidth_of_not_isName (by simp [hm, TokenKind.isName])
  | parens hts => exact hgroup hts
  | brackets hts => exact hgroup hts
  | braces hts => exact hgroup hts

/-- A primary type starts where a type may start. -/
theorem TypeForm.startsType_of_primary {ps : List Token} (h : TypeForm .primary ps)
    (r : List Token) : (ps ++ r).head?.any Token.startsType = true := by
  cases h with
  | closed hp =>
    obtain ⟨hx, hb, -⟩ := hp
    rw [List.append_assoc, List.append_assoc]
    exact hx.startsType (hb.startsType _)
  | openEnded hh _ =>
    cases hh with
    | predicate hx hb _ _ _ =>
      rw [List.append_assoc, List.append_assoc, List.append_assoc]
      exact hx.startsType (hb.startsType _)
    | function hx hb _ =>
      rw [List.append_assoc, List.append_assoc, List.append_assoc]
      exact hx.startsType (TypeBase.startsType (.parens hb) _)
    | generic hx hg _ _ =>
      rw [List.append_assoc, List.append_assoc, List.append_assoc]
      exact hx.startsType (startsType_of_headKind (by simp [hg.headKind_append]))

end Starts

/-! ## Primary types -/

namespace Parser

variable {p : Parser} {xs bs ms r : List Token}

/-- Behind its operators a primary type is taken by the kind of its first token. -/
theorem typeHead_of_operators (hx : TypePrefix xs) (h : p.ahead = xs ++ r)
    (hr : r.head?.any Token.startsType = true) (hop : typeOperatorsWidth r = 0) :
    p.typeHead = headBy (headKind r) (p.advance xs.length) := by
  rw [typeHead_eq, Extent.operators, h, typeOperatorsWidth_append hx hr hop, take_of_closed,
    kind_peek,
    ahead_advance_of_append h]

/-- The name of a type is a head with its path. -/
theorem headBy_of_isTypeName {t : Token} (ht : t.IsTypeName) (p : Parser) :
    headBy t.kind p = (.other, p.bump.takePath) := by
  have hname := ht.isName
  have hkeyword := ht.notKeyword
  generalize t.kind = k at hname hkeyword
  cases k with
  | ident => rfl
  | keyword k =>
    have himport : k ≠ .importKw := by
      rintro rfl
      exact hkeyword (by decide)
    cases k <;> first | rfl | exact absurd rfl himport
  | _ => exact absurd hname (by simp [TokenKind.isName])

/-- A base is taken up to its end. There is one case for each form of a base, with the reader that
its first token calls for. -/
theorem headBy_of_base (hb : TypeBase bs) (h : p.ahead = bs ++ r) (hr : headKind r ∈ baseEnds) :
    ∃ head, head ≠ .missing ∧ head ≠ .generic ∧
      headBy (headKind p.ahead) p = (head, p.advance bs.length) := by
  have hpath : headKind r ∉ [.punct .dot, .punct .less] :=
    (by decide : ∀ k ∈ baseEnds, k ∉ [.punct .dot, .punct .less]) _ hr
  cases hb with
  | @path t ts ht hts =>
    have hrest : p.bump.ahead = ts ++ r := ahead_bump_of_cons h
    refine ⟨.other, by decide, by decide, ?_⟩
    rw [h, List.cons_append, headKind_cons, headBy_of_isTypeName ht,
      takePath_of_tail hts hrest hpath, bump_eq_advance, advance_advance, List.length_cons,
      Nat.add_comm]
  | @inlineImport i bs ts hi hb hts =>
    have hgroup : p.bump.ahead = bs ++ (ts ++ r) := by
      rw [← List.append_assoc]
      exact ahead_bump_of_cons h
    have hrest : (p.bump.advance bs.length).ahead = ts ++ r := ahead_advance_of_append hgroup
    have hhead : headBy (.keyword .importKw) p = (.other, p.bump.takeParens.takePath) := rfl
    refine ⟨.other, by decide, by decide, ?_⟩
    rw [h, List.cons_append, headKind_cons, hi, hhead, takeParens_of_group hb hgroup,
      takePath_of_tail hts hrest hpath, bump_eq_advance, advance_advance, advance_advance,
      List.length_cons, List.length_append, Nat.add_comm 1, Nat.add_right_comm]
  | @literal t ht =>
    simp only [List.mem_cons, List.not_mem_nil, or_false] at ht
    refine ⟨.other, by decide, by decide, ?_⟩
    rw [h, List.singleton_append, headKind_cons]
    rcases ht with ht | ht | ht <;> rw [ht] <;> rfl
  | @negative m n hm hn =>
    have hnumber : p.bump.peek.kind = .numberLit := by
      rw [kind_peek, ahead_bump_of_cons h]
      exact hn
    refine ⟨.other, by decide, by decide, ?_⟩
    rw [h, List.cons_append, headKind_cons, hm, headBy, if_pos hnumber]
    rfl
  | parens hts =>
    refine ⟨.parens, by decide, by decide, ?_⟩
    rw [← takeGroup_of_enclosed rfl rfl hts h, h, hts.headKind_append]
    rfl
  | brackets hts =>
    refine ⟨.other, by decide, by decide, ?_⟩
    rw [← takeGroup_of_enclosed rfl rfl hts h, h, hts.headKind_append]
    rfl
  | braces hts =>
    refine ⟨.other, by decide, by decide, ?_⟩
    rw [← takeGroup_of_enclosed rfl rfl hts h, h, hts.headKind_append]
    rfl

/-- The operators, a base and its array brackets are taken up to the last of them; what is left to
look at is the word `is`. -/
theorem skipPrimary_of_base (hx : TypePrefix xs) (hb : TypeBase bs) (hm : ArrayMarks ms)
    (h : p.ahead = xs ++ (bs ++ (ms ++ r))) (hr : headKind r ∈ .ident :: primaryEnds) :
    p.skipPrimary = skipPredicate (p.advance (xs ++ (bs ++ ms)).length) := by
  have hends : headKind (ms ++ r) ∈ baseEnds := by
    cases hm with
    | nil => exact (by decide : ∀ k ∈ .ident :: primaryEnds, k ∈ baseEnds) _ hr
    | cons ho _ _ _ _ => simp [ho, baseEnds]
  have hbase : (p.advance xs.length).ahead = bs ++ (ms ++ r) := ahead_advance_of_append h
  have hmarks : ((p.advance xs.length).advance bs.length).ahead = ms ++ r :=
    ahead_advance_of_append hbase
  obtain ⟨head, hmissing, hgeneric, hhead⟩ := headBy_of_base hb hbase hends
  have harrow : ¬ ((head = .generic ∨ head = .parens) ∧
      ((p.advance xs.length).advance bs.length).isPunct .arrow = true) := by
    rintro ⟨-, ha⟩
    rw [isPunct_iff, hmarks] at ha
    rw [ha] at hends
    exact absurd hends (by decide)
  have hbracket : headKind r ≠ .punct .openBracket :=
    (by decide : ∀ k ∈ .ident :: primaryEnds, k ≠ .punct .openBracket) _ hr
  rw [hbase] at hhead
  rw [skipPrimary_eq,
    typeHead_of_operators hx h (hb.startsType _) (hb.typeOperatorsWidth_append hends),
    hhead, skipTypeTail_eq_predicate, if_neg hmissing, if_neg harrow, if_neg hgeneric,
    takeArrays_of_marks hm hmarks hbracket, advance_advance, advance_advance, List.length_append,
    List.length_append]

/-- A closed primary type is taken as a whole. -/
theorem skipPrimary_of_closed {ps : List Token} (hp : ClosedPrimary ps) (h : p.ahead = ps ++ r)
    (hr : headKind r ∈ primaryEnds) : p.skipPrimary = p.advance ps.length := by
  obtain ⟨hx, hb, hm⟩ := hp
  rename_i xs bs ms
  have hrest : (p.advance (xs ++ (bs ++ ms)).length).ahead = r := ahead_advance_of_append h
  rw [skipPrimary_of_base hx hb hm (by simpa using h) (List.mem_cons_of_mem _ hr),
    skipPredicate, if_neg]
  rintro ⟨hword, -⟩
  have hident := headKind_of_isWord hword
  rw [hrest] at hident
  rw [hident] at hr
  exact absurd hr (by decide)

/-- Behind a parameter list with an arrow comes the result. -/
theorem skipTypeTail_of_arrow {head : TypeHead} (hhead : head = .generic ∨ head = .parens)
    {a : Token} (h : p.ahead = a :: r) (ha : a.kind = .punct .arrow) :
    p.skipTypeTail head = (p.advance 1).skipType := by
  have harrow : p.isPunct .arrow = true := by rw [isPunct_iff, h, headKind_cons, ha]
  have hmissing : head ≠ .missing := by rcases hhead with rfl | rfl <;> decide
  rw [skipTypeTail_eq, if_neg hmissing, if_pos ⟨hhead, harrow⟩, bump_eq_advance]

/-- In an open primary type the parser comes to the type at its end. The open forms are a predicate,
a function and a generic function, and the type stands behind the word `is` or the arrow. -/
theorem skipPrimary_of_openHead {hs : List Token} (hh : OpenHead hs) (h : p.ahead = hs ++ r) :
    p.skipPrimary = (p.advance hs.length).skipType := by
  cases hh with
  | @predicate xs bs ms w hx hb hm hw hline =>
    have hword : (p.advance (xs ++ (bs ++ ms)).length).ahead = w :: r :=
      ahead_advance_of_append (by simpa using h)
    rw [skipPrimary_of_base hx hb hm (r := w :: r) (by simpa using h)
        (by simp [Token.kind_of_isWord hw]),
      skipPredicate, isWord_of_ahead hword, peek_of_ahead hword, if_pos ⟨hw, hline⟩,
      bump_eq_advance, advance_advance]
    simp only [List.length_append, List.length_singleton, Nat.add_assoc]
  | @function xs bs a hx hb ha =>
    have hparens : (p.advance xs.length).ahead = bs ++ a :: r :=
      ahead_advance_of_append (by simpa using h)
    have harrow : ((p.advance xs.length).advance bs.length).ahead = a :: r :=
      ahead_advance_of_append hparens
    have hhead : p.typeHead = (.parens, (p.advance xs.length).takeGroup) := by
      have hkind := hb.headKind_append (a :: r)
      rw [typeHead_of_operators hx (r := bs ++ a :: r) (by simpa using h)
        (startsType_of_headKind (by simp [hkind]))
        (typeOperatorsWidth_of_not_isName (by rw [hkind]; rfl)), hkind]
      rfl
    rw [skipPrimary_eq, hhead, takeGroup_of_enclosed rfl rfl hb hparens,
      skipTypeTail_of_arrow (.inr rfl) harrow ha, advance_advance, advance_advance]
    simp only [List.length_append, List.length_singleton]
  | @generic xs gs bs a hx hg hb ha =>
    have hangle : (p.advance xs.length).ahead = gs ++ (bs ++ a :: r) :=
      ahead_advance_of_append (by simpa using h)
    have hparens : ((p.advance xs.length).advance gs.length).ahead = bs ++ a :: r :=
      ahead_advance_of_append hangle
    have harrow : (((p.advance xs.length).advance gs.length).advance bs.length).ahead = a :: r :=
      ahead_advance_of_append hparens
    have hhead : p.typeHead = (.generic, (p.advance xs.length).takeAngle.takeParens) := by
      have hkind := hg.headKind_append (bs ++ a :: r)
      rw [typeHead_of_operators hx (r := gs ++ (bs ++ a :: r)) (by simpa using h)
        (startsType_of_headKind (by simp [hkind]))
        (typeOperatorsWidth_of_not_isName (by rw [hkind]; rfl)), hkind]
      rfl
    rw [skipPrimary_eq, hhead, takeAngle_of_group hg hangle, takeParens_of_group hb hparens,
      skipTypeTail_of_arrow (.inl rfl) harrow ha, advance_advance, advance_advance,
      advance_advance]
    simp only [List.length_append, List.length_singleton]

end Parser

end SignatureLedger
