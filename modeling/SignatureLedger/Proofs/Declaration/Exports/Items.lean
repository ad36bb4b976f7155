import SignatureLedger.Proofs.Declaration.Course.Items
import SignatureLedger.Proofs.Declaration.Exports.Members

/-!
# Accounts of items

A declaration, exported or not, has an excuse for each `export` outside all brackets that it takes
(`eachDecl_exporting`). Statements and clauses are apart: in a statement no line that ends before
the word ends the statement (`runs_statement`), and a clause takes the word only as one of its first
two tokens or on the line of the token before it (`early_clause`).
-/

namespace SignatureLedger

open SignatureLedger.Parser Extent

namespace Grounds

variable {ts rest post u : List Token} {t e : Token} {p q : Parser}

/-! ## Clauses -/

/-- Outside all brackets an `export` is one of the first two tokens, or no line ends before it. -/
def Early (u : List Token) (e : Token) (_post : List Token) : Prop :=
  Outside u → e.isKeyword .exportKw = true → u.length < 2 ∨ e.newlineBefore = false

/-- A token that is no `export` is accounted for. -/
theorem early_of_not (h : e.isKeyword .exportKw = false) : Early u e post :=
  fun _ he => absurd he (by simp [h])

theorem early_front_group {x : List Token} {n : Nat} (ho : t.kind.isOpener = true)
    (h : groupEnd? 0 rest = some n) : Each Early x ⟨1 + n, none⟩ (t :: rest) :=
  each_front_group ho h (early_of_not (isKeyword_of_isOpener ho _)) fun hu hout =>
    absurd hout.of_append hu

theorem early_group {x : List Token} (ho : t.kind.isOpener = true) (rest : List Token) :
    ((Extent.group t rest).shift 1).Each Early x (t :: rest) := by
  unfold Extent.group
  split
  · exact early_front_group ho ‹_›
  · exact .of_unclosed rfl

theorem early_semicolon? (x ts : List Token) : (Extent.semicolon? ts).Each Early x ts := by
  cases ts with
  | nil => exact each_nothing _ _ _
  | cons t rest =>
    rw [Extent.semicolon?]
    split
    · exact each_one (early_of_not (isKeyword_of_isPunct ‹_› _))
    · exact each_nothing _ _ _

/-- The attributes of an import behind the name of the module. -/
theorem early_attributes? (x ts : List Token) : (Extent.attributes? ts).Each Early x ts := by
  match ts with
  | [] | [_] => exact each_nothing _ _ _
  | a :: b :: rest =>
    rw [Extent.attributes?]
    split
    · rename_i hab
      simp only [Bool.and_eq_true, Bool.or_eq_true] at hab
      have ha : a.isKeyword .exportKw = false := by
        rcases hab.1.1 with hk | hw
        · simp only [Token.isKeyword, beq_iff_eq] at hk
          simp [Token.isKeyword, hk]
        · simp [Token.isKeyword, Token.kind_of_isWord hw]
      have hgroup := Each.behind (each_one (early_of_not (u := x) ha))
        (early_group (isOpener_of_isPunct hab.2 rfl) rest)
      rwa [Extent.shift, Extent.shift, ← Nat.add_assoc] at hgroup
    · exact each_nothing _ _ _

/-- **Clauses.** An `export` that a clause takes is one of its first two tokens, or no line ends
before it. -/
theorem early_clause (previous? : Option Token) (x ts : List Token) :
    (Extent.clause x.length previous? ts).Each Early x ts := by
  generalize hx : x.length = taken
  fun_induction Extent.clause taken previous? ts generalizing x with
  | case1 => exact each_nothing _ _ _
  | case2 taken previous? t rest ht => exact each_one (early_of_not (isKeyword_of_isPunct ht _))
  | case3 => exact each_nothing _ _ _
  | case4 => exact each_nothing _ _ _
  | case5 taken previous? t rest _ _ _ hstring =>
    -- the name of a module, with attributes
    have ht : t.isKeyword .exportKw = false := by simp [Token.isKeyword, hstring]
    exact Each.behind (each_one (early_of_not ht))
      ((early_attributes? _ rest).andThen (early_semicolon? _ _))
  | case6 taken previous? t rest _ _ _ _ ht =>
    -- or a group in round brackets
    rw [shift_andThen t]
    exact (early_group (isOpener_of_isPunct ht rfl) rest).andThen (early_semicolon? _ _)
  | case7 taken previous? t rest _ _ _ _ _ ho n hn ih =>
    have hle := le_length_of_groupEnd? hn
    refine Each.behind (early_front_group ho hn) ?_
    rw [Nat.add_comm, List.take_succ_cons, List.drop_succ_cons]
    refine ih _ ?_
    rw [List.length_append, List.length_cons, List.length_take, hx]
    omega
  | case8 => exact .of_unclosed rfl
  | case9 taken previous? t rest _ _ hline _ _ _ ih =>
    refine Each.behind (each_one fun _ he => ?_) (ih _ ?_)
    · -- from the third token on, a new line would have ended the clause
      have hstart : t.isItemStart = true := by simp [Token.isItemStart, he]
      by_cases hfirst : x.length < 2
      · exact .inl hfirst
      · right
        simpa [hstart, hx ▸ Nat.le_of_not_lt hfirst] using hline
    · rw [List.length_append, List.take_succ_cons, List.take_zero, hx, List.length_singleton]

/-! ## Heads of classes and interfaces -/

/-- A name before the rest of a head. -/
theorem heritage_of_ident (h : t.kind = .ident) (rest : List Token) :
    Extent.heritage (t :: rest) = (Extent.heritage rest).shift 1 := by
  rw [Extent.heritage]
  simp [Token.isPunct, h, TokenKind.isOpener]

/-- A list of type parameters before the rest of a head. -/
theorem heritage_of_angle (h : (Extent.angle? ts).unclosed? = none) :
    (Extent.heritage ts).width
      = (Extent.angle? ts).width + (Extent.heritage (ts.drop (Extent.angle? ts).width)).width := by
  cases ts with
  | nil => simp [Extent.angle?]
  | cons t rest =>
    by_cases ht : t.isPunct .less = true
    · have hstop :
          ¬ (t.isPunct .openBrace || t.isPunct .semicolon || t.isPunct .closeBrace) = true := by
        simp only [Token.isPunct, beq_iff_eq] at ht
        simp [Token.isPunct, ht]
      rw [Extent.angle?, if_pos ht] at h ⊢
      have hclosed : ¬ (Extent.angle t 1 rest).unclosed?.isSome = true := by
        rw [show (Extent.angle t 1 rest).unclosed? = none from h]
        decide
      rw [Extent.heritage, if_neg hstop, if_pos ht]
      dsimp only
      rw [if_neg hclosed, Extent.shift, Extent.shift]
      dsimp only
      rw [Nat.add_comm 1 (Extent.angle t 1 rest).width, List.drop_succ_cons]
    · rw [Extent.angle?, if_neg ht, List.drop_zero, Nat.zero_add]

/-- Behind a name the parser takes type parameters and a heritage clause. -/
theorem left_skipHeritage {r : Parser} (hr : r.Quiet) (h : r = q.takeAngle.skipHeritage) :
    r.left = q.left - (Extent.heritage q.ahead).width := by
  subst h
  have hangle := Quiet.of_reaches (reaches_skipHeritage q.takeAngle) hr
  have hclosed := unclosed?_of_quiet hangle
  rw [heritage_of_angle hclosed, ← Nat.sub_sub, skipHeritage, if_neg (by simp [hangle.running]),
    left_take, takeAngle, take_of_unclosed? hclosed, left_advance, ahead_advance]

/-- Before the body of a class or interface every word is excused by the head, which has a name in
front or none. -/
theorem exporting_head (hk : p.isKeyword .classKw = true ∨ p.isWord "interface" = true)
    (hq : q = p.bump ∨ p.bump.peek.kind = .ident ∧ q = p.bump.bump) :
    exporting.Accounts p q.takeAngle.skipHeritage := by
  have hreaches : p.bump.Reaches q := by
    rcases hq with rfl | ⟨-, rfl⟩
    · exact .refl
    · exact reaches_bump _
  -- the name is the first part of the heritage, if it is there
  have hwidth : (Extent.heritage p.bump.ahead).width
      = p.bump.left - q.left + (Extent.heritage q.ahead).width := by
    rcases hq with rfl | ⟨hname, rfl⟩
    · rw [Nat.sub_self, Nat.zero_add]
    · obtain ⟨t, ts, hp⟩ := exists_of_kind hname (by decide)
      rw [peek_of_ahead hp] at hname
      have hleft : p.bump.left = ts.length + 1 := congrArg List.length hp
      have hbump := left_bump p.bump
      rw [hp, heritage_of_ident hname, Extent.shift, ahead_bump_of_cons hp]
      dsimp only
      omega
  refine ⟨(reaches_bump p).trans (hreaches.trans ((reaches_takeAngle q).trans
    (reaches_skipHeritage _))), fun hr u e post hp hle hout he => .inr ?_⟩
  cases u with
  | nil =>
    have hpeek : p.peek.isKeyword .exportKw = true := (peek_of_ahead hp).symm ▸ he
    rcases hk with hk | hw
    · simp only [Parser.isKeyword, Token.isKeyword, beq_iff_eq] at hk
      simp [Token.isKeyword, hk] at hpeek
    · simp [Token.isKeyword, Token.kind_of_isWord hw] at hpeek
  | cons k w =>
    have hbump : p.bump.ahead = w ++ e :: post := ahead_bump_of_cons hp
    have hk' : k.isKeyword .classKw = true ∨ k.isWord "interface" = true := by
      rwa [isKeyword_of_ahead hp, isWord_of_ahead hp] at hk
    refine .head (List.nil_append _).symm hk' ?_
    have hleft : p.bump.left = w.length + (post.length + 1) := by
      rw [Parser.left, show p.bump.cursor.ahead = w ++ e :: post from hbump, List.length_append,
        List.length_cons]
    have hqleft := left_le_of_reaches hreaches
    rw [left_skipHeritage hr rfl] at hle
    rw [← hbump, hwidth]
    omega

/-! ## Functions, classes and interfaces -/

theorem accounts_skipBraces (p : Parser) : passed.Accounts p (skipBraces p) :=
  .ite (fun _ => accounts_takeGroup p) fun hno => .expect fun h => absurd h hno

theorem accounts_skipName (p : Parser) : passed.Accounts p (skipName p) :=
  .ite accounts_bump_of_ident fun _ => .refl

/-- Where a name is missing the parse is not quiet. -/
theorem Accounts.of_noName {g : Grounds} (what : String) (hq : (p.reportNoName what).Reaches q) :
    g.Accounts p q := .of_report hq

/-- A declared function accounts for all that it passes. -/
theorem accounts_functionDecl (h : p.isKeyword .functionKw = true) (m : DeclModifiers) :
    passed.Accounts p (p.functionDecl m).2 := by
  rw [functionDecl_snd]
  refine ((accounts_bump_of_isKeyword h (by decide)).trans
    (accounts_skipPunct _ (j := .star) rfl)).trans ?_
  refine .ite (fun _ => .of_noName "function" ?_) fun _ =>
    (accounts_skipName _).trans (accounts_skipSignature _)
  refine (reaches_recover _ _).trans (.ite (fun _ => reaches_takeGroup _) fun _ => ?_)
  exact reaches_skipPunct _ _

/-- A declared class accounts for the exports that it passes. -/
theorem exporting_classDecl (h : p.isKeyword .classKw = true) (m : DeclModifiers) :
    exporting.Accounts p (p.classDecl m).2 := by
  rw [classDecl_snd]
  have hhead : exporting.Accounts p (skipClassName m p.bump).takeAngle.skipHeritage := by
    unfold skipClassName
    split
    · rename_i hname
      simp only [Bool.and_eq_true, decide_eq_true_eq] at hname
      exact exporting_head (.inl h) (.inr ⟨hname.1, rfl⟩)
    split
    · refine (accounts_bump_of_isKeyword h (by decide)).exporting.trans (.of_noName "class" ?_)
      exact (reaches_takeAngle _).trans (reaches_skipHeritage _)
    · exact exporting_head (.inl h) (.inl rfl)
  exact hhead.trans (.ite exporting_classBody fun hno => .expect fun h => absurd h hno)

/-- A declared interface accounts for the exports that it passes. -/
theorem exporting_interfaceDecl (hw : p.isWord "interface" = true)
    (hn : p.peekNext.kind = .ident) (m : DeclModifiers) :
    exporting.Accounts p (p.interfaceDecl m).2 := by
  rw [interfaceDecl_snd]
  exact (exporting_head (.inr hw) (.inr ⟨peek_bump p ▸ hn, rfl⟩)).trans
    (accounts_skipBraces _).exporting

/-! ## Type aliases, enums and variables -/

theorem accounts_bump_of_isWord {w : String} (h : p.isWord w = true) :
    passed.Accounts p p.bump := accounts_bump_of_ident (Token.kind_of_isWord h)

/-- A declared alias accounts for all that it passes. -/
theorem accounts_typeAliasDecl (hw : p.isWord "type" = true) (hn : p.peekNext.kind = .ident)
    (m : DeclModifiers) : passed.Accounts p (p.typeAliasDecl m).2 := by
  rw [typeAliasDecl_snd]
  have hname : passed.Accounts p.bump p.bump.bump := accounts_bump_of_ident (peek_bump p ▸ hn)
  refine (((accounts_bump_of_isWord hw).trans hname).trans (accounts_takeAngle _)).trans
    (Accounts.trans ?_ (accounts_finishItem _))
  exact accounts_expect_then fun h => accounts_skipType _ (asksForType_of_isPunct h rfl)

/-- A declared enumeration accounts for all that it passes. -/
theorem accounts_enumDecl {k : Keyword} (h : p.isKeyword k = true) (hk : k ≠ .exportKw)
    (m : DeclModifiers) : passed.Accounts p (p.enumDecl m).2 := by
  rw [enumDecl_snd]
  refine (accounts_bump_of_isKeyword h hk).trans (.ite (fun hname => ?_) fun _ => ?_)
  · exact (accounts_bump_of_ident hname).trans (accounts_skipBraces _)
  · refine .of_noName "enum" ((reaches_recover _ [.semicolon, .openBrace]).trans ?_)
    exact .ite (fun _ => reaches_takeGroup _) fun _ => .refl

theorem accounts_declaratorRest (p : Parser) : passed.Accounts p p.declaratorRest := by
  rw [declaratorRest_eq]
  exact ((accounts_skipPunct p rfl).trans (accounts_skipColonType _)).trans
    (accounts_skipInitializer _)

/-- Declared variables account for all that they pass, by induction on the tokens left. -/
theorem accounts_skipDeclarators (m : DeclModifiers) (word : VarKeyword) (p : Parser) :
    passed.Accounts p (skipDeclarators m word p) := by
  rw [skipDeclarators_eq]
  refine .ite (fun _ => accounts_finishItem p) fun _ => .ite (fun _ => ?_) fun _ => ?_
  · -- one declarator, and the others behind a comma
    have htarget : passed.Accounts p (skipTarget p) :=
      .ite accounts_bump_of_ident fun _ => accounts_takeGroup p
    refine (htarget.trans (accounts_declaratorRest _)).trans (.ite (fun hcomma => ?_) fun _ =>
      accounts_finishItem _)
    have h₁ := left_skipTarget_le p
    have h₂ := left_declaratorRest_le (skipTarget p)
    have h₃ := left_bump_lt_of_isPunct hcomma
    exact (accounts_bump_of_isPunct hcomma rfl).trans
      (accounts_skipDeclarators m word (skipTarget p).declaratorRest.bump)
  · exact .of_noName "variable" ((reaches_recover _ _).trans (reaches_skipPunct _ _))
termination_by p.left

theorem accounts_variableDecl (h : passed.Accounts p p.bump) (m : DeclModifiers) :
    passed.Accounts p (p.variableDecl m).2 := h.trans (accounts_skipDeclarators _ _ _)

/-! ## Namespaces -/

theorem accounts_skipSpaceName (h : p.peek.kind = .ident ∨ p.peek.kind = .stringLit) :
    passed.Accounts p (skipSpaceName p) := by
  refine .ite (fun hs => accounts_bump_of_kind hs rfl (by decide)) fun hs => ?_
  exact (accounts_bump_of_ident (h.resolve_right hs)).trans (.of_take (covers_dotted _ _))

/-- The head of a namespace, with the brace that opens its body. -/
theorem accounts_namespaceItem {w : String} (hw : p.isWord w = true)
    (hn : p.isWord "global" = false → p.peekNext.kind = .ident ∨ p.peekNext.kind = .stringLit)
    (m : DeclModifiers) : passed.Accounts p (p.namespaceItem m).2 := by
  have hbump : passed.Accounts p p.bump := accounts_bump_of_isWord hw
  have hstart : passed.Accounts p (p.spaceStart m).2 := by
    rw [spaceStart_snd]
    refine .ite (fun _ => hbump) fun hglobal => hbump.trans (accounts_skipSpaceName ?_)
    rw [peek_bump]
    exact hn (Bool.not_eq_true _ ▸ hglobal)
  refine hstart.trans ?_
  show passed.Accounts _ (openSpace (p.spaceStart m).1 (p.spaceStart m).2).2
  unfold openSpace
  rw [apply_ite Prod.snd]
  exact .ite (accounts_bump_of_isPunct · rfl) fun _ => accounts_finishItem _

/-! ## Declarations -/

/-- A constant enumeration accounts for all that it passes. -/
theorem accounts_constEnumDecl (hconst : p.isKeyword .constKw = true)
    (henum : p.peekNext.isKeyword .enumKw = true) (m : DeclModifiers) :
    passed.Accounts p (p.bump.enumDecl m).2 := by
  have hword : p.bump.isKeyword .enumKw = true := by
    rw [Parser.isKeyword, peek_bump]
    exact henum
  exact (accounts_bump_of_isKeyword hconst (by decide)).trans
    (accounts_enumDecl hword (by decide) m)

/-- **Declarations.** Whatever kind it is, a declaration has an excuse for each `export` that it
takes outside all brackets. -/
theorem eachDecl_exporting (p : Parser) (m : DeclModifiers) :
    EachDecl (fun r => exporting.Accounts p r.2) p m where
  functionDecl := fun h => (accounts_functionDecl h m).exporting
  classDecl := fun h => exporting_classDecl h m
  interfaceDecl := fun hw hn => exporting_interfaceDecl hw hn m
  enumDecl := fun h => (accounts_enumDecl h (by decide) m).exporting
  constEnumDecl := fun hconst henum => (accounts_constEnumDecl hconst henum _).exporting
  variableDecl := by
    rintro (h | h | h)
    · exact (accounts_variableDecl (accounts_bump_of_isKeyword h (by decide)) m).exporting
    · exact (accounts_variableDecl (accounts_bump_of_isKeyword h (by decide)) m).exporting
    · exact (accounts_variableDecl (accounts_bump_of_isWord h) m).exporting
  typeAliasDecl := fun hw hn => (accounts_typeAliasDecl hw hn m).exporting
  namespaceItem := fun _ hw hn _ => (accounts_namespaceItem hw hn m).exporting

/-- A declaration with its modifiers. -/
theorem findsExporting_declItem? (p : Parser) (exported : ExportMode) :
    Finds (fun r => exporting.Accounts p r.2) (p.declItem? exported) := by
  obtain ⟨k, hk, hwords⟩ := exists_words_of_read (exported = .asDefault) { exported } 0 p.ahead
  rw [Nat.zero_add] at hk
  subst hk
  exact ((eachDecl_exporting _ _).declRest? _).imp fun _ =>
    (Accounts.of_advance (covers_words hwords)).exporting.trans

/-! ## Exported items -/

/-- Behind the words `export default` stands a declaration or a value. -/
theorem exporting_defaultItem (h : p.isKeyword .defaultKw = true) :
    exporting.Accounts p (defaultItem p.bump.skipDecorators).2 := by
  have hdecorators : passed.Accounts p p.bump.skipDecorators :=
    (accounts_bump_of_isKeyword h (by decide)).trans (accounts_skipDecorators _)
  refine ((findsExporting_declItem? _ .asDefault).imp fun _ => hdecorators.exporting.trans).orElse
    (P := fun r => exporting.Accounts p r.2) ?_
  refine Accounts.trans ?_ (accounts_finishItem _).exporting
  refine ⟨hdecorators.reaches.trans (reaches_skipExpr _), fun hq => ?_⟩
  -- the decorators stand between the word and the value
  have hclosed := unclosed?_of_quiet (Quiet.of_reaches (reaches_skipExpr _) hq)
  obtain ⟨t, ts, hp⟩ := exists_of_not_atEnd (atEnd_of_isKeyword h)
  have hbump := ahead_bump_of_cons hp
  have hahead : p.bump.skipDecorators.ahead = ts.drop (Extent.decorators ts).width := by
    rw [skipDecorators, take_of_unclosed? hclosed, ahead_advance, hbump]
  refine (accounts_skipExpr (t := t) (d := ts.take (Extent.decorators ts).width) hdecorators
    ?_ (.inr ⟨isKeyword_of_ahead hp _ ▸ h, ?_⟩)).exporting.holds hq
  · rw [hahead, hp, List.cons_append, List.take_append_drop]
  · rw [hahead, List.take_append_drop]

/-- Behind the word `export` stands a clause, or else an item that is accounted for. -/
theorem exportItem_cases (p : Parser) :
    p.exportItem = (.complete [], p.skipClause) ∨ exporting.Accounts p p.exportItem.2 := by
  rw [exportItem_eq]
  by_cases hdefault : p.isKeyword .defaultKw = true
  · rw [if_pos hdefault]
    exact .inr (exporting_defaultItem hdefault)
  rw [if_neg hdefault]
  by_cases hassign : p.isPunct .assign = true
  · rw [if_pos hassign]
    exact .inr ((accounts_bump_skipExpr hassign).trans (accounts_finishItem _)).exporting
  rw [if_neg hassign]
  by_cases hclause : p.atExportClause = true
  · rw [if_pos hclause]
    exact .inl rfl
  rw [if_neg hclause]
  right
  refine (accounts_skipDecorators p).exporting.trans ?_
  refine (findsExporting_declItem? _ .named).orElse
    (P := fun r => exporting.Accounts p.skipDecorators r.2) ?_
  -- something else is no declaration, and the parse is not quiet
  rw [apply_ite Prod.snd]
  exact .ite (fun _ => .of_report .refl) fun _ => .of_report (reaches_skipStatement _)

/-! ## All items -/

/-- An item that is no export is a statement or a clause, or else it is accounted for. -/
theorem undecoratedItem_cases (h : p.isKeyword .exportKw = false) :
    undecoratedItem p = (.complete [], p.skipStatement)
      ∨ undecoratedItem p = (.complete [], p.bump.skipClause)
      ∨ exporting.Accounts p (undecoratedItem p).2 := by
  unfold undecoratedItem
  rw [if_neg (c := p.isKeyword .exportKw = true) (by simp [h])]
  split
  · split
    · exact .inl rfl
    · exact .inr (.inl rfl)
  · cases hd : p.declItem? .none with
    | none => exact .inl rfl
    | some r => exact .inr (.inr (findsExporting_declItem? p .none r hd))

end Grounds

end SignatureLedger
