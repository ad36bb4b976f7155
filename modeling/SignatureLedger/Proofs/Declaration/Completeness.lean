import SignatureLedger.Proofs.Declaration.Loop
import SignatureLedger.Proofs.Declaration.Phrases
import SignatureLedger.Token.Lexer

/-!
# Well-formed modules are parsed completely

The parser reads a well-formed module without a finding and returns exactly its declarations
(`parseModule_of_written`). Since every phrase is taken as a whole, the parse only advances; an item
is told by its first two tokens (`StartsDecl`), it leaves the state behind its last token, and from
there the next one is read (`itemsFrom_of_written`).
-/

namespace SignatureLedger

namespace Parser

variable {p : Parser} {rest : List Token}

/-! ## Modifiers -/

/-- No modifiers are read where a keyword comes next. -/
theorem declItem?_of_not_modifier {t : Token} {ts : List Token} (h : p.ahead = t :: ts)
    (hdeclare : t.isWord "declare" = false) (habstract : t.isWord "abstract" = false)
    (hasync : t.isWord "async" = false) (x : ExportMode) :
    p.declItem? x = p.declRest? (x = .asDefault) { exported := x } := by
  rw [declItem?, h, read_of_not_modifier hdeclare habstract hasync]
  rfl

/-- A word that is no modifier starts the declaration itself. -/
theorem declItem?_of_word {t : Token} {ts : List Token} {w : String} (h : p.ahead = t :: ts)
    (hw : t.isWord w = true)
    (hne : bytes w ∉ [bytes "declare", bytes "abstract", bytes "async"]) (x : ExportMode) :
    p.declItem? x = p.declRest? (x = .asDefault) { exported := x } := by
  simp only [List.mem_cons, List.not_mem_nil, or_false, not_or] at hne
  exact declItem?_of_not_modifier h (Token.isWord_of_ne hw hne.1) (Token.isWord_of_ne hw hne.2.1)
    (Token.isWord_of_ne hw hne.2.2) x

/-- A keyword starts the declaration itself. -/
theorem declItem?_of_keyword {t : Token} {ts : List Token} {k : Keyword} (h : p.ahead = t :: ts)
    (hk : t.kind = .keyword k) (x : ExportMode) :
    p.declItem? x = p.declRest? (x = .asDefault) { exported := x } :=
  declItem?_of_not_modifier h (t.isWord_of_keyword hk _) (t.isWord_of_keyword hk _)
    (t.isWord_of_keyword hk _) x

/-- The word `async` before a function is read as its modifier. -/
theorem declItem?_of_async {a ts : List Token} {x : ExportMode} {f : Token} {isAsync : Bool}
    (h : p.ahead = a ++ f :: ts) (ha : Mark (fun t => t.isWord "async" = true) a isAsync)
    (hf : f.kind = .keyword .functionKw) (hline : isAsync = true → f.newlineBefore = false) :
    ∃ m : DeclModifiers, m.head = { exported := x } ∧ m.isAsync = isAsync ∧
      p.declItem? x = (p.advance a.length).declRest? (x = .asDefault) m := by
  have hword : ∀ w, f.isWord w = false := fun w => by simp [Token.isWord, hf]
  cases ha with
  | absent => exact ⟨_, rfl, rfl, declItem?_of_not_modifier h (hword _) (hword _) (hword _) x⟩
  | @present t ht =>
    refine ⟨{ DeclModifiers.startAt { exported := x } t with isAsync := true }, rfl, rfl, ?_⟩
    rw [declItem?, h, List.singleton_append, DeclModifiers.read, hline rfl,
      Token.isWord_of_ne ht (by decide), Token.isWord_of_ne ht (by decide), ht]
    simp [Token.isKeyword, hf, read_of_not_modifier (hword _) (hword _) (hword _)]

/-! ## Declarations by their keywords -/

/-- Where a name stands behind the word on its line, an interface is declared. -/
theorem declItem?_of_interface {x : ExportMode} {w n : Token} {ts : List Token}
    (h : p.ahead = w :: n :: ts) (hw : w.isWord "interface" = true) (hn : n.IsName)
    (hline : n.newlineBefore = false) :
    p.declItem? x = some (.complete (p.interfaceDecl { exported := x }).1,
      (p.interfaceDecl { exported := x }).2) := by
  have hk := Token.kind_of_isWord hw
  rw [declItem?_of_word h hw (by decide)]
  simp [declRest?, isKeyword_of_ahead h, isWord_of_ahead h, peekNext_of_ahead h,
    Token.isKeyword, hk, hw, hn.kind, hline]

/-- An alias is told by its third token, since `type` may be a name as well. -/
theorem declItem?_of_typeAlias {x : ExportMode} {w n e : Token} {ts : List Token}
    (h : p.ahead = w :: n :: e :: ts) (hx : x ≠ .asDefault) (hw : w.isWord "type" = true)
    (hn : n.IsName) (hline : n.newlineBefore = false) (he : e.kind = .punct .assign) :
    p.declItem? x = some (.complete (p.typeAliasDecl { exported := x }).1,
      (p.typeAliasDecl { exported := x }).2) := by
  have hk := Token.kind_of_isWord hw
  have hthird : p.cursor.peekAt 2 = e := by
    rw [Cursor.peekAt, show p.cursor.ahead = w :: n :: e :: ts from h]
    rfl
  rw [declItem?_of_word h hw (by decide)]
  simp [declRest?, atTypeAlias, isKeyword_of_ahead h, isWord_of_ahead h, peekNext_of_ahead h,
    hthird, Token.isKeyword, Token.isPunct, hk, hw, hn.kind, hline, he, hx,
    Token.isWord_of_ne hw (show bytes "type" ≠ bytes "interface" by decide),
    Token.isWord_of_ne hw (show bytes "type" ≠ bytes "let" by decide)]

/-- Where a name stands behind the word, a variable is declared. -/
theorem declItem?_of_variable {x : ExportMode} {w n : Token} {ts : List Token} {word : VarKeyword}
    (h : p.ahead = w :: n :: ts) (hx : x ≠ .asDefault) (hw : VarWord w word) (hn : n.IsName) :
    p.declItem? x = some (.complete (p.variableDecl { exported := x }).1,
      (p.variableDecl { exported := x }).2) := by
  cases hw with
  | constWord hk =>
    rw [declItem?_of_keyword h hk]
    simp [declRest?, isKeyword_of_ahead h, isWord_of_ahead h, peekNext_of_ahead h,
      Token.isKeyword, hk, hn.kind, w.isWord_of_keyword hk, hx]
  | varWord hk =>
    rw [declItem?_of_keyword h hk]
    simp [declRest?, isKeyword_of_ahead h, isWord_of_ahead h, Token.isKeyword, hk,
      w.isWord_of_keyword hk, hx]
  | letWord ht =>
    have hk := Token.kind_of_isWord ht
    rw [declItem?_of_word h ht (by decide)]
    simp [declRest?, isKeyword_of_ahead h, isWord_of_ahead h, peekNext_of_ahead h,
      Token.isKeyword, hk, ht, hn.kind, hx,
      Token.isWord_of_ne ht (show bytes "let" ≠ bytes "interface" by decide)]

/-- **A declaration is taken as a whole** by the reader of its kind. There is one case for each form
of the grammar. -/
theorem declItem?_of_declPhrase {x : ExportMode} {ts : List Token} {d : Decl}
    (h : p.ahead = ts ++ rest) (hh : p.halted = false) (hx : x ≠ .asDefault)
    (hd : DeclPhrase x ts d) :
    ∃ r, p.declItem? x = some (.complete r.1, r.2) ∧ Reads d (p.advance ts.length) r := by
  -- in each case the first two tokens choose the reader, which then takes the whole phrase
  cases hd with
  | @function a s params r body f n isAsync isGenerator ha hf hline hs hn hparams hr hbody =>
    simp only [List.append_assoc, List.cons_append] at h
    obtain ⟨m, hm, rfl, hitem⟩ := declItem?_of_async h ha hf hline
    have h₁ := ahead_advance_of_append h
    refine ⟨(p.advance a.length).functionDecl m, ?_, ?_⟩
    · rw [hitem, declRest?, isKeyword_of_ahead h₁, Token.isKeyword, hf, if_pos (by decide)]
    · have hread := reads_functionDecl h₁ hh hm hs hn hparams hr hbody
      rw [advance_advance] at hread
      simp only [List.length_cons, List.length_append]
      rwa [show a.length + (s.length + (params.length + (r.length + body.length) + 1) + 1)
        = a.length + (1 + s.length + 1 + params.length + r.length + body.length) by omega]
  | @interfaceForm w n body hw hn hline hbody =>
    have hread := reads_interfaceDecl h (m := { exported := x }) rfl hbody
    refine ⟨_, declItem?_of_interface h hw hn hline, ?_⟩
    rwa [show 1 + 1 + body.length = (w :: n :: body).length by simp; omega] at hread
  | @enumForm k n body hk hn hbody =>
    refine ⟨p.enumDecl { exported := x }, ?_, ?_⟩
    · rw [declItem?_of_keyword h hk]
      simp [declRest?, isKeyword_of_ahead h, isWord_of_ahead h, Token.isKeyword, hk,
        k.isWord_of_keyword hk, hx]
    · have hread := reads_enumDecl h (m := { exported := x }) rfl hn hbody
      rwa [show 1 + 1 + body.length = (k :: n :: body).length by simp; omega] at hread
  | @typeAlias w n e s T hw hn hline he hT hs =>
    simp only [List.append_assoc, List.cons_append, List.nil_append] at h
    have hread := reads_typeAliasDecl h (m := { exported := x }) hh rfl he hT hs
    refine ⟨_, declItem?_of_typeAlias h hx hw hn hline he, ?_⟩
    rwa [show 1 + 1 + 1 + T.length + 1 = (w :: n :: e :: (T ++ [s])).length by
      simp; omega] at hread
  | @variableForm w n e s E word hw hn he hE hs =>
    simp only [List.append_assoc, List.cons_append, List.nil_append] at h
    have hread := reads_variableDecl h (m := { exported := x }) hh rfl hw hn he hE hs
    refine ⟨_, declItem?_of_variable h hx hw hn, ?_⟩
    rwa [show 1 + 1 + 1 + E.length + 1 = (w :: n :: e :: (E ++ [s])).length by
      simp; omega] at hread
  | @classForm k n o c ts ms hk hn ho hts hc =>
    simp only [List.append_assoc, List.cons_append, List.nil_append] at h
    refine ⟨p.classDecl { exported := x }, ?_, ?_⟩
    · rw [declItem?_of_keyword h hk]
      simp [declRest?, isKeyword_of_ahead h, Token.isKeyword, hk]
    · have hread := reads_classDecl h (m := { exported := x }) hh rfl hn ho hts hc
      rwa [show 1 + 1 + 1 + ts.length + 1 = (k :: n :: o :: (ts ++ [c])).length by
        simp; omega] at hread

/-! ## Items -/

/-- The token starts a declaration before `n`, and no other item: it is a keyword or a word that no
export clause starts with. -/
structure StartsDecl (t n : Token) : Prop where
  kind : t.kind = .ident ∨ ∃ k, t.kind = .keyword k ∧ k ∉ [.exportKw, .importKw, .defaultKw]
  notAs : t.isWord "as" = false
  notTypeClause : t.isWord "type" = true → n.kind = .ident

/-- A word that starts a declaration, seen from its text. -/
theorem StartsDecl.of_word {t n : Token} {w : String} (hw : t.isWord w = true)
    (has : bytes w ≠ bytes "as") (hn : bytes w = bytes "type" → n.kind = .ident) :
    StartsDecl t n where
  kind := .inl (Token.kind_of_isWord hw)
  notAs := Token.isWord_of_ne hw has
  notTypeClause := fun htype => by
    by_cases hne : bytes w = bytes "type"
    · exact hn hne
    · rw [Token.isWord_of_ne hw hne] at htype
      exact absurd htype (by decide)

/-- A keyword that starts a declaration. -/
theorem StartsDecl.of_keyword {t : Token} {k : Keyword} (hk : t.kind = .keyword k)
    (hne : k ∉ [.exportKw, .importKw, .defaultKw]) (n : Token) : StartsDecl t n where
  kind := .inr ⟨k, hk, hne⟩
  notAs := t.isWord_of_keyword hk _
  notTypeClause := fun htype => by
    rw [t.isWord_of_keyword hk] at htype
    exact absurd htype (by decide)

/-- No sign starts a declaration. -/
theorem StartsDecl.isPunct {t n : Token} (h : StartsDecl t n) (k : Punct) :
    t.isPunct k = false := by
  rcases h.kind with hk | ⟨_, hk, -⟩ <;> simp [Token.isPunct, hk]

/-- None of the words of imports and exports starts a declaration. -/
theorem StartsDecl.isKeyword {t n : Token} (h : StartsDecl t n) {k : Keyword}
    (hk : k ∈ [Keyword.exportKw, .importKw, .defaultKw]) : t.isKeyword k = false := by
  rcases h.kind with ht | ⟨j, hj, hne⟩
  · simp [Token.isKeyword, ht]
  · rw [Token.isKeyword, hj, beq_eq_false_iff_ne]
    rintro heq
    rw [TokenKind.keyword.inj heq] at hne
    exact hne hk

/-- Every phrase of a declaration starts with two tokens that show it. -/
theorem startsDecl_of_declPhrase {x : ExportMode} {ts : List Token} {d : Decl}
    (hd : DeclPhrase x ts d) : ∃ t n tss, ts = t :: n :: tss ∧ StartsDecl t n := by
  cases hd with
  | function ha hf hline hs hn hparams hr hbody =>
    cases ha with
    | absent =>
      cases hs with
      | absent => exact ⟨_, _, _, rfl, .of_keyword hf (by decide) _⟩
      | present hstar => exact ⟨_, _, _, rfl, .of_keyword hf (by decide) _⟩
    | present hasync => exact ⟨_, _, _, rfl, .of_word hasync (by decide) (absurd · (by decide))⟩
  | interfaceForm hw hn hline hbody =>
    exact ⟨_, _, _, rfl, .of_word hw (by decide) fun _ => hn.kind⟩
  | enumForm hk hn hbody => exact ⟨_, _, _, rfl, .of_keyword hk (by decide) _⟩
  | typeAlias hw hn hline he hT hs =>
    exact ⟨_, _, _, rfl, .of_word hw (by decide) fun _ => hn.kind⟩
  | variableForm hw hn he hE hs =>
    cases hw with
    | constWord hk => exact ⟨_, _, _, rfl, .of_keyword hk (by decide) _⟩
    | varWord hk => exact ⟨_, _, _, rfl, .of_keyword hk (by decide) _⟩
    | letWord ht => exact ⟨_, _, _, rfl, .of_word ht (by decide) fun _ => hn.kind⟩
  | classForm hk hn ho hts hc => exact ⟨_, _, _, rfl, .of_keyword hk (by decide) _⟩

/-- Behind the word of an export, a declaration that was found is the item. -/
theorem exportItem_of_startsDecl {t n : Token} {ts : List Token} {r : Item × Parser}
    (h : p.ahead = t :: n :: ts) (ht : StartsDecl t n) (hr : p.declItem? .named = some r) :
    p.exportItem = r := by
  -- nothing of what may stand behind `export` starts here but a declaration
  have hclause : p.atExportClause = false := by
    rw [atExportClause, isPunct_of_ahead h, isPunct_of_ahead h, isKeyword_of_ahead h,
      isWord_of_ahead h, isWord_of_ahead h, peekNext_of_ahead h, ht.isPunct, ht.isPunct,
      ht.isKeyword (by decide), ht.notAs]
    cases htype : t.isWord "type" with
    | false => rfl
    | true => simp [Token.isPunct, ht.notTypeClause htype]
  rw [exportItem, isKeyword_of_ahead h, ht.isKeyword (by decide), if_neg (by decide),
    isPunct_of_ahead h, ht.isPunct, if_neg (by decide), hclause, if_neg (by decide),
    skipDecorators_of_not h (ht.isPunct _)]
  dsimp only
  rw [hr]

/-- A declaration that starts behind `export`, or without it, is what the item is. -/
theorem item_of_startsDecl {x ts : List Token} {exported : Bool} {t n : Token} {r : Item × Parser}
    (h : p.ahead = x ++ t :: n :: ts)
    (hx : Mark (fun t => t.kind = .keyword .exportKw) x exported) (ht : StartsDecl t n)
    (hr : (p.advance x.length).declItem? (exportMode exported) = some r) : p.item = r := by
  cases hx with
  | absent =>
    have hr' : p.declItem? .none = some r := hr
    rw [item, isPunct_of_ahead h, ht.isPunct, if_neg (by decide)]
    dsimp only
    rw [skipDecorators_of_not h (ht.isPunct _), isKeyword_of_ahead h, ht.isKeyword (by decide),
      if_neg (by decide), isKeyword_of_ahead h, ht.isKeyword (by decide), if_neg (by decide), hr']
  | @present e he =>
    have hr' : p.bump.declItem? .named = some r := hr
    have hpunct : ∀ k, e.isPunct k = false := fun k => by simp [Token.isPunct, he]
    rw [item, isPunct_of_ahead h, hpunct, if_neg (by decide)]
    dsimp only
    rw [skipDecorators_of_not h (hpunct _), isKeyword_of_ahead h, Token.isKeyword, he,
      if_neg (by decide), isKeyword_of_ahead h, Token.isKeyword, he, if_pos (by decide),
      exportItem_of_startsDecl (ahead_bump_of_cons h) ht hr']

/-- A namespace is taken up to its opening brace. Its head is the word, a name without dots and the
brace, behind `export` if it is exported. -/
theorem item_of_namespace {x ts : List Token} {exported : Bool} {w n o : Token}
    (h : p.ahead = x ++ w :: n :: o :: ts)
    (hx : Mark (fun t => t.kind = .keyword .exportKw) x exported)
    (hw : w.isWord "namespace" = true) (hn : n.IsName) (hline : n.newlineBefore = false)
    (hsource : p.source.slice n.span.lo n.span.hi = n.lexeme)
    (ho : o.kind = .punct .openBrace) :
    ∃ s body, s.head.bare = .ofName (exportMode exported) n.lexeme ∧ s.isGlobal = false ∧
      p.item = (.opened s body, p.advance (x.length + 3)) := by
  have hk := Token.kind_of_isWord hw
  have h₀ : (p.advance x.length).ahead = w :: n :: o :: ts := ahead_advance_of_append h
  have h₁ := ahead_bump_of_cons h₀
  have h₂ := ahead_bump_of_cons h₁
  have hpath : dottedName n (o :: ts) = (0, n) := by
    cases ts with
    | nil => rfl
    | cons t ts => rw [dottedName, Token.isPunct, ho]; rfl
  have hbrace : (p.advance x.length).bump.bump.isPunct .openBrace = true := by
    simp [isPunct_of_ahead h₂, Token.isPunct, ho]
  have hglobal : w.isWord "global" = false := Token.isWord_of_ne hw (by decide)
  have hstring : n.kind ≠ .stringLit := by simp [hn.kind]
  refine ⟨⟨{ exported := exportMode exported, name := n.lexeme, nameSpan := n.span.join n.span },
    false, w.span.lo⟩, o.span.lo, rfl, rfl, ?_⟩
  apply item_of_startsDecl h hx (.of_word hw (by decide) fun _ => hn.kind)
  rw [declItem?_of_word h₀ hw (by decide)]
  have hmode : exportMode exported ≠ .asDefault := by cases exported <;> decide
  have hspace : (p.advance x.length).declRest? (exportMode exported = .asDefault)
        { exported := exportMode exported }
      = some ((p.advance x.length).namespaceItem { exported := exportMode exported }) := by
    simp [declRest?, atTypeAlias, isKeyword_of_ahead h₀, isWord_of_ahead h₀, peekNext_of_ahead h₀,
      Token.isKeyword, hk, hw, hn.kind, hline, hmode,
      Token.isWord_of_ne hw (show bytes "namespace" ≠ bytes "interface" by decide),
      Token.isWord_of_ne hw (show bytes "namespace" ≠ bytes "let" by decide),
      Token.isWord_of_ne hw (show bytes "namespace" ≠ bytes "type" by decide)]
  rw [hspace, namespaceItem, spaceStart]
  simp only [peek_of_ahead h₀, hglobal, Bool.false_eq_true, if_false, peek_of_ahead h₁, hstring, h₂,
    hpath, advance_zero, hbrace, if_true, peek_of_ahead h₂, declStart, Option.getD_none]
  rw [show (p.advance x.length).bump.bump.source = p.source from rfl, hsource, bump_eq_advance,
    bump_eq_advance, bump_eq_advance, advance_advance, advance_advance, advance_advance]
  rfl

/-! ## Modules -/

/-- The items do not end before a declaration. -/
theorem itemsEnd_of_startsDecl {x ts : List Token} {exported : Bool} {t n : Token}
    (h : p.ahead = x ++ t :: n :: ts)
    (hx : Mark (fun t => t.kind = .keyword .exportKw) x exported) (ht : StartsDecl t n)
    (hh : p.halted = false) (inBody : Bool) : ¬ p.itemsEnd inBody = true := by
  obtain ⟨u, us, hu, hbrace⟩ : ∃ u us, p.ahead = u :: us ∧ u.isPunct .closeBrace = false := by
    cases hx with
    | absent => exact ⟨_, _, h, ht.isPunct _⟩
    | present he => exact ⟨_, _, h, by simp [Token.isPunct, he]⟩
  rw [itemsEnd, atEnd_of_ahead hu, hh, isPunct_of_ahead hu, hbrace, Bool.and_false]
  decide

/-- Behind the tokens that an item takes, at least one, the next item starts. -/
theorem pastItem_advance {n : Nat} (hn : n ≠ 0) (h : p.atEnd = false) :
    pastItem p (p.advance n) = p.advance n := by
  have hlt := left_bump_lt h
  rw [left_bump] at hlt
  rw [pastItem, if_neg]
  rw [left_advance]
  omega

/-- The first `n` tokens are items that declare `ds`, and the items go on behind them. -/
structure TakesItems (inBody : Bool) (ds : List Decl) (n : Nat) (p : Parser) : Prop where
  decls : Decl.bareAll (itemsFrom inBody p).1.1
    = ds ++ Decl.bareAll (itemsFrom inBody (p.advance n)).1.1
  state : (itemsFrom inBody p).1.2 = (itemsFrom inBody (p.advance n)).1.2

/-- Items taken one after the other are taken together. -/
theorem TakesItems.append {inBody : Bool} {ds es : List Decl} {m n : Nat}
    (h : TakesItems inBody ds m p) (hrest : TakesItems inBody es n (p.advance m)) :
    TakesItems inBody (ds ++ es) (m + n) p := by
  obtain ⟨hdecls, hstate⟩ := hrest
  rw [advance_advance] at hdecls hstate
  exact ⟨by rw [h.decls, hdecls, List.append_assoc], h.state.trans hstate⟩

/-- One round of the loop, when the item declares `d`. -/
theorem takesItems_one {inBody : Bool} {d d' : Decl} {n : Nat}
    (hend : ¬ p.itemsEnd inBody = true) (hdecls : p.itemDecls = [d']) (hbare : d'.bare = d)
    (hpast : p.afterItem = p.advance n) : TakesItems inBody [d] n p := by
  constructor <;> rw [itemsFrom_eq hend, hdecls, hpast]
  rw [List.singleton_append, List.singleton_append, Decl.bareAll, hbare]

/-- A declaration is taken whole. -/
theorem takesItems_of_declPhrase {x ts : List Token} {exported : Bool} {d : Decl} {inBody : Bool}
    (h : p.ahead = x ++ (ts ++ rest)) (hh : p.halted = false)
    (hx : Mark (fun t => t.kind = .keyword .exportKw) x exported)
    (hd : DeclPhrase (exportMode exported) ts d) :
    TakesItems inBody [d] (x.length + ts.length) p := by
  have hmode : exportMode exported ≠ .asDefault := by cases exported <;> decide
  obtain ⟨r, hr, d', hbare, rfl⟩ := declItem?_of_declPhrase (ahead_advance_of_append h) hh hmode hd
  obtain ⟨t, n, tail, rfl, ht⟩ := startsDecl_of_declPhrase hd
  have hend := itemsEnd_of_startsDecl h hx ht hh inBody
  have hitem := item_of_startsDecl h hx ht hr
  refine takesItems_one hend (itemDecls_of_complete hitem) hbare ?_
  rw [afterItem_of_complete hitem, advance_advance]
  refine pastItem_advance ?_ (atEnd_of_itemsEnd hend)
  rw [List.length_cons]
  omega

/-- A namespace is taken with its body, if the items of the body are. It is one item, with the items
of its body as children. -/
theorem takesItems_of_namespace {x ts : List Token} {w n o c : Token} {exported : Bool}
    {children : List Decl} {inBody : Bool} (h : p.ahead = x ++ w :: n :: o :: (ts ++ c :: rest))
    (hh : p.halted = false) (hx : Mark (fun t => t.kind = .keyword .exportKw) x exported)
    (hw : w.isWord "namespace" = true) (hn : n.IsName) (hline : n.newlineBefore = false)
    (hsource : p.source.slice n.span.lo n.span.hi = n.lexeme) (ho : o.kind = .punct .openBrace)
    (hc : c.kind = .punct .closeBrace)
    (hinner : TakesItems true children ts.length (p.advance (x.length + 3))) :
    TakesItems inBody [.space (.ofName (exportMode exported) n.lexeme) false children]
      (x.length + 3 + ts.length + 1) p := by
  obtain ⟨s, body, hhead, hglobal, hitem⟩ := item_of_namespace h hx hw hn hline hsource ho
  have hend := itemsEnd_of_startsDecl h hx (.of_word hw (by decide) fun _ => hn.kind) hh inBody
  have hinside : (p.advance (x.length + 3)).ahead = ts ++ c :: rest := by
    rw [ahead_advance, h, ← List.drop_drop, List.drop_left]
    rfl
  -- the items inside end at the closing brace
  obtain ⟨hchildren, hstate⟩ := hinner
  have hclose := ahead_advance_of_append hinside
  have hinnerEnd : ((p.advance (x.length + 3)).advance ts.length).itemsEnd true = true := by
    simp [itemsEnd, isPunct_of_ahead hclose, Token.isPunct, hc]
  rw [itemsFrom_of_itemsEnd hinnerEnd] at hchildren hstate
  -- and behind the brace the items of the module go on
  have hexpect := expect_of_isPunct (k := .closeBrace) hclose hh (by simp [Token.isPunct, hc])
  refine takesItems_one hend (itemDecls_of_opened hitem) ?_ ?_
  · rw [SpaceStart.finish, Decl.bare, hchildren, hglobal, ← hhead, Decl.bareAll, List.append_nil]
    rfl
  · rw [afterItem_of_opened hitem, hstate, hexpect, advance_advance, advance_advance]
    rfl

/-- **Well-formed items are read one after the other.** In front of a well-formed stretch the items
are its declarations and then those behind it. -/
theorem itemsFrom_of_written {source : Bytes} {ts : List Token} {ds : List Decl}
    (hw : Written source ts ds) (inBody : Bool) (hsource : p.source = source)
    (hh : p.halted = false) (h : p.ahead = ts ++ rest) : TakesItems inBody ds ts.length p := by
  -- the state is general, since the items of a namespace start at a state of their own
  induction hw generalizing p rest inBody with
  | nil => exact ⟨rfl, rfl⟩
  | @decl x ts tss exported d ds hx hd hrest ih =>
    rw [List.append_assoc, List.append_assoc] at h
    have hnext : (p.advance (x.length + ts.length)).ahead = tss ++ rest := by
      rw [ahead_advance, h, ← List.drop_drop, List.drop_left, List.drop_left]
    rw [List.length_append, List.length_append, ← Nat.add_assoc]
    exact (takesItems_of_declPhrase h hh hx hd).append
      (ih (p := p.advance _) inBody hsource hh hnext)
  | @space x ts tss w n o c exported children ds hx hw hn hline hname ho hinner hc hrest
      ihInner ih =>
    simp only [List.append_assoc, List.cons_append] at h
    subst hsource
    have hinside : (p.advance (x.length + 3)).ahead = ts ++ c :: (tss ++ rest) := by
      rw [ahead_advance, h, ← List.drop_drop, List.drop_left]
      rfl
    have hnext : (p.advance (x.length + 3 + ts.length + 1)).ahead = tss ++ rest := by
      rw [← advance_advance, ← advance_advance]
      exact ahead_bump_of_cons (ahead_advance_of_append hinside)
    have hlength : (x ++ w :: n :: o :: (ts ++ c :: tss)).length
        = x.length + 3 + ts.length + 1 + tss.length := by
      simp only [List.length_append, List.length_cons]
      omega
    rw [hlength]
    exact (takesItems_of_namespace h hh hx hw hn hline hname ho hc
      (ihInner (p := p.advance _) true rfl hh hinside)).append
        (ih (p := p.advance _) inBody rfl hh hnext)

end Parser

/-! ## Whole sources -/

/-- The cursor before a token list stands before all its tokens but the end marker. -/
theorem ahead_ofTokens_of_noEnd {ts : List Token} (h : NoEnd ts) {e : Token} (he : e.kind = .eof) :
    (Cursor.ofTokens (ts ++ [e])).ahead = ts := by
  have hall : ∀ t ∈ ts, (t.kind != .eof) = true := fun t ht => by simp [h t ht]
  rw [Cursor.ofTokens]
  dsimp only
  rw [List.takeWhile_append_of_pos hall, List.takeWhile_cons, he]
  simp

/-- **Well-formed modules are parsed completely.** The parse of a well-formed module reports nothing
and returns exactly its declarations, in order and with their kinds, names, export modes, members
and children. -/
theorem parseModule_of_written {source : Bytes} {ts : List Token} {ds : List Decl}
    (hw : Written source ts ds) {e : Token} (he : e.kind = .eof) (tolerance : Option Nat)
    {before : List Diagnostic} (hbefore : Diagnostic.hasCode .invalidUtf8 before = false) :
    (parseModule source tolerance before (ts ++ [e])).found = []
      ∧ Decl.bareAll (parseModule source tolerance before (ts ++ [e])).decls = ds := by
  let start := moduleStart source tolerance before (ts ++ [e])
  have hh : start.halted = false := by
    show (tolerance.isSome && Diagnostic.hasCode .invalidUtf8 before) = false
    rw [hbefore, Bool.and_false]
  have hahead : start.ahead = ts ++ [] := by
    rw [List.append_nil]
    exact ahead_ofTokens_of_noEnd hw.noEnd he
  obtain ⟨hdecls, hstate⟩ := Parser.itemsFrom_of_written (p := start) hw false rfl hh hahead
  -- behind the last item nothing is ahead but the end marker, so that no more items follow
  have hend : (start.advance ts.length).itemsEnd false = true := by
    rw [Parser.itemsEnd, Parser.atEnd_iff.mpr (Parser.ahead_advance_of_append hahead), Bool.true_or,
      Bool.true_or]
  rw [Parser.itemsFrom_of_itemsEnd hend] at hdecls hstate
  refine ⟨?_, ?_⟩
  · show (start.itemsFrom false).1.2.found = []
    rw [hstate]
    rfl
  · show Decl.bareAll (start.itemsFrom false).1.1 = ds
    rw [hdecls, Decl.bareAll, List.append_nil]

/-! ### A module with all kinds of groups -/

namespace Sample

/-- A namespace with a function and a class in it, and a variable behind it. -/
def source : Bytes :=
  bytes "export namespace N \x7b async function* f(a): T \x7b g(\x7b\x7d) \x7d class C "
    ++ bytes "\x7b constructor() \x7b\x7d y: T; \x7d \x7d let x = f([1, 2]);"

/-- A word at an offset of the sample. -/
def word (lo : Nat) (text : String) : Token := ⟨.ident, ⟨lo, lo + text.length⟩, bytes text, false⟩

/-- A sign at an offset of the sample. -/
def sign (lo : Nat) (p : Punct) : Token := ⟨.punct p, ⟨lo, lo + p.text.length⟩, bytes p.text, false⟩

/-- A keyword at an offset of the sample. -/
def reserved (lo : Nat) (k : Keyword) : Token :=
  ⟨.keyword k, ⟨lo, lo + k.text.length⟩, bytes k.text, false⟩

/-- A digit at an offset of the sample. -/
def digit (lo : Nat) (text : String) : Token := ⟨.numberLit, ⟨lo, lo + 1⟩, bytes text, false⟩

/-- The tokens of the function. -/
def functionTokens : List Token :=
  [word 21 "async"] ++ reserved 27 .functionKw :: ([sign 35 .star] ++ word 37 "f" ::
    ((sign 38 .openParen :: ([word 39 "a"] ++ [sign 40 .closeParen]))
      ++ ((sign 41 .colon :: [word 43 "T"])
        ++ (sign 45 .openBrace :: ((word 47 "g" :: sign 48 .openParen ::
          ((sign 49 .openBrace :: ([] ++ sign 50 .closeBrace :: [])) ++ sign 51 .closeParen :: []))
            ++ [sign 53 .closeBrace])))))

/-- The tokens of the class. -/
def classTokens : List Token :=
  reserved 55 .classKw :: word 61 "C" :: sign 63 .openBrace ::
    ((word 65 "constructor" :: ((sign 76 .openParen :: ([] ++ [sign 77 .closeParen]))
      ++ ((sign 79 .openBrace :: ([] ++ [sign 80 .closeBrace]))
        ++ (word 82 "y" :: sign 83 .colon :: ([word 85 "T"] ++ sign 86 .semicolon :: [])))))
      ++ [sign 88 .closeBrace])

/-- The tokens of the variable. -/
def variableTokens : List Token :=
  word 92 "let" :: word 96 "x" :: sign 98 .assign ::
    ((word 100 "f" :: sign 101 .openParen :: ((sign 102 .openBracket ::
      ((digit 103 "1" :: sign 104 .comma :: [digit 106 "2"]) ++ sign 107 .closeBracket :: []))
        ++ sign 108 .closeParen :: [])) ++ [sign 109 .semicolon])

/-- The tokens of the whole sample. -/
def tokens : List Token :=
  [reserved 0 .exportKw] ++ word 7 "namespace" :: word 17 "N" :: sign 19 .openBrace ::
    (([] ++ (functionTokens ++ ([] ++ (classTokens ++ [])))) ++ sign 90 .closeBrace ::
      ([] ++ (variableTokens ++ [])))

/-- What the sample declares. -/
def decls : List Decl :=
  [.space (.ofName .named (bytes "N")) false
    [.item (.ofName .none (bytes "f")) (.function true true),
      .item (.ofName .none (bytes "C")) (.classForm false
        [Member.ofMethod (bytes "constructor"), Member.ofProperty (bytes "y")])],
    .item (.ofName .none (bytes "x")) (.variableForm .letWord false)]

/-- The tokens of the function are the phrase of its declaration. -/
theorem declPhrase_function : DeclPhrase .none functionTokens
    (.item (.ofName .none (bytes "f")) (.function true true)) :=
  .function (.present (by decide)) rfl (fun _ => rfl) (.present rfl) ⟨rfl, by decide⟩
    (.mk rfl rfl (.plain ⟨rfl, rfl, by decide⟩ .nil))
    (.present rfl (.of_name rfl (by decide) (by decide)))
    (.mk rfl rfl (.plain ⟨rfl, rfl, by decide⟩
      (.group rfl rfl (.group rfl rfl .nil .nil) .nil)))

/-- The tokens of the class are the phrase of its declaration. -/
theorem declPhrase_class : DeclPhrase .none classTokens
    (.item (.ofName .none (bytes "C")) (.classForm false
      [Member.ofMethod (bytes "constructor"), Member.ofProperty (bytes "y")])) :=
  .classForm rfl ⟨rfl, by decide⟩ rfl
    (.method ⟨rfl, by decide⟩ (.mk rfl rfl .nil) (.mk rfl rfl .nil)
      (.property ⟨rfl, by decide⟩ rfl (.of_name rfl (by decide) (by decide)) rfl .nil)) rfl

/-- The tokens of the variable are the phrase of its declaration. -/
theorem declPhrase_variable : DeclPhrase .none variableTokens
    (.item (.ofName .none (bytes "x")) (.variableForm .letWord false)) :=
  .variableForm (.letWord (by decide)) ⟨rfl, by decide⟩ rfl
    (.plain ⟨rfl, rfl, by decide⟩ ⟨rfl, rfl, rfl, rfl⟩ (.group rfl rfl rfl
      (.group rfl rfl (.plain ⟨rfl, rfl, by decide⟩ (.plain ⟨rfl, rfl, by decide⟩
        (.plain ⟨rfl, rfl, by decide⟩ .nil))) .nil) .nil)) rfl

/-- The sample is written as the grammar says. -/
theorem written_tokens : Written source tokens decls :=
  .space (.present rfl) (by decide) ⟨rfl, by decide⟩ rfl (by decide +kernel) rfl
    (.decl .absent declPhrase_function (.decl .absent declPhrase_class .nil)) rfl
    (.decl .absent declPhrase_variable .nil)

end Sample

/-- The module is the source as it is lexed, and is parsed completely. -/
theorem parseModule_sample :
    (lex .typeScript Sample.source).tokens = Sample.tokens ++ [Token.eofAt 110]
      ∧ Written Sample.source Sample.tokens Sample.decls
      ∧ (parseModule Sample.source (some 64) [] (Sample.tokens ++ [Token.eofAt 110])).found = []
      ∧ Decl.bareAll
          (parseModule Sample.source (some 64) [] (Sample.tokens ++ [Token.eofAt 110])).decls
        = Sample.decls :=
  ⟨by decide +kernel, Sample.written_tokens,
    parseModule_of_written Sample.written_tokens rfl (some 64) rfl⟩

end SignatureLedger
