import SignatureLedger.Proofs.Declaration.Grammar
import SignatureLedger.Proofs.Declaration.TypeRules

/-!
# Phrases are taken as a whole

The parser takes each part of the grammar exactly: behind the keyword of a declaration it advances
over the name, the groups and the value, and gives the declaration that the grammar gives, apart
from its places (`Parser.Reads`). The members of a class are read one by one
(`membersFrom_of_phrase`).
-/

namespace SignatureLedger

/-- A name that is no type operator is a type phrase, unless the sign behind it continues a type. -/
theorem TypePhrase.of_name {t : Token} {next : Punct} (ht : t.kind = .ident)
    (hop : t.isTypeOperator = false) (hnext : next ∉ [.dot, .less, .openBracket, .bar, .amp]) :
    TypePhrase next [t] where
  noEnd := fun u hu => by
    rw [List.mem_singleton.mp hu, ht]
    exact TokenKind.noConfusion
  exact := fun _ _ _ hh h hu => Parser.skipType_of_name h hh ht hop hu hnext

namespace Parser

variable {p : Parser} {rest : List Token}

/-! ## Parts of declarations -/

/-- A mark is skipped, whether it is there or not. -/
theorem skipPunct_of_mark {k : Punct} {s : List Token} {b : Bool} {t : Token}
    (hs : Mark (fun t => t.kind = .punct k) s b) (h : p.ahead = s ++ t :: rest)
    (ht : t.isPunct k = false) : p.isPunct k = b ∧ p.skipPunct k = p.advance s.length := by
  cases hs with
  | absent => exact ⟨(isPunct_of_ahead h k).trans ht, skipPunct_of_not h ht⟩
  | present hk =>
    have hp : p.isPunct k = true := by rw [isPunct_of_ahead h, Token.isPunct, hk, beq_self_eq_true]
    exact ⟨hp, by rw [skipPunct, hp]; rfl⟩

/-- The parameters are taken from parenthesis to parenthesis. -/
theorem takeParens_of_enclosed {params : List Token} (hB : Enclosed .openParen .closeParen params)
    (h : p.ahead = params ++ rest) :
    (if p.isPunct .openParen then p.takeGroup else (p.expect .openParen).2)
      = p.advance params.length := by
  have hgroup := takeGroup_of_enclosed rfl rfl hB h
  cases hB with
  | mk ho hc hinner =>
    rw [isPunct_of_ahead h, Token.isPunct, ho, if_pos (by decide), hgroup]

/-- The type of the result is skipped up to the body. -/
theorem resultType_of_phrase {r body : List Token} (h : p.ahead = r ++ (body ++ rest))
    (hh : p.halted = false) (hr : ResultPhrase r) (hB : Enclosed .openBrace .closeBrace body) :
    (if p.isPunct .colon then p.bump.skipType else p) = p.advance r.length := by
  cases hB with
  | mk ho hc hinner =>
    cases hr with
    | absent => rw [isPunct_of_ahead h, Token.isPunct, ho]; rfl
    | present hcolon hT =>
      rw [isPunct_of_ahead h, Token.isPunct, hcolon, if_pos (by decide),
        hT.exact p.bump _ _ hh (ahead_bump_of_cons h) ho, bump_eq_advance, advance_advance,
        List.length_cons, Nat.add_comm]

/-- A body in braces is read from its opening brace to behind its closing one. -/
theorem body?_of_enclosed {body : List Token} (hB : Enclosed .openBrace .closeBrace body)
    (h : p.ahead = body ++ rest) :
    p.body? = (some p.peek.span.lo, p.advance body.length) := by
  have hgroup := takeGroup_of_enclosed rfl rfl hB h
  cases hB with
  | mk ho hc hinner =>
    rw [body?, isPunct_of_ahead h, Token.isPunct, ho, if_pos (by decide), hgroup]

/-! ## Declarations -/

/-- The reading has given one declaration, which is `d` apart from its places, and stopped at `q`.
-/
def Reads (d : Decl) (q : Parser) (r : List Decl × Parser) : Prop :=
  ∃ d', d'.bare = d ∧ r = ([d'], q)

/-- A declaration that is read, seen from both its parts. -/
theorem Reads.intro {d d' : Decl} {q q' : Parser} (hd : d'.bare = d) (hq : q' = q) :
    Reads d q ([d'], q') := ⟨d', hd, by rw [hq]⟩

/-- The phrase of a function is read as the function. Its parts stand one behind the other, and each
is passed by the lemma for its phrase. -/
theorem reads_functionDecl {m : DeclModifiers} {x : ExportMode} {f n : Token}
    {s params r body : List Token} {isGenerator : Bool}
    (h : p.ahead = f :: (s ++ n :: (params ++ (r ++ (body ++ rest)))))
    (hh : p.halted = false) (hm : m.head = { exported := x })
    (hs : Mark (fun t => t.kind = .punct .star) s isGenerator) (hn : n.IsName)
    (hparams : Enclosed .openParen .closeParen params) (hr : ResultPhrase r)
    (hbody : Enclosed .openBrace .closeBrace body) :
    Reads (.item (.ofName x n.lexeme) (.function m.isAsync isGenerator))
      (p.advance (1 + s.length + 1 + params.length + r.length + body.length))
      (p.functionDecl m) := by
  have hb := ahead_bump_of_cons h
  obtain ⟨hstar, hskip⟩ := skipPunct_of_mark hs hb (by simp [Token.isPunct, hn.kind])
  have h₁ : (p.bump.advance s.length).ahead = n :: (params ++ (r ++ (body ++ rest))) :=
    ahead_advance_of_append hb
  have h₂ := ahead_bump_of_cons h₁
  have htypes : (p.bump.advance s.length).bump.typeParams?
      = (none, (p.bump.advance s.length).bump) := by
    cases hparams with
    | mk ho hc hinner => exact typeParams?_of_not h₂ (by simp [Token.isPunct, ho])
  have hgroup := takeParens_of_enclosed hparams h₂
  have h₃ := ahead_advance_of_append h₂
  have hresult := resultType_of_phrase h₃ hh hr hbody
  have h₄ := ahead_advance_of_append h₃
  have hbraces := body?_of_enclosed hbody h₄
  unfold functionDecl
  simp only [hskip, hstar, peek_of_ahead h₁, hn.kind, ne_eq, not_true_eq_false, false_and, if_false,
    if_true, htypes, hgroup, hresult, hbraces, hm, Option.isSome_some]
  exact Reads.intro rfl (by simp only [bump_eq_advance, advance_advance])

/-- The phrase of an interface is read as the interface. -/
theorem reads_interfaceDecl {m : DeclModifiers} {x : ExportMode} {w n : Token} {body : List Token}
    (h : p.ahead = w :: n :: (body ++ rest)) (hm : m.head = { exported := x })
    (hbody : Enclosed .openBrace .closeBrace body) :
    Reads (.item (.ofName x n.lexeme) .interfaceForm) (p.advance (1 + 1 + body.length))
      (p.interfaceDecl m) := by
  have h₁ := ahead_bump_of_cons h
  have h₂ := ahead_bump_of_cons h₁
  have hbraces := body?_of_enclosed hbody h₂
  have hbrace : p.bump.bump.typeParams? = (none, p.bump.bump)
      ∧ p.bump.bump.skipHeritage = p.bump.bump
      ∧ p.bump.bump.isPunct .openBrace = true := by
    cases hbody with
    | mk ho hc hinner =>
      refine ⟨typeParams?_of_not h₂ (by simp [Token.isPunct, ho]), ?_, ?_⟩
      · exact skipHeritage_of_openBrace h₂ (by simp [Token.isPunct, ho])
      · rw [isPunct_of_ahead h₂, Token.isPunct, ho, beq_self_eq_true]
  unfold interfaceDecl requiredBody
  simp only [peek_of_ahead h₁, hbrace.1, hbrace.2.1, hbrace.2.2, if_true, hbraces, hm]
  exact Reads.intro rfl (by simp only [bump_eq_advance, advance_advance])

/-- The phrase of an enumeration is read as the enumeration. -/
theorem reads_enumDecl {m : DeclModifiers} {x : ExportMode} {k n : Token} {body : List Token}
    (h : p.ahead = k :: n :: (body ++ rest)) (hm : m.head = { exported := x }) (hn : n.IsName)
    (hbody : Enclosed .openBrace .closeBrace body) :
    Reads (.item (.ofName x n.lexeme) .enumForm) (p.advance (1 + 1 + body.length))
      (p.enumDecl m) := by
  have h₁ := ahead_bump_of_cons h
  have h₂ := ahead_bump_of_cons h₁
  have hbraces := body?_of_enclosed hbody h₂
  have hbrace : p.bump.bump.isPunct .openBrace = true := by
    cases hbody with
    | mk ho hc hinner => rw [isPunct_of_ahead h₂, Token.isPunct, ho, beq_self_eq_true]
  unfold enumDecl requiredBody
  simp only [peek_of_ahead h₁, hn.kind, hbrace, if_true, hbraces, hm]
  exact Reads.intro rfl (by simp only [bump_eq_advance, advance_advance])

/-- The phrase of an alias is read as the alias. -/
theorem reads_typeAliasDecl {m : DeclModifiers} {x : ExportMode} {w n e s : Token} {T : List Token}
    (h : p.ahead = w :: n :: e :: (T ++ s :: rest)) (hh : p.halted = false)
    (hm : m.head = { exported := x }) (he : e.kind = .punct .assign)
    (hT : TypePhrase .semicolon T) (hs : s.kind = .punct .semicolon) :
    Reads (.item (.ofName x n.lexeme) .typeAlias) (p.advance (1 + 1 + 1 + T.length + 1))
      (p.typeAliasDecl m) := by
  have h₁ := ahead_bump_of_cons h
  have h₂ := ahead_bump_of_cons h₁
  have h₃ := ahead_bump_of_cons h₂
  have htypes : p.bump.bump.typeParams? = (none, p.bump.bump) :=
    typeParams?_of_not h₂ (by simp [Token.isPunct, he])
  have hassign : p.bump.bump.expect .assign = (true, p.bump.bump.bump) :=
    expect_of_isPunct h₂ hh (by simp [Token.isPunct, he])
  have htype := hT.exact p.bump.bump.bump _ _ hh h₃ hs
  have hfinish := finishItem_of_semicolon (ahead_advance_of_append h₃) (by simp [Token.isPunct, hs])
  unfold typeAliasDecl
  simp only [peek_of_ahead h₁, htypes, hassign, if_true, htype, hfinish, hm]
  exact Reads.intro rfl (by simp only [bump_eq_advance, advance_advance])

/-! ### Variables -/

/-- The value of a variable is skipped up to its semicolon. -/
theorem skipInitializer_of_value {e s : Token} {E : List Token}
    (h : p.ahead = e :: (E ++ s :: rest))
    (hh : p.halted = false) (he : e.kind = .punct .assign) (hE : InitialValue E)
    (hs : s.kind = .punct .semicolon) : p.skipInitializer = p.bump.advance E.length := by
  have hvalue := expr_of_initialValue hE (s := s) (by simp [Token.isPunct, hs]) rest none
  have hassign : p.isPunct .assign = true := by simp [isPunct_of_ahead h, Token.isPunct, he]
  rw [skipInitializer, hassign, if_pos rfl, skipExpr, halted_bump, hh, if_neg (by decide),
    ahead_bump_of_cons h, hvalue, take_of_closed]

/-- So is all that follows its name. -/
theorem declaratorRest_of_value {e s : Token} {E : List Token} (h : p.ahead = e :: (E ++ s :: rest))
    (hh : p.halted = false) (he : e.kind = .punct .assign) (hE : InitialValue E)
    (hs : s.kind = .punct .semicolon) : p.declaratorRest = p.bump.advance E.length := by
  have hbang : p.skipPunct .bang = p := skipPunct_of_not h (by simp [Token.isPunct, he])
  have hcolon : p.isPunct .colon = false := by simp [isPunct_of_ahead h, Token.isPunct, he]
  unfold declaratorRest
  simp only [hbang, hcolon, Bool.false_eq_true, if_false, skipInitializer_of_value h hh he hE hs]

/-- One declared variable is read with its semicolon. It has a name, a value behind the sign `=`,
and nothing else. -/
theorem reads_declarators {m : DeclModifiers} {x : ExportMode} (word : VarKeyword)
    {n e s : Token} {E : List Token} (h : p.ahead = n :: e :: (E ++ s :: rest))
    (hh : p.halted = false)
    (hm : m.head = { exported := x }) (hn : n.IsName) (he : e.kind = .punct .assign)
    (hE : InitialValue E) (hs : s.kind = .punct .semicolon) :
    Reads (.item (.ofName x n.lexeme) (.variableForm word false))
      (p.advance (1 + 1 + E.length + 1)) (declarators m word p) := by
  have h₁ := ahead_bump_of_cons h
  have hrest := declaratorRest_of_value h₁ hh he hE hs
  have h₂ : (p.bump.bump.advance E.length).ahead = s :: rest :=
    ahead_advance_of_append (ahead_bump_of_cons h₁)
  have hcomma : (p.bump.bump.advance E.length).isPunct .comma = false := by
    simp [isPunct_of_ahead h₂, Token.isPunct, hs]
  have hfinish := finishItem_of_semicolon h₂ (by simp [Token.isPunct, hs])
  have hname : p.declaratorName?
      = some ({ name := n.lexeme, nameSpan := n.span }, false, p.bump) := by
    rw [declaratorName?, peek_of_ahead h, if_pos hn.kind]
  -- the declarator is taken, and no comma asks for another one
  rw [declarators, hh, if_neg (by decide)]
  split
  · rename_i hnone
    rw [hname] at hnone
    exact absurd hnone (by simp)
  · rename_i name isPattern q hsome
    rw [hname] at hsome
    simp only [Option.some.injEq, Prod.mk.injEq] at hsome
    obtain ⟨rfl, rfl, rfl⟩ := hsome
    dsimp only
    rw [hrest, dif_neg (by simp [hcomma]), hfinish, hm]
    exact Reads.intro rfl (by simp only [bump_eq_advance, advance_advance])

/-- The phrase of a variable is read as the variable. -/
theorem reads_variableDecl {m : DeclModifiers} {x : ExportMode} {word : VarKeyword}
    {w n e s : Token} {E : List Token} (h : p.ahead = w :: n :: e :: (E ++ s :: rest))
    (hh : p.halted = false) (hm : m.head = { exported := x }) (hw : VarWord w word)
    (hn : n.IsName) (he : e.kind = .punct .assign) (hE : InitialValue E)
    (hs : s.kind = .punct .semicolon) :
    Reads (.item (.ofName x n.lexeme) (.variableForm word false))
      (p.advance (1 + 1 + 1 + E.length + 1)) (p.variableDecl m) := by
  have hword : (if p.isKeyword .constKw then VarKeyword.constWord
      else if p.isKeyword .varKw then .varWord else .letWord) = word := by
    rw [isKeyword_of_ahead h, isKeyword_of_ahead h]
    cases hw with
    | constWord hk => simp [Token.isKeyword, hk]
    | varWord hk => simp [Token.isKeyword, hk]
    | letWord hk => simp [Token.isKeyword, Token.kind_of_isWord hk]
  rw [variableDecl, hword]
  have hread := reads_declarators word (ahead_bump_of_cons h) hh hm hn he hE hs
  rwa [bump_eq_advance, advance_advance, ← Nat.add_assoc, ← Nat.add_assoc, ← Nat.add_assoc] at hread

/-! ### Classes -/

/-- A word before a token that can not start the name of a member is no modifier. -/
theorem read_of_not_startsMemberName {t n : Token} (run : ModifierRun)
    (hn : n.startsMemberName = false) (hbrace : n.isPunct .openBrace = false) (ts : List Token) :
    run.read (t :: n :: ts) = run := by
  rw [ModifierRun.read, hbrace, Bool.and_false, hn, Bool.not_false, Bool.true_or, if_pos rfl]
  simp

/-- A member that has no modifiers before its name, up to the place where its kind is told. -/
theorem member?_of_name {t n : Token} {ts : List Token} (h : p.ahead = t :: n :: ts)
    (ht : t.IsName) (hn : n.kind = .punct .openParen ∨ n.kind = .punct .colon) :
    p.member? =
      let m : Member :=
        { kind := .property, span := ⟨p.peek.span.lo, p.peek.span.lo⟩, name := t.lexeme }
      let r :=
        if p.bump.isPunct .openParen then
          p.bump.methodRest p.peek.span.lo
            { m with kind := methodKind none ⟨t.lexeme, .ident, false⟩ }
        else p.bump.propertyRest p.peek.span.lo m
      (some r.1, r.2) := by
  have h₁ := ahead_bump_of_cons h
  have hstart : n.startsMemberName = false := by
    rcases hn with hn | hn <;> simp [Token.startsMemberName, hn, TokenKind.isName]
  have hbrace : n.isPunct .openBrace = false := by
    rcases hn with hn | hn <;> simp [Token.isPunct, hn]
  -- what stands behind the name rules out marks, modifiers and an accessor
  have hmark : ∀ k, k = .question ∨ k = .bang ∨ k = .less → p.bump.isPunct k = false := by
    intro k hk
    rw [isPunct_of_ahead h₁]
    rcases hn with hn | hn <;> rcases hk with rfl | rfl | rfl <;> simp [Token.isPunct, hn]
  have hdecorators : p.skipDecorators = p :=
    skipDecorators_of_not h (by simp [Token.isPunct, ht.kind])
  have hrun : ModifierRun.read {} p.ahead = {} := by
    rw [h]
    exact read_of_not_startsMemberName {} hstart hbrace ts
  have haccessor : p.accessor? = none := by
    rw [accessor?, peekNext_of_ahead h, hstart, Bool.false_and]
    rfl
  have hstar : p.skipPunct .star = p := skipPunct_of_not h (by simp [Token.isPunct, ht.kind])
  have hname : p.memberName? = (some ⟨t.lexeme, .ident, false⟩, p.bump) := by
    rw [memberName?, peek_of_ahead h, ht.kind]
  unfold member?
  simp only [hdecorators, hrun, advance_zero, haccessor, hstar, hname, hmark, Option.isSome_none,
    Bool.false_eq_true, if_false, true_or, or_true, Bool.or_self, Bool.or_false, Bool.not_false,
    Bool.true_and, Option.getD_none]

/-- The reading has given one member, which is `m` apart from its places, and stopped at `q`. -/
def ReadsMember (m : Member) (q : Parser) (r : Option Member × Parser) : Prop :=
  ∃ m', m'.bare = m ∧ r = (some m', q)

/-- A member that is read, seen from both its parts. -/
theorem ReadsMember.intro {m m' : Member} {q q' : Parser} (hm : m'.bare = m) (hq : q' = q) :
    ReadsMember m q (some m', q') := ⟨m', hm, by rw [hq]⟩

theorem bare_methodKind (name : Bytes) (span : Span) (type? : Option Span) (body? : Option Nat) :
    ({ kind := methodKind none ⟨name, .ident, false⟩, span, name, type?, body? } : Member).bare
      = Member.ofMethod name := by
  rw [Member.ofMethod, methodKind]
  by_cases hname : name = bytes "constructor"
  · rw [if_pos ⟨rfl, hname⟩, if_pos hname]
    rfl
  · rw [if_neg (fun h => hname h.2), if_neg hname]
    rfl

/-- The phrase of a method is read as the method. No type parameters and no type of a result stand
in it, and the readers for these take nothing. -/
theorem readsMember_method {t : Token} {params body : List Token}
    (h : p.ahead = t :: (params ++ (body ++ rest))) (ht : t.IsName)
    (hparams : Enclosed .openParen .closeParen params)
    (hbody : Enclosed .openBrace .closeBrace body) :
    ReadsMember (Member.ofMethod t.lexeme) (p.advance (1 + params.length + body.length))
      p.member? := by
  have h₁ := ahead_bump_of_cons h
  have hgroup := takeGroup_of_enclosed rfl rfl hparams h₁
  have h₂ := ahead_advance_of_append h₁
  have hbraces := body?_of_enclosed hbody h₂
  have htype : (p.bump.advance params.length).typeAnnotation?
      = (none, p.bump.advance params.length) := by
    cases hbody with
    | mk ho hc hinner => exact typeAnnotation?_of_not h₂ (by simp [Token.isPunct, ho])
  obtain ⟨hparen, hangle, hmember⟩ : p.bump.isPunct .openParen = true ∧ p.bump.takeAngle = p.bump
      ∧ _ := by
    cases hparams with
    | @mk o c inner ho hc hinner =>
      refine ⟨by simp [isPunct_of_ahead h₁, Token.isPunct, ho],
        takeAngle_of_not h₁ (by simp [Token.isPunct, ho]), ?_⟩
      exact member?_of_name (n := o) h ht (.inl ho)
  rw [hmember]
  unfold methodRest
  simp only [hparen, if_true, hangle, hgroup, htype, hbraces, Option.isSome_some]
  exact ReadsMember.intro (bare_methodKind t.lexeme _ _ _)
    (by simp only [bump_eq_advance, advance_advance])

/-- The phrase of a property is read as the property. -/
theorem readsMember_property {t c s : Token} {T : List Token}
    (h : p.ahead = t :: c :: (T ++ s :: rest)) (hh : p.halted = false) (ht : t.IsName)
    (hc : c.kind = .punct .colon) (hT : TypePhrase .semicolon T)
    (hs : s.kind = .punct .semicolon) :
    ReadsMember (Member.ofProperty t.lexeme) (p.advance (1 + 1 + T.length + 1)) p.member? := by
  have h₁ := ahead_bump_of_cons h
  have h₂ := ahead_bump_of_cons h₁
  have h₃ := ahead_advance_of_append h₂
  have hparen : p.bump.isPunct .openParen = false := by
    simp [isPunct_of_ahead h₁, Token.isPunct, hc]
  have hcolon : p.bump.isPunct .colon = true := by simp [isPunct_of_ahead h₁, Token.isPunct, hc]
  have htype := hT.exact p.bump.bump _ _ hh h₂ hs
  have hvalue := skipInitializer_of_not h₃ (by simp [Token.isPunct, hs])
  have hfinish := finishItem_of_semicolon h₃ (by simp [Token.isPunct, hs])
  rw [member?_of_name h ht (.inr hc)]
  unfold propertyRest typeAnnotation?
  simp only [hparen, Bool.false_eq_true, if_false, hcolon, if_true, htype, hvalue, hfinish]
  exact ReadsMember.intro rfl (by simp only [bump_eq_advance, advance_advance])

/-- One member is taken, and the ones behind it. It is one round of the loop, which meets neither a
brace nor a semicolon there. -/
theorem membersFrom_of_readsMember {m : Member} {n : Nat} {t : Token} {ts : List Token}
    (h : p.ahead = t :: ts) (ht : t.kind = .ident) (hh : p.halted = false)
    (hm : ReadsMember m (p.advance (n + 1)) p.member?) :
    (membersFrom p).1.map Member.bare
        = m :: (membersFrom (p.advance (n + 1))).1.map Member.bare
      ∧ (membersFrom p).2 = (membersFrom (p.advance (n + 1))).2 := by
  obtain ⟨m', hbare, hr⟩ := hm
  have hends : p.bodyEnds = false := by
    rw [bodyEnds, isPunct_of_ahead h, atEnd_of_ahead h, hh]
    simp [Token.isPunct, ht]
  have hsemicolon : p.isPunct .semicolon = false := by
    simp [isPunct_of_ahead h, Token.isPunct, ht]
  -- the member took a token, so that the loop does not step over one by itself
  have hmoved : (p.advance (n + 1)).left ≠ p.left := by
    have hleft : 0 < p.left := by
      rw [show p.left = p.ahead.length from rfl, h, List.length_cons]
      omega
    rw [left_advance]
    omega
  rw [membersFrom, dif_neg (by simp [hends]), hsemicolon, if_neg (by decide), hr]
  dsimp only
  rw [if_neg hmoved]
  refine ⟨?_, rfl⟩
  rw [Option.toList_some, List.singleton_append, List.map_cons, hbare]

/-- The members of a class are read one after the other up to its closing brace. -/
theorem membersFrom_of_phrase {ts : List Token} {ms : List Member} {c : Token}
    (hts : MembersPhrase ts ms) (hc : c.kind = .punct .closeBrace) (hh : p.halted = false)
    (h : p.ahead = ts ++ c :: rest) :
    (membersFrom p).1.map Member.bare = ms ∧ (membersFrom p).2 = p.advance ts.length := by
  induction hts generalizing p with
  | nil =>
    have hends : p.bodyEnds = true := by
      rw [bodyEnds, isPunct_of_ahead h, Token.isPunct, hc]
      rfl
    rw [membersFrom, dif_pos hends]
    exact ⟨rfl, rfl⟩
  | @method m params body ts ms hm hparams hbody hts ih =>
    rw [List.cons_append, List.append_assoc, List.append_assoc] at h
    have hread := readsMember_method h hm hparams hbody
    rw [show 1 + params.length + body.length = params.length + body.length + 1 by omega] at hread
    obtain ⟨h₁, h₂⟩ := membersFrom_of_readsMember h hm.kind hh hread
    have hnext : (p.advance (params.length + body.length + 1)).ahead = ts ++ c :: rest := by
      rw [ahead_advance, h, List.drop_succ_cons, ← List.drop_drop, List.drop_left, List.drop_left]
    obtain ⟨ih₁, ih₂⟩ := ih (p := p.advance (params.length + body.length + 1)) hh hnext
    refine ⟨by rw [h₁, ih₁], ?_⟩
    rw [h₂, ih₂, advance_advance]
    simp only [List.length_cons, List.length_append]
    congr 1
    omega
  | @property m d s T ts ms hm hd hT hs hts ih =>
    rw [List.cons_append, List.cons_append, List.append_assoc, List.cons_append] at h
    have hread := readsMember_property h hh hm hd hT hs
    rw [show 1 + 1 + T.length + 1 = T.length + 2 + 1 by omega] at hread
    obtain ⟨h₁, h₂⟩ := membersFrom_of_readsMember h hm.kind hh hread
    have hnext : (p.advance (T.length + 2 + 1)).ahead = ts ++ c :: rest := by
      rw [ahead_advance, h, show T.length + 2 + 1 = T.length + 1 + 2 by omega,
        List.drop_succ_cons, List.drop_succ_cons, ← List.drop_drop, List.drop_left]
      rfl
    obtain ⟨ih₁, ih₂⟩ := ih (p := p.advance (T.length + 2 + 1)) hh hnext
    refine ⟨by rw [h₁, ih₁], ?_⟩
    rw [h₂, ih₂, advance_advance]
    simp only [List.length_cons, List.length_append]
    congr 1
    omega

/-- The phrase of a class is read as the class with its members. In front of its opening brace there
are neither type parameters nor a heritage. -/
theorem reads_classDecl {m : DeclModifiers} {x : ExportMode} {k n o c : Token} {ts : List Token}
    {ms : List Member} (h : p.ahead = k :: n :: o :: (ts ++ c :: rest)) (hh : p.halted = false)
    (hm : m.head = { exported := x }) (hn : n.IsName) (ho : o.kind = .punct .openBrace)
    (hts : MembersPhrase ts ms) (hc : c.kind = .punct .closeBrace) :
    Reads (.item (.ofName x n.lexeme) (.classForm m.isAbstract ms))
      (p.advance (1 + 1 + 1 + ts.length + 1)) (p.classDecl m) := by
  have h₁ := ahead_bump_of_cons h
  have h₂ := ahead_bump_of_cons h₁
  have h₃ := ahead_bump_of_cons h₂
  have hword : p.bump.isWord "implements" = false := by
    rw [isWord_of_ahead h₁, hn.notImplements]
  have htypes : p.bump.bump.typeParams? = (none, p.bump.bump) :=
    typeParams?_of_not h₂ (by simp [Token.isPunct, ho])
  have hheritage : p.bump.bump.skipHeritage = p.bump.bump :=
    skipHeritage_of_openBrace h₂ (by simp [Token.isPunct, ho])
  have hbrace : p.bump.bump.isPunct .openBrace = true := by
    simp [isPunct_of_ahead h₂, Token.isPunct, ho]
  -- the members end right before the closing brace, which is then taken
  obtain ⟨hmembers, hq⟩ := membersFrom_of_phrase (p := p.bump.bump.bump) hts hc hh h₃
  have hclose : (membersFrom p.bump.bump.bump).2.expect .closeBrace
      = (true, (p.bump.bump.bump.advance ts.length).advance 1) := by
    rw [hq]
    exact expect_of_isPunct (ahead_advance_of_append h₃) hh (by simp [Token.isPunct, hc])
  unfold classDecl classBody
  simp only [peek_of_ahead h₁, hn.kind, hword, Bool.not_false, Bool.and_true, decide_true, if_true,
    htypes, hheritage, hbrace, hclose, hm, Bool.not_true, Bool.false_and, Bool.false_eq_true,
    if_false]
  refine Reads.intro ?_ (by simp only [bump_eq_advance, advance_advance])
  rw [← hmembers]
  rfl

end Parser

end SignatureLedger
