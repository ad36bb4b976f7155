import SignatureLedger.Proofs.Declaration.Nested

/-!
# Well-formed modules

A grammar of modules beside the parser: which token lists are written in the usual forms, and what
they declare. The relation `Written` pairs a token list with its declarations, one rule for each
form; bodies, parameters and initial values may hold any nested tokens. The declarations are given
without their places in the source (`Decl.bare`).
-/

namespace SignatureLedger

/-! ## Declarations without their places -/

/-- A member without its places in the source. -/
def Member.bare (m : Member) : Member := { m with span := ⟨0, 0⟩, type? := none, body? := none }

/-- A head without its places in the source. -/
def DeclHead.bare (h : DeclHead) : DeclHead :=
  { h with span := ⟨0, 0⟩, nameSpan := ⟨0, 0⟩, body? := none, typeParams? := none }

/-- A form without places: only the members of a class have any. -/
def DeclForm.bare : DeclForm → DeclForm
  | .classForm isAbstract members => .classForm isAbstract (members.map Member.bare)
  | form => form

mutual

/-- A declaration without its places in the source: its kind, name, export mode and modifiers, its
members and its children. -/
def Decl.bare : Decl → Decl
  | .item head form => .item head.bare form.bare
  | .space head isGlobal children => .space head.bare isGlobal (Decl.bareAll children)

/-- All declarations without their places. -/
def Decl.bareAll : List Decl → List Decl
  | [] => []
  | d :: ds => d.bare :: Decl.bareAll ds

end

/-- A head that says no more than the name and the export mode. -/
def DeclHead.ofName (exported : ExportMode) (name : Bytes) : DeclHead := { exported, name }

/-- A method; the one with the name `constructor` is the constructor. -/
def Member.ofMethod (name : Bytes) : Member :=
  { kind := if name = bytes "constructor" then .constructor else .method, span := ⟨0, 0⟩, name }

/-- A public property of a name, placed nowhere yet. -/
def Member.ofProperty (name : Bytes) : Member := { kind := .property, span := ⟨0, 0⟩, name }

/-! ## Parts of the grammar -/

/-- A plain identifier as a name. The one contextual word that must not stand for a name is
`implements`, which ends the head of a class. -/
structure Token.IsName (t : Token) : Prop where
  kind : t.kind = .ident
  notImplements : t.isWord "implements" = false

/-- A token that may be left out, and whether it is there. -/
inductive Mark (P : Token → Prop) : List Token → Bool → Prop
  | absent : Mark P [] false
  | present {t : Token} (ht : P t) : Mark P [t] true

/-- A type phrase that ends before the punctuator `next`: taking a type takes exactly its tokens and
reports nothing, whatever the state of the parse and the source behind `next` are. -/
structure TypePhrase (next : Punct) (T : List Token) : Prop where
  noEnd : ∀ t ∈ T, t.kind ≠ .eof
  exact : ∀ (p : Parser) (t : Token) (rest : List Token), p.halted = false →
    p.ahead = T ++ t :: rest → t.kind = .punct next → p.skipType = p.advance T.length

/-- The result type of a function, if it has one. -/
inductive ResultPhrase : List Token → Prop
  | absent : ResultPhrase []
  | present {c : Token} {T : List Token} (hc : c.kind = .punct .colon)
      (hT : TypePhrase .openBrace T) : ResultPhrase (c :: T)

/-- The keywords of variables. -/
inductive VarWord : Token → VarKeyword → Prop
  | constWord {t : Token} (ht : t.kind = .keyword .constKw) : VarWord t .constWord
  | varWord {t : Token} (ht : t.kind = .keyword .varKw) : VarWord t .varWord
  | letWord {t : Token} (ht : t.isWord "let" = true) : VarWord t .letWord

/-- The members of a class body: `name (…) {…}` and `name : type ;`. -/
inductive MembersPhrase : List Token → List Member → Prop
  | nil : MembersPhrase [] []
  | method {m : Token} {params body ts : List Token} {ms : List Member} (hm : m.IsName)
      (hparams : Enclosed .openParen .closeParen params)
      (hbody : Enclosed .openBrace .closeBrace body) (hts : MembersPhrase ts ms) :
      MembersPhrase (m :: (params ++ (body ++ ts))) (Member.ofMethod m.lexeme :: ms)
  | property {m c s : Token} {T ts : List Token} {ms : List Member} (hm : m.IsName)
      (hc : c.kind = .punct .colon) (hT : TypePhrase .semicolon T)
      (hs : s.kind = .punct .semicolon) (hts : MembersPhrase ts ms) :
      MembersPhrase (m :: c :: (T ++ s :: ts)) (Member.ofProperty m.lexeme :: ms)

/-! ## Items -/

/-- How a declaration with or without the word `export` leaves its module. -/
def exportMode (exported : Bool) : ExportMode := if exported then .named else .none

/-- A declaration other than a namespace, behind `export`. A name that tells a declaration from an
expression stands on the line of its keyword, and so does `function` behind `async`. -/
inductive DeclPhrase (exported : ExportMode) : List Token → Decl → Prop
  | function {a s params r body : List Token} {f n : Token} {isAsync isGenerator : Bool}
      (ha : Mark (fun t => t.isWord "async" = true) a isAsync)
      (hf : f.kind = .keyword .functionKw) (hline : isAsync = true → f.newlineBefore = false)
      (hs : Mark (fun t => t.kind = .punct .star) s isGenerator) (hn : n.IsName)
      (hparams : Enclosed .openParen .closeParen params) (hr : ResultPhrase r)
      (hbody : Enclosed .openBrace .closeBrace body) :
      DeclPhrase exported (a ++ f :: (s ++ n :: (params ++ (r ++ body))))
        (.item (.ofName exported n.lexeme) (.function isAsync isGenerator))
  | interfaceForm {w n : Token} {body : List Token} (hw : w.isWord "interface" = true)
      (hn : n.IsName) (hline : n.newlineBefore = false)
      (hbody : Enclosed .openBrace .closeBrace body) :
      DeclPhrase exported (w :: n :: body) (.item (.ofName exported n.lexeme) .interfaceForm)
  | enumForm {k n : Token} {body : List Token} (hk : k.kind = .keyword .enumKw) (hn : n.IsName)
      (hbody : Enclosed .openBrace .closeBrace body) :
      DeclPhrase exported (k :: n :: body) (.item (.ofName exported n.lexeme) .enumForm)
  | typeAlias {w n e s : Token} {T : List Token} (hw : w.isWord "type" = true) (hn : n.IsName)
      (hline : n.newlineBefore = false) (he : e.kind = .punct .assign)
      (hT : TypePhrase .semicolon T) (hs : s.kind = .punct .semicolon) :
      DeclPhrase exported (w :: n :: e :: (T ++ [s]))
        (.item (.ofName exported n.lexeme) .typeAlias)
  | variableForm {w n e s : Token} {E : List Token} {word : VarKeyword} (hw : VarWord w word)
      (hn : n.IsName) (he : e.kind = .punct .assign) (hE : InitialValue E)
      (hs : s.kind = .punct .semicolon) :
      DeclPhrase exported (w :: n :: e :: (E ++ [s]))
        (.item (.ofName exported n.lexeme) (.variableForm word false))
  | classForm {k n o c : Token} {ts : List Token} {ms : List Member}
      (hk : k.kind = .keyword .classKw) (hn : n.IsName) (ho : o.kind = .punct .openBrace)
      (hts : MembersPhrase ts ms) (hc : c.kind = .punct .closeBrace) :
      DeclPhrase exported (k :: n :: o :: (ts ++ [c]))
        (.item (.ofName exported n.lexeme) (.classForm false ms))

/-- The token list is a well-formed module, or the inside of a namespace, with these declarations.
The name of a namespace is cut out of the source, where it must stand. -/
inductive Written (source : Bytes) : List Token → List Decl → Prop
  | nil : Written source [] []
  | decl {x ts tss : List Token} {exported : Bool} {d : Decl} {ds : List Decl}
      (hx : Mark (fun t => t.kind = .keyword .exportKw) x exported)
      (hd : DeclPhrase (exportMode exported) ts d) (hrest : Written source tss ds) :
      Written source (x ++ (ts ++ tss)) (d :: ds)
  | space {x ts tss : List Token} {w n o c : Token} {exported : Bool} {children ds : List Decl}
      (hx : Mark (fun t => t.kind = .keyword .exportKw) x exported)
      (hw : w.isWord "namespace" = true) (hn : n.IsName) (hline : n.newlineBefore = false)
      (hsource : source.slice n.span.lo n.span.hi = n.lexeme) (ho : o.kind = .punct .openBrace)
      (hinner : Written source ts children) (hc : c.kind = .punct .closeBrace)
      (hrest : Written source tss ds) :
      Written source (x ++ w :: n :: o :: (ts ++ c :: tss))
        (.space (.ofName (exportMode exported) n.lexeme) false children :: ds)

/-! ## No end marker -/

/-- The end marker is none of the tokens. -/
def NoEnd (ts : List Token) : Prop := ∀ t ∈ ts, t.kind ≠ .eof

/-- Two stretches without the end marker. -/
theorem noEnd_append {ts us : List Token} : NoEnd (ts ++ us) ↔ NoEnd ts ∧ NoEnd us :=
  List.forall_mem_append

/-- A stretch without the end marker, token by token. -/
theorem noEnd_cons {t : Token} {ts : List Token} : NoEnd (t :: ts) ↔ t.kind ≠ .eof ∧ NoEnd ts :=
  List.forall_mem_cons

theorem noEnd_nil : NoEnd [] := fun _ h => absurd h List.not_mem_nil

/-- An opening sign is no end marker. -/
theorem ne_eof_of_isOpener {k : TokenKind} (h : k.isOpener = true) : k ≠ .eof := by
  rintro rfl
  exact absurd h (by decide)

/-- A closing sign is no end marker. -/
theorem ne_eof_of_isCloser {k : TokenKind} (h : k.isCloser = true) : k ≠ .eof := by
  rintro rfl
  exact absurd h (by decide)

/-- No nested stretch holds the end marker. -/
theorem Nested.noEnd {ts : List Token} (h : Nested ts) : NoEnd ts := by
  induction h with
  | nil => exact noEnd_nil
  | plain ht hts ih => exact noEnd_cons.mpr ⟨ht.2.2, ih⟩
  | group ho hc hinner hts ihInner ih =>
    simp only [noEnd_cons, noEnd_append]
    exact ⟨ne_eof_of_isOpener ho, ihInner, ne_eof_of_isCloser hc, ih⟩

/-- No initial value holds the end marker. -/
theorem InitialValue.noEnd {ts : List Token} (h : InitialValue ts) : NoEnd ts := by
  induction h with
  | nil => exact noEnd_nil
  | plain ht hv hts ih => exact noEnd_cons.mpr ⟨ht.2.2, ih⟩
  | group ho hsame hc hinner hts ih =>
    simp only [noEnd_cons, noEnd_append]
    exact ⟨ne_eof_of_isOpener ho, hinner.noEnd, ne_eof_of_isCloser hc, ih⟩

/-- No enclosed stretch holds the end marker. -/
theorem Enclosed.noEnd {opening closing : Punct} {ts : List Token}
    (h : Enclosed opening closing ts) : NoEnd ts := by
  obtain ⟨ho, hc, hinner⟩ := h
  simp only [noEnd_cons, noEnd_append]
  exact ⟨by simp [ho], hinner.noEnd, by simp [hc], noEnd_nil⟩

/-- No mark holds the end marker, if its token is none. -/
theorem Mark.noEnd {P : Token → Prop} {ts : List Token} {b : Bool} (h : Mark P ts b)
    (hP : ∀ t, P t → t.kind ≠ .eof) : NoEnd ts := by
  cases h with
  | absent => exact noEnd_nil
  | present ht => exact noEnd_cons.mpr ⟨hP _ ht, noEnd_nil⟩

/-- No type of a result holds the end marker. -/
theorem ResultPhrase.noEnd {ts : List Token} (h : ResultPhrase ts) : NoEnd ts := by
  cases h with
  | absent => exact noEnd_nil
  | present hc hT => exact noEnd_cons.mpr ⟨by simp [hc], hT.noEnd⟩

/-- A word is no end marker. -/
theorem ne_eof_of_isWord {t : Token} {w : String} (h : t.isWord w = true) : t.kind ≠ .eof := by
  simp [Token.kind_of_isWord h]

/-- A name is no end marker. -/
theorem Token.IsName.ne_eof {t : Token} (h : t.IsName) : t.kind ≠ .eof := by simp [h.kind]

/-- No members of a class hold the end marker. -/
theorem MembersPhrase.noEnd {ts : List Token} {ms : List Member} (h : MembersPhrase ts ms) :
    NoEnd ts := by
  induction h with
  | nil => exact noEnd_nil
  | method hm hparams hbody hts ih =>
    simp only [noEnd_cons, noEnd_append]
    exact ⟨hm.ne_eof, hparams.noEnd, hbody.noEnd, ih⟩
  | property hm hc hT hs hts ih =>
    simp only [noEnd_cons, noEnd_append]
    exact ⟨hm.ne_eof, by simp [hc], hT.noEnd, by simp [hs], ih⟩

/-- The word of a variable is no end marker. -/
theorem VarWord.ne_eof {t : Token} {word : VarKeyword} (h : VarWord t word) : t.kind ≠ .eof := by
  cases h with
  | constWord hk => simp [hk]
  | varWord hk => simp [hk]
  | letWord ht => exact ne_eof_of_isWord ht

/-- No declaration holds the end marker. Each form is a row of tokens of other kinds and of parts
that hold none. -/
theorem DeclPhrase.noEnd {x : ExportMode} {ts : List Token} {d : Decl} (h : DeclPhrase x ts d) :
    NoEnd ts := by
  cases h with
  | function ha hf hline hs hn hparams hr hbody =>
    have hasync := ha.noEnd fun _ => ne_eof_of_isWord
    have hstar := hs.noEnd fun _ h => by simp [h]
    simp only [noEnd_cons, noEnd_append]
    exact ⟨hasync, by simp [hf], hstar, hn.ne_eof, hparams.noEnd, hr.noEnd, hbody.noEnd⟩
  | interfaceForm hw hn hline hbody =>
    simp only [noEnd_cons]
    exact ⟨ne_eof_of_isWord hw, hn.ne_eof, hbody.noEnd⟩
  | enumForm hk hn hbody =>
    simp only [noEnd_cons]
    exact ⟨by simp [hk], hn.ne_eof, hbody.noEnd⟩
  | typeAlias hw hn hline he hT hs =>
    simp only [noEnd_cons, noEnd_append]
    exact ⟨ne_eof_of_isWord hw, hn.ne_eof, by simp [he], hT.noEnd, by simp [hs], noEnd_nil⟩
  | variableForm hw hn he hE hs =>
    simp only [noEnd_cons, noEnd_append]
    exact ⟨hw.ne_eof, hn.ne_eof, by simp [he], hE.noEnd, by simp [hs], noEnd_nil⟩
  | classForm hk hn ho hts hc =>
    simp only [noEnd_cons, noEnd_append]
    exact ⟨by simp [hk], hn.ne_eof, by simp [ho], hts.noEnd, by simp [hc], noEnd_nil⟩

/-- No module holds the end marker among its items. -/
theorem Written.noEnd {source : Bytes} {ts : List Token} {ds : List Decl}
    (h : Written source ts ds) : NoEnd ts := by
  have hexport : ∀ t : Token, t.kind = .keyword .exportKw → t.kind ≠ .eof := fun t h => by simp [h]
  induction h with
  | nil => exact noEnd_nil
  | decl hx hd hrest ih =>
    simp only [noEnd_append]
    exact ⟨hx.noEnd hexport, hd.noEnd, ih⟩
  | space hx hw hn hline hsource ho hinner hc hrest ihInner ih =>
    simp only [noEnd_cons, noEnd_append]
    exact ⟨hx.noEnd hexport, ne_eof_of_isWord hw, hn.ne_eof, by simp [ho], ihInner, by simp [hc],
      ih⟩

end SignatureLedger
