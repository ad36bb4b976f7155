import SignatureLedger.Proofs.Declaration.Grammar

/-!
# The grammar of types

Which token lists are types (`TypeForm`). A type is a union, with or without a condition behind it;
a union is a row of primary types; and a primary type either ends with a closed part or goes on with
a type of its own, behind an arrow or behind the word `is`. That type takes along all that the
types around it could still have (`TypeForm.absorb`): behind `(a) => b` the signs of a union and a
condition belong to `b`.
-/

namespace SignatureLedger

/-! ## Lists in angle brackets -/

/-- All brackets of the stretch are closed in it, and so are the less signs outside its other
brackets. A semicolon or a double less sign may stand inside those only. -/
inductive Angled : List Token → Prop
  | nil : Angled []
  | plain {t : Token} {ts : List Token} (ht : t.IsPlain)
      (hkind : t.kind ∉ [.punct .less, .punct .greater, .punct .lessLess, .punct .semicolon])
      (hts : Angled ts) : Angled (t :: ts)
  | group {o c : Token} {inner ts : List Token} (ho : o.kind.isOpener = true)
      (hc : c.kind.isCloser = true) (hinner : Nested inner) (hts : Angled ts) :
      Angled (o :: (inner ++ c :: ts))
  | angle {l g : Token} {inner ts : List Token} (hl : l.kind = .punct .less)
      (hg : g.kind = .punct .greater) (hinner : Angled inner) (hts : Angled ts) :
      Angled (l :: (inner ++ g :: ts))

/-- A list of type parameters or arguments. -/
inductive AngleGroup : List Token → Prop
  | mk {l g : Token} {inner : List Token} (hl : l.kind = .punct .less)
      (hg : g.kind = .punct .greater) (hinner : Angled inner) : AngleGroup (l :: (inner ++ [g]))

/-! ## Parts of a primary type -/

/-- The operators in front. -/
inductive TypePrefix : List Token → Prop
  | nil : TypePrefix []
  | word {t : Token} {ts : List Token} (ht : t.isTypeOperator = true) (hts : TypePrefix ts) :
      TypePrefix (t :: ts)
  | keyword {t : Token} {ts : List Token} (ht : t.kind ∈ [.keyword .typeofKw, .keyword .newKw])
      (hts : TypePrefix ts) : TypePrefix (t :: ts)
  | abstractNew {a n : Token} {ts : List Token} (ha : a.isWord "abstract" = true)
      (hn : n.kind = .keyword .newKw) (hts : TypePrefix ts) : TypePrefix (a :: n :: ts)

/-- What may stand behind the first name of a path: more names, and type arguments at the end. -/
inductive PathTail : List Token → Prop
  | nil : PathTail []
  | args {ts : List Token} (hts : AngleGroup ts) : PathTail ts
  | name {d n : Token} {ts : List Token} (hd : d.kind = .punct .dot) (hn : n.kind.isName = true)
      (hts : PathTail ts) : PathTail (d :: n :: ts)

/-- A name that a type can start with: it is no operator, and it starts no inline import. -/
structure Token.IsTypeName (t : Token) : Prop where
  isName : t.kind.isName = true
  notOperator : t.isTypeOperator = false
  notKeyword : t.kind ∉ [.keyword .typeofKw, .keyword .newKw, .keyword .importKw]

/-- A type without operators that ends where its own tokens end. Groups in brackets are taken as a
whole, whatever is in them. -/
inductive TypeBase : List Token → Prop
  | path {t : Token} {ts : List Token} (ht : t.IsTypeName) (hts : PathTail ts) : TypeBase (t :: ts)
  | inlineImport {i : Token} {bs ts : List Token} (hi : i.kind = .keyword .importKw)
      (hb : Enclosed .openParen .closeParen bs) (hts : PathTail ts) : TypeBase (i :: (bs ++ ts))
  | literal {t : Token} (ht : t.kind ∈ [.stringLit, .numberLit, .templateLit]) : TypeBase [t]
  | negative {m n : Token} (hm : m.kind = .punct .minus) (hn : n.kind = .numberLit) :
      TypeBase [m, n]
  | parens {ts : List Token} (hts : Enclosed .openParen .closeParen ts) : TypeBase ts
  | brackets {ts : List Token} (hts : Enclosed .openBracket .closeBracket ts) : TypeBase ts
  | braces {ts : List Token} (hts : Enclosed .openBrace .closeBrace ts) : TypeBase ts

/-- Groups in square brackets behind a type. Each one starts on the line where the token before it
ends. -/
inductive ArrayMarks : List Token → Prop
  | nil : ArrayMarks []
  | cons {o c : Token} {inner ts : List Token} (ho : o.kind = .punct .openBracket)
      (hline : o.newlineBefore = false) (hc : c.kind = .punct .closeBracket)
      (hinner : Nested inner) (hts : ArrayMarks ts) : ArrayMarks (o :: (inner ++ c :: ts))

/-- A primary type that is closed at its end. -/
inductive ClosedPrimary : List Token → Prop
  | mk {xs bs ms : List Token} (hx : TypePrefix xs) (hb : TypeBase bs) (hm : ArrayMarks ms) :
      ClosedPrimary (xs ++ (bs ++ ms))

/-- What stands before a type that ends a primary type. A predicate has the word `is` there, and a
function its arrow. -/
inductive OpenHead : List Token → Prop
  | predicate {xs bs ms : List Token} {w : Token} (hx : TypePrefix xs) (hb : TypeBase bs)
      (hm : ArrayMarks ms) (hw : w.isWord "is" = true) (hline : w.newlineBefore = false) :
      OpenHead (xs ++ (bs ++ (ms ++ [w])))
  | function {xs bs : List Token} {a : Token} (hx : TypePrefix xs)
      (hb : Enclosed .openParen .closeParen bs) (ha : a.kind = .punct .arrow) :
      OpenHead (xs ++ (bs ++ [a]))
  | generic {xs gs bs : List Token} {a : Token} (hx : TypePrefix xs) (hg : AngleGroup gs)
      (hb : Enclosed .openParen .closeParen bs) (ha : a.kind = .punct .arrow) :
      OpenHead (xs ++ (gs ++ (bs ++ [a])))

/-! ## Types -/

/-- A sign between the parts of a union or an intersection. -/
def Token.IsUnionSign (t : Token) : Prop := t.kind = .punct .bar ∨ t.kind = .punct .amp

/-- The levels of the grammar. A tail is what a union has behind its first primary type, and a
condition what a type has behind its first union. -/
inductive TypeLevel where
  | type
  | condition
  | union
  | tail
  | primary
deriving DecidableEq, Repr

/-- The token list is a type, or stands at another level of the grammar of types. Lines may end
anywhere but before the brackets of an array and the word `is`. -/
inductive TypeForm : TypeLevel → List Token → Prop
  | type {us cs : List Token} (hu : TypeForm .union us) (hc : TypeForm .condition cs) :
      TypeForm .type (us ++ cs)
  | unconditional : TypeForm .condition []
  | conditional {e q k : Token} {us ts fs : List Token} (he : e.kind = .keyword .extendsKw)
      (hu : TypeForm .union us) (hq : q.kind = .punct .question) (ht : TypeForm .type ts)
      (hk : k.kind = .punct .colon) (hf : TypeForm .type fs) :
      TypeForm .condition (e :: (us ++ q :: (ts ++ k :: fs)))
  | union {ss ps ms : List Token} {signed : Bool} (hs : Mark Token.IsUnionSign ss signed)
      (hp : TypeForm .primary ps) (hm : TypeForm .tail ms) : TypeForm .union (ss ++ (ps ++ ms))
  | last : TypeForm .tail []
  | more {s : Token} {ps ms : List Token} (hs : s.IsUnionSign) (hp : TypeForm .primary ps)
      (hm : TypeForm .tail ms) : TypeForm .tail (s :: (ps ++ ms))
  | closed {ps : List Token} (hp : ClosedPrimary ps) : TypeForm .primary ps
  | openEnded {hs ts : List Token} (hh : OpenHead hs) (ht : TypeForm .type ts) :
      TypeForm .primary (hs ++ ts)

section Single

variable {ts : List Token}

/-- A base alone is a single type. -/
theorem TypeBase.primary (h : TypeBase ts) : TypeForm .primary ts := by
  simpa using TypeForm.closed (.mk .nil h .nil)

/-- A single type is a union of one. -/
theorem TypeForm.single (h : TypeForm .primary ts) : TypeForm .union ts := by
  simpa using TypeForm.union .absent h .last

/-- A union without a condition is a type. -/
theorem TypeForm.plain (h : TypeForm .union ts) : TypeForm .type ts := by
  simpa using TypeForm.type h .unconditional

end Single

/-! ## What a type takes along -/

/-- What the phrases of a level can take along: more primary types, and where a type may stand a
condition as well. -/
def Absorbs : TypeLevel → List Token → Prop
  | .type, ts => ∀ m c, TypeForm .tail m → TypeForm .condition c → TypeForm .type (ts ++ (m ++ c))
  | .condition, ts => ∀ m c, TypeForm .tail m → TypeForm .condition c →
      ∃ m' c', TypeForm .tail m' ∧ TypeForm .condition c' ∧ ts ++ (m ++ c) = m' ++ c'
  | .union, ts => ∀ m, TypeForm .tail m → TypeForm .union (ts ++ m)
  | .tail, ts => ∀ m, TypeForm .tail m → TypeForm .tail (ts ++ m)
  | .primary, _ => True

/-- Every form of a type takes in whatever may end it. By induction on the form: its last part takes
it in, be that a branch of a condition or the end of a union. -/
theorem absorbs_of_typeForm {l : TypeLevel} {ts : List Token} (h : TypeForm l ts) :
    Absorbs l ts := by
  induction h with
  | @type us cs _ _ ihu ihc =>
    intro m c hm hc
    obtain ⟨m', c', hm', hc', heq⟩ := ihc m c hm hc
    rw [List.append_assoc, heq, ← List.append_assoc]
    exact .type (ihu m' hm') hc'
  | unconditional => exact fun m c hm hc => ⟨m, c, hm, hc, rfl⟩
  | @conditional e q k us ts fs he hu hq ht hk _ _ _ ihf =>
    -- the last branch takes everything
    intro m c hm hc
    refine ⟨[], _, .last, .conditional he hu hq ht hk (ihf m c hm hc), ?_⟩
    simp
  | union hs hp _ _ ihm =>
    intro m hm
    rw [List.append_assoc, List.append_assoc]
    exact .union hs hp (ihm m hm)
  | last => exact fun m hm => hm
  | more hs hp _ _ ihm =>
    intro m hm
    rw [List.cons_append, List.append_assoc]
    exact .more hs hp (ihm m hm)
  | closed _ => trivial
  | openEnded _ _ _ => trivial

/-- **A type takes along what the type around it has.** -/
theorem TypeForm.absorb {ts m c : List Token} (h : TypeForm .type ts) (hm : TypeForm .tail m)
    (hc : TypeForm .condition c) : TypeForm .type (ts ++ (m ++ c)) :=
  absorbs_of_typeForm h m c hm hc

/-! ## No end marker in types -/

/-- No stretch between angles holds the end marker. -/
theorem Angled.noEnd {ts : List Token} (h : Angled ts) : NoEnd ts := by
  induction h with
  | nil => exact noEnd_nil
  | plain ht _ _ ih => exact noEnd_cons.mpr ⟨ht.2.2, ih⟩
  | group ho hc hinner _ ih =>
    exact noEnd_cons.mpr ⟨ne_eof_of_isOpener ho,
      noEnd_append.mpr ⟨hinner.noEnd, noEnd_cons.mpr ⟨ne_eof_of_isCloser hc, ih⟩⟩⟩
  | angle hl hg _ _ ihInner ih =>
    exact noEnd_cons.mpr ⟨by simp [hl],
      noEnd_append.mpr ⟨ihInner, noEnd_cons.mpr ⟨by simp [hg], ih⟩⟩⟩

/-- No angles hold the end marker. -/
theorem AngleGroup.noEnd {ts : List Token} (h : AngleGroup ts) : NoEnd ts := by
  obtain ⟨hl, hg, hinner⟩ := h
  exact noEnd_cons.mpr ⟨by simp [hl], noEnd_append.mpr
    ⟨hinner.noEnd, noEnd_cons.mpr ⟨by simp [hg], noEnd_nil⟩⟩⟩

/-- The kind of a name is not that of the end marker. -/
theorem ne_eof_of_isName {t : Token} (h : t.kind.isName = true) : t.kind ≠ .eof := by
  intro hk
  rw [hk] at h
  exact absurd h (by decide)

/-- The operators of types are identifiers. -/
theorem Token.kind_of_isTypeOperator {t : Token} (h : t.isTypeOperator = true) :
    t.kind = .ident := by
  simp only [isTypeOperator, Bool.or_eq_true] at h
  rcases h with (((h | h) | h) | h) | h
  all_goals exact kind_of_isWord h

/-- No prefix of a type holds the end marker. -/
theorem TypePrefix.noEnd {ts : List Token} (h : TypePrefix ts) : NoEnd ts := by
  induction h with
  | nil => exact noEnd_nil
  | word ht _ ih => exact noEnd_cons.mpr ⟨by simp [Token.kind_of_isTypeOperator ht], ih⟩
  | keyword ht _ ih => exact noEnd_cons.mpr ⟨fun hk => absurd (hk ▸ ht) (by decide), ih⟩
  | abstractNew ha hn _ ih =>
    exact noEnd_cons.mpr ⟨ne_eof_of_isWord ha, noEnd_cons.mpr ⟨by simp [hn], ih⟩⟩

/-- No path holds the end marker. -/
theorem PathTail.noEnd {ts : List Token} (h : PathTail ts) : NoEnd ts := by
  induction h with
  | nil => exact noEnd_nil
  | args hts => exact hts.noEnd
  | name hd hn _ ih =>
    exact noEnd_cons.mpr ⟨by simp [hd], noEnd_cons.mpr ⟨ne_eof_of_isName hn, ih⟩⟩

/-- No base of a type holds the end marker. -/
theorem TypeBase.noEnd {ts : List Token} (h : TypeBase ts) : NoEnd ts := by
  cases h with
  | path ht hts => exact noEnd_cons.mpr ⟨ne_eof_of_isName ht.isName, hts.noEnd⟩
  | inlineImport hi hb hts =>
    exact noEnd_cons.mpr ⟨by simp [hi], noEnd_append.mpr ⟨hb.noEnd, hts.noEnd⟩⟩
  | literal ht => exact noEnd_cons.mpr ⟨fun hk => absurd (hk ▸ ht) (by decide), noEnd_nil⟩
  | negative hm hn => exact noEnd_cons.mpr ⟨by simp [hm], noEnd_cons.mpr ⟨by simp [hn], noEnd_nil⟩⟩
  | parens hts => exact hts.noEnd
  | brackets hts => exact hts.noEnd
  | braces hts => exact hts.noEnd

/-- No array suffixes hold the end marker. -/
theorem ArrayMarks.noEnd {ts : List Token} (h : ArrayMarks ts) : NoEnd ts := by
  induction h with
  | nil => exact noEnd_nil
  | cons ho _ hc hinner _ ih =>
    exact noEnd_cons.mpr ⟨by simp [ho],
      noEnd_append.mpr ⟨hinner.noEnd, noEnd_cons.mpr ⟨by simp [hc], ih⟩⟩⟩

/-- No closed type holds the end marker. -/
theorem ClosedPrimary.noEnd {ts : List Token} (h : ClosedPrimary ts) : NoEnd ts := by
  obtain ⟨hx, hb, hm⟩ := h
  exact noEnd_append.mpr ⟨hx.noEnd, noEnd_append.mpr ⟨hb.noEnd, hm.noEnd⟩⟩

/-- No open head of a type holds the end marker. -/
theorem OpenHead.noEnd {ts : List Token} (h : OpenHead ts) : NoEnd ts := by
  cases h with
  | predicate hx hb hm hw _ =>
    exact noEnd_append.mpr ⟨hx.noEnd, noEnd_append.mpr ⟨hb.noEnd, noEnd_append.mpr
      ⟨hm.noEnd, noEnd_cons.mpr ⟨ne_eof_of_isWord hw, noEnd_nil⟩⟩⟩⟩
  | function hx hb ha =>
    exact noEnd_append.mpr ⟨hx.noEnd, noEnd_append.mpr
      ⟨hb.noEnd, noEnd_cons.mpr ⟨by simp [ha], noEnd_nil⟩⟩⟩
  | generic hx hg hb ha =>
    exact noEnd_append.mpr ⟨hx.noEnd, noEnd_append.mpr ⟨hg.noEnd, noEnd_append.mpr
      ⟨hb.noEnd, noEnd_cons.mpr ⟨by simp [ha], noEnd_nil⟩⟩⟩⟩

/-- The signs of unions are no end marker. -/
theorem Token.IsUnionSign.ne_eof {t : Token} (h : t.IsUnionSign) : t.kind ≠ .eof := by
  rcases h with h | h <;> simp [h]

/-- No type holds the end marker. -/
theorem TypeForm.noEnd {l : TypeLevel} {ts : List Token} (h : TypeForm l ts) : NoEnd ts := by
  induction h with
  | type _ _ ihu ihc => exact noEnd_append.mpr ⟨ihu, ihc⟩
  | unconditional => exact noEnd_nil
  | conditional he _ hq _ hk _ ihu iht ihf =>
    exact noEnd_cons.mpr ⟨by simp [he], noEnd_append.mpr ⟨ihu, noEnd_cons.mpr ⟨by simp [hq],
      noEnd_append.mpr ⟨iht, noEnd_cons.mpr ⟨by simp [hk], ihf⟩⟩⟩⟩⟩
  | union hs _ _ ihp ihm =>
    exact noEnd_append.mpr ⟨hs.noEnd fun _ => Token.IsUnionSign.ne_eof,
      noEnd_append.mpr ⟨ihp, ihm⟩⟩
  | last => exact noEnd_nil
  | more hs _ _ ihp ihm => exact noEnd_cons.mpr ⟨hs.ne_eof, noEnd_append.mpr ⟨ihp, ihm⟩⟩
  | closed hp => exact hp.noEnd
  | openEnded hh _ ih => exact noEnd_append.mpr ⟨hh.noEnd, ih⟩

end SignatureLedger
