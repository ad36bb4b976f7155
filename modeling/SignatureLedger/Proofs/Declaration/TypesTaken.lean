import SignatureLedger.Proofs.Declaration.Completeness
import SignatureLedger.Proofs.Declaration.TypeParts

/-!
# Types are taken exactly

Taking a type takes exactly the tokens of a type of the grammar, whatever its form, if something
comes behind it that ends a type (`skipType_of_typeForm`). The parser is greedy where the grammar is
not: a type at the end of a primary type takes along the signs and the condition that the grammar
may give to the types around it. So at every place of a union the parser has either come just as far
as the grammar, or it is behind the condition already (`Over`). The induction is on the length of
the type, since the type that takes something along is none of the parts that the grammar has.
-/

namespace SignatureLedger

/-- Nothing but the tokens of the type is taken, also in front of a branch of a conditional type. -/
def TakenExactly (ts : List Token) : Prop :=
  ∀ (p : Parser) (r : List Token), p.halted = false → p.ahead = ts ++ r → headKind r ∈ branchEnds →
    p.skipType = p.advance ts.length

/-- An open head has at least one token. -/
theorem OpenHead.length_pos {hs : List Token} (h : OpenHead hs) : 0 < hs.length := by
  cases h <;> simp only [List.length_append, List.length_singleton] <;> omega

section Ends

variable {m c r : List Token}

/-- Behind a condition stands its keyword, or what ends the branch. -/
theorem headKind_condition (hc : TypeForm .condition c) (hr : headKind r ∈ branchEnds) :
    headKind (c ++ r) ∈ .keyword .extendsKw :: branchEnds := by
  cases hc with
  | unconditional => exact List.mem_cons_of_mem _ hr
  | conditional he _ _ _ _ _ => simp [he]

/-- Behind a tail stands what ends a single type. -/
theorem headKind_tail (hm : TypeForm .tail m) (hc : TypeForm .condition c)
    (hr : headKind r ∈ branchEnds) : headKind (m ++ (c ++ r)) ∈ primaryEnds := by
  cases hm with
  | last =>
    rw [List.nil_append]
    exact (by decide : ∀ k ∈ .keyword .extendsKw :: branchEnds, k ∈ primaryEnds) _
      (headKind_condition hc hr)
  | more hs _ _ => rcases hs with hs | hs <;> simp [hs, primaryEnds]

end Ends

namespace Parser

variable {p : Parser} {r : List Token}

/-- The sign ahead is not one of another kind. -/
theorem isPunct_eq_false {k : Punct} (h : headKind p.ahead ≠ .punct k) : p.isPunct k = false := by
  rw [← Bool.not_eq_true, isPunct_iff]
  exact h

/-- The sign of a union stands ahead. -/
theorem isUnionSign_of_ahead {s : Token} (h : p.ahead = s :: r) (hs : s.IsUnionSign) :
    (p.isPunct .bar || p.isPunct .amp) = true := by
  rw [Bool.or_eq_true, isPunct_iff, isPunct_iff, h]
  exact hs

/-- No type starts with a sign, so there is none to take. -/
theorem skipUnionSign_of_startsType (h : p.ahead.head?.any Token.startsType = true) :
    p.skipUnionSign = p := by
  have hnot : ∀ k ∈ [Punct.bar, .amp], p.isPunct k = false := by
    intro k hk
    refine isPunct_eq_false fun hkind => ?_
    obtain ⟨t, ts, hcons, ht⟩ := exists_of_headKind hkind (by simp)
    rw [hcons, List.head?_cons, Option.any_some, Token.startsType, ht] at h
    simp only [List.mem_cons, List.not_mem_nil, or_false] at hk
    rcases hk with rfl | rfl <;> exact absurd h (by decide)
  rw [skipUnionSign, hnot .bar (by decide), hnot .amp (by decide)]
  rfl

/-- Where no sign of a union stands, it has no further types. -/
theorem skipUnionTail_of_ends (h : headKind p.ahead ∈ .keyword .extendsKw :: branchEnds) :
    p.skipUnionTail = p := by
  have hends := (by decide : ∀ k ∈ .keyword .extendsKw :: branchEnds,
    k ≠ .punct .bar ∧ k ≠ .punct .amp) _ h
  rw [skipUnionTail_eq, isPunct_eq_false hends.1, isPunct_eq_false hends.2]
  rfl

/-- Where no condition stands, none is skipped. -/
theorem skipConditional_of_ends (h : headKind p.ahead ∈ branchEnds) :
    skipConditional p = p := by
  rw [skipConditional, if_neg]
  rw [isKeyword_iff]
  exact (by decide : ∀ k ∈ branchEnds, k ≠ .keyword .extendsKw) _ h

/-! ## Unions -/

/-- The parser has come from `p` over `m`, or over `c` behind it as well. -/
def Over (p q : Parser) (m c : List Token) : Prop :=
  q = p.advance m.length ∨ q = p.advance (m ++ c).length

/-- A stretch in front is passed first. -/
theorem Over.shift {q : Parser} {ts m c : List Token} (h : Over (p.advance ts.length) q m c) :
    Over p q (ts ++ m) c := by
  unfold Over at h ⊢
  simpa only [advance_advance, List.length_append, Nat.add_assoc] using h

section Induction

/-! All shorter types are taken exactly. -/

variable {n : Nat} (ih : ∀ ts : List Token, ts.length < n → TypeForm .type ts → TakenExactly ts)
include ih

/-- A primary type and the tail behind it. Either it is closed and the tail is behind it, or it ends
in a type, which then is longer. -/
theorem over_of_primary {ps m c : List Token} (hp : TypeForm .primary ps) (hm : TypeForm .tail m)
    (hc : TypeForm .condition c) (hlen : (ps ++ (m ++ c)).length ≤ n) (hh : p.halted = false)
    (h : p.ahead = ps ++ (m ++ (c ++ r))) (hr : headKind r ∈ branchEnds)
    (htail : ∀ q : Parser, q.halted = false → q.ahead = m ++ (c ++ r) →
      Over q q.skipUnionTail m c) :
    Over p p.skipPrimary.skipUnionTail (ps ++ m) c := by
  cases hp with
  | closed hclosed =>
    rw [skipPrimary_of_closed hclosed h (headKind_tail hm hc hr)]
    exact (htail (p.advance ps.length) hh (ahead_advance_of_append h)).shift
  | @openEnded hs ts hopen ht =>
    -- the type at the end takes the tail and the condition along
    have hpos := hopen.length_pos
    have hshorter : (ts ++ (m ++ c)).length < n := by
      simp only [List.length_append] at hlen ⊢
      omega
    have hend : (p.advance hs.length).ahead = (ts ++ (m ++ c)) ++ r :=
      ahead_advance_of_append (by simpa using h)
    have htaken := ih (ts ++ (m ++ c)) hshorter (ht.absorb hm hc) (p.advance hs.length) r hh hend hr
    have hlast : (p.advance (hs ++ (ts ++ (m ++ c))).length).ahead = r :=
      ahead_advance_of_append (by simpa using h)
    rw [skipPrimary_of_openHead hopen (r := ts ++ (m ++ (c ++ r))) (by simpa using h), htaken,
      advance_advance, ← List.length_append, skipUnionTail_of_ends]
    · exact .inr (by simp)
    · rw [hlast]
      exact List.mem_cons_of_mem _ hr

/-- A tail. By recursion on it, one sign with one primary type at a time. -/
theorem over_of_tail {p : Parser} {m c : List Token} (hm : TypeForm .tail m)
    (hc : TypeForm .condition c) (hlen : (m ++ c).length ≤ n) (hh : p.halted = false)
    (h : p.ahead = m ++ (c ++ r)) (hr : headKind r ∈ branchEnds) :
    Over p p.skipUnionTail m c := by
  cases hm with
  | last =>
    refine .inl (skipUnionTail_of_ends ?_)
    rw [h, List.nil_append]
    exact headKind_condition hc hr
  | @more s ps m hs hp hm =>
    have hnext : p.bump.ahead = ps ++ (m ++ (c ++ r)) := by
      rw [ahead_bump_of_cons h, ← List.append_assoc]
      rfl
    have hlong : (ps ++ (m ++ c)).length ≤ n := by
      simp only [List.length_append, List.length_cons] at hlen ⊢
      omega
    have hshort : (m ++ c).length ≤ n := Nat.le_trans (List.suffix_append ps _).length_le hlong
    have hover : Over (p.advance [s].length) p.bump.skipPrimary.skipUnionTail (ps ++ m) c :=
      over_of_primary (p := p.bump) ih hp hm hc hlong hh hnext hr
        fun q hq hahead => over_of_tail (p := q) hm hc hshort hq hahead hr
    rw [skipUnionTail_eq, if_pos (isUnionSign_of_ahead h hs)]
    exact hover.shift
termination_by m.length

/-- A union. A sign in front is skipped, and then come a primary type and the tail. -/
theorem over_of_union {us c : List Token} (hu : TypeForm .union us) (hc : TypeForm .condition c)
    (hlen : (us ++ c).length ≤ n) (hh : p.halted = false) (h : p.ahead = us ++ (c ++ r))
    (hr : headKind r ∈ branchEnds) : Over p p.skipUnion us c := by
  cases hu with
  | @union ss ps m signed hs hp hm =>
    have hparts : p.ahead = ss ++ (ps ++ (m ++ (c ++ r))) := by simpa using h
    have hsign : p.skipUnionSign = p.advance ss.length := by
      cases hs with
      | absent =>
        rw [List.nil_append] at hparts
        exact skipUnionSign_of_startsType (hparts ▸ hp.startsType_of_primary _)
      | present hs =>
        rw [skipUnionSign, if_pos (isUnionSign_of_ahead hparts hs)]
        rfl
    have hlong : (ps ++ (m ++ c)).length ≤ n := by
      simp only [List.length_append] at hlen ⊢
      omega
    have hshort : (m ++ c).length ≤ n := Nat.le_trans (List.suffix_append ps _).length_le hlong
    rw [skipUnion_eq, hsign]
    refine Over.shift (over_of_primary (p := p.advance ss.length) ih hp hm hc hlong hh
      (ahead_advance_of_append hparts) hr fun q hq hahead => ?_)
    exact over_of_tail (p := q) ih hm hc hshort hq hahead hr

/-! ## Conditions -/

/-- A union with nothing behind it that belongs to the type. -/
theorem skipUnion_of_form {us : List Token} (hu : TypeForm .union us) (hlen : us.length ≤ n)
    (hh : p.halted = false) (h : p.ahead = us ++ r) (hr : headKind r ∈ branchEnds) :
    p.skipUnion = p.advance us.length := by
  rcases over_of_union ih hu .unconditional (by simpa using hlen) hh h hr with hover | hover
  · exact hover
  · rwa [List.append_nil] at hover

/-- A condition of the grammar is skipped as a whole. Its union and its two branches are shorter
types, to which the hypothesis applies. -/
theorem skipConditional_of_form {c : List Token} (hc : TypeForm .condition c) (hlen : c.length ≤ n)
    (hh : p.halted = false) (h : p.ahead = c ++ r) (hr : headKind r ∈ branchEnds) :
    skipConditional p = p.advance c.length := by
  cases hc with
  | unconditional =>
    rw [List.nil_append] at h
    exact skipConditional_of_ends (h ▸ hr)
  | @conditional e q k us ts fs he hu hq ht hk hf =>
    simp only [List.length_cons, List.length_append] at hlen
    have hextends : p.isKeyword .extendsKw = true := by rw [isKeyword_iff, h]; exact he
    -- the union to compare with
    have hunion : p.bump.ahead = us ++ q :: (ts ++ k :: (fs ++ r)) := by
      rw [ahead_bump_of_cons h]
      simp
    have htakenUnion : p.bump.skipUnion = p.bump.advance us.length :=
      skipUnion_of_form (p := p.bump) ih hu (by omega) hh hunion (by simp [hq, branchEnds])
    generalize hp₁ : p.bump.advance us.length = p₁ at htakenUnion
    have hquestion : p₁.ahead = q :: (ts ++ k :: (fs ++ r)) := hp₁ ▸ ahead_advance_of_append hunion
    -- the first branch
    have hh₁ : p₁.bump.halted = false := by rw [← hp₁]; exact hh
    have hfirst : p₁.bump.ahead = ts ++ k :: (fs ++ r) := ahead_bump_of_cons hquestion
    have htakenFirst : p₁.bump.skipType = p₁.bump.advance ts.length :=
      ih ts (by omega) ht p₁.bump _ hh₁ hfirst (by simp [hk, branchEnds])
    generalize hp₂ : p₁.bump.advance ts.length = p₂ at htakenFirst
    have hcolon : p₂.ahead = k :: (fs ++ r) := hp₂ ▸ ahead_advance_of_append hfirst
    -- the second branch
    have hh₂ : p₂.halted = false := by rw [← hp₂]; exact hh₁
    have hexpect : p₂.expect .colon = (true, p₂.advance 1) :=
      expect_of_isPunct hcolon hh₂ (beq_iff_eq.mpr hk)
    have htakenSecond : (p₂.advance 1).skipType = (p₂.advance 1).advance fs.length :=
      ih fs (by omega) hf (p₂.advance 1) r hh₂ (ahead_bump_of_cons hcolon) hr
    rw [skipConditional, if_pos hextends, htakenUnion, skipBranches,
      if_pos (by rw [isPunct_iff, hquestion]; exact hq), htakenFirst, skipOtherwise, hexpect,
      if_pos rfl, htakenSecond, ← hp₂, ← hp₁]
    simp only [bump_eq_advance, advance_advance, List.length_cons, List.length_append]
    congr 1
    omega

end Induction

end Parser

/-! ## Types -/

open SignatureLedger.Parser in
/-- Every type of the grammar is taken, exactly. -/
theorem takenExactly_of_typeForm {ts : List Token} (h : TypeForm .type ts) : TakenExactly ts := by
  have ih : ∀ us : List Token, us.length < ts.length → TypeForm .type us → TakenExactly us :=
    fun us _ hus => takenExactly_of_typeForm hus
  intro p r hh hahead hr
  cases h with
  | @type us cs hu hc =>
    rw [List.append_assoc] at hahead
    rw [skipType_eq_conditional, if_neg (by simp [hh])]
    rcases over_of_union ih hu hc (Nat.le_refl _) hh hahead hr with hover | hover
    · -- the condition is still to be taken
      rw [hover, skipConditional_of_form (p := p.advance us.length) ih hc (by simp) hh
        (ahead_advance_of_append hahead) hr, advance_advance, List.length_append]
    · have hlast : (p.advance (us ++ cs).length).ahead = r :=
        ahead_advance_of_append (by simpa using hahead)
      rw [hover, skipConditional_of_ends (hlast ▸ hr)]
termination_by ts.length

/-- A type of the grammar may stand wherever a module has a type. -/
theorem TypePhrase.of_typeForm {ts : List Token} {next : Punct} (h : TypeForm .type ts)
    (hnext : .punct next ∈ branchEnds) : TypePhrase next ts where
  noEnd := h.noEnd
  exact := fun p t rest hh hahead ht =>
    takenExactly_of_typeForm h p (t :: rest) hh hahead (by rwa [headKind_cons, ht])

/-- **Types are taken exactly.** Where a type of the grammar stands, and behind it `;`, `,`, a
closing bracket, `=`, an opening brace or the end, the parser takes the tokens of that type and no
more, and finds nothing wrong. -/
theorem skipType_of_typeForm {p : Parser} {ts rest : List Token} (hts : TypeForm .type ts)
    (hp : p.halted = false) (h : p.ahead = ts ++ rest) (hrest : headKind rest ∈ typeEnds) :
    p.skipType = p.advance ts.length ∧ p.skipType.ahead = rest ∧ p.skipType.found = p.found := by
  have htaken := takenExactly_of_typeForm hts p rest hp h
    (List.mem_cons_of_mem _ (List.mem_cons_of_mem _ hrest))
  rw [htaken]
  exact ⟨rfl, Parser.ahead_advance_of_append h, rfl⟩

/-! ### A type with all kinds of parts -/

namespace TypeSample

open Sample (word sign reserved digit)

/-- A function type in an intersection, with a condition behind its result. -/
def source : Bytes :=
  bytes "| keyof A.B<C<D>, (x)>[] & (a: b) => x is c extends import(\"m\").T ? -1 : <U>(z) => "
    ++ bytes "typeof w = 1"

/-- The tokens of a name with type arguments. -/
def keysTokens : List Token :=
  [word 2 "keyof"] ++ ((word 8 "A" :: sign 9 .dot :: word 10 "B" :: sign 11 .less ::
    ((word 12 "C" :: sign 13 .less :: ([word 14 "D"] ++ sign 15 .greater :: sign 16 .comma ::
      sign 18 .openParen :: ([word 19 "x"] ++ sign 20 .closeParen :: []))) ++ [sign 21 .greater]))
    ++ (sign 22 .openBracket :: ([] ++ sign 23 .closeBracket :: [])))

/-- The tokens of a predicate. -/
def guardTokens : List Token :=
  ([] ++ ((sign 27 .openParen :: ([word 28 "a", sign 29 .colon, word 31 "b"] ++
    [sign 32 .closeParen])) ++ [sign 34 .arrow])) ++ (([] ++ ([word 37 "x"] ++ ([] ++
      [word 39 "is"]))) ++ [word 42 "c"])

/-- The tokens of an imported type. -/
def importTokens : List Token :=
  reserved 52 .importKw :: ((sign 58 .openParen ::
    ([⟨.stringLit, ⟨59, 62⟩, bytes "\"m\"", false⟩] ++ [sign 62 .closeParen])) ++
      [sign 63 .dot, word 64 "T"])

/-- The tokens of a generic function. -/
def genericTokens : List Token :=
  ([] ++ ((sign 73 .less :: ([word 74 "U"] ++ [sign 75 .greater])) ++
    ((sign 76 .openParen :: ([word 77 "z"] ++ [sign 78 .closeParen])) ++ [sign 80 .arrow]))) ++
      ([reserved 83 .typeofKw] ++ ([word 90 "w"] ++ []))

/-- The tokens of the whole type. -/
def tokens : List Token :=
  ([sign 0 .bar] ++ (keysTokens ++ sign 25 .amp :: (guardTokens ++ []))) ++
    reserved 44 .extendsKw :: (importTokens ++ sign 66 .question ::
      ([sign 68 .minus, digit 69 "1"] ++ sign 71 .colon :: genericTokens))

/-- The tokens behind the type. -/
def rest : List Token := [sign 92 .assign, digit 94 "1"]

/-- A word alone is a base. -/
theorem typeBase_word (lo : Nat) {text : String}
    (h : (word lo text).isTypeOperator = false) : TypeBase [word lo text] :=
  .path ⟨rfl, h, by simp [word]⟩ .nil

/-- The name with type arguments is a single type. -/
theorem keysForm : TypeForm .primary keysTokens :=
  .closed (.mk (.word (by decide) .nil)
    (.path ⟨rfl, by decide, by decide⟩ (.name rfl rfl (.args (.mk rfl rfl
      (.plain ⟨rfl, rfl, by decide⟩ (by decide) (.angle rfl rfl
        (.plain ⟨rfl, rfl, by decide⟩ (by decide) .nil)
        (.plain ⟨rfl, rfl, by decide⟩ (by decide) (.group rfl rfl
          (.plain ⟨rfl, rfl, by decide⟩ .nil) .nil))))))))
    (.cons rfl rfl rfl .nil .nil))

/-- The predicate is a single type. -/
theorem guardForm : TypeForm .primary guardTokens :=
  .openEnded
    (.function .nil (.mk rfl rfl (.plain ⟨rfl, rfl, by decide⟩ (.plain ⟨rfl, rfl, by decide⟩
      (.plain ⟨rfl, rfl, by decide⟩ .nil)))) rfl)
    (TypeForm.openEnded (.predicate .nil (typeBase_word 37 (by decide)) .nil (by decide) rfl)
      (typeBase_word 42 (by decide)).primary.single.plain).single.plain

/-- The imported type is a union of one. -/
theorem importForm : TypeForm .union importTokens :=
  (TypeBase.inlineImport rfl (.mk rfl rfl (.plain ⟨rfl, rfl, by decide⟩ .nil))
    (.name rfl rfl .nil)).primary.single

/-- The generic function is a type. -/
theorem genericForm : TypeForm .type genericTokens :=
  (TypeForm.openEnded
    (.generic .nil (.mk rfl rfl (.plain ⟨rfl, rfl, by decide⟩ (by decide) .nil))
      (.mk rfl rfl (.plain ⟨rfl, rfl, by decide⟩ .nil)) rfl)
    (TypeForm.closed (.mk (.keyword (by decide) .nil) (typeBase_word 90 (by decide))
      .nil)).single.plain).single.plain

/-- The sample is a type of the grammar. -/
theorem typeForm_tokens : TypeForm .type tokens :=
  .type (.union (.present (.inl rfl)) keysForm (.more (.inr rfl) guardForm .last))
    (.conditional rfl importForm rfl (TypeBase.negative rfl rfl).primary.single.plain rfl
      genericForm)

/-- The parse of the sample at its start. -/
def start : Parser :=
  { source, tolerance := some 64, cursor := Cursor.ofTokens (lex .typeScript source).tokens }

end TypeSample

/-- The type is taken from the source as it is lexed, up to the equals sign. -/
theorem skipType_typeSample :
    TypeForm .type TypeSample.tokens ∧ TypeSample.start.halted = false ∧
      TypeSample.start.ahead = TypeSample.tokens ++ TypeSample.rest ∧
      TypeSample.start.skipType.ahead = TypeSample.rest ∧
      TypeSample.start.skipType.found = [] := by
  have hahead : TypeSample.start.ahead = TypeSample.tokens ++ TypeSample.rest := by decide +kernel
  obtain ⟨-, hrest, hfound⟩ :=
    skipType_of_typeForm TypeSample.typeForm_tokens rfl hahead (by decide)
  exact ⟨TypeSample.typeForm_tokens, rfl, hahead, hrest, hfound⟩

end SignatureLedger
