import SignatureLedger.Proofs.Declaration.Exports.Stretch

/-!
# Accounts of types

A type is always read behind a sign or a word that asks for it, and it starts with that word's
excuse: behind its operators, which ask for a type as well, the first name of a type can be any
reserved word. The proof follows the levels of the grammar from the sign on.
-/

namespace SignatureLedger

open SignatureLedger.Parser

namespace Grounds

variable {ts rest : List Token} {t : Token} {p q : Parser} {n : Nat}

/-! ## Single moves -/

/-- A stretch that is accounted for is so up to any of its tokens. -/
theorem Covers.le {g : Grounds} {m : Nat} (h : g.Covers ⟨n, none⟩ ts) (hm : m ≤ n) :
    g.Covers ⟨m, none⟩ ts :=
  fun _ u e post hts hlt => h rfl u e post hts (Nat.lt_of_lt_of_le hlt hm)

/-- A sign that is no closing bracket is taken. -/
theorem accounts_bump_of_isPunct {j : Punct} (h : p.isPunct j = true) (hj : j.isCloser = false) :
    passed.Accounts p p.bump :=
  .of_bump fun _ _ hp => passed_of_isPunct (isPunct_of_ahead hp j ▸ h) hj

/-- A word is taken. -/
theorem accounts_bump_of_ident (h : p.peek.kind = .ident) : passed.Accounts p p.bump :=
  .of_bump fun _ _ hp => passed_of_ident (peek_of_ahead hp ▸ h)

/-- Another reserved word is taken. -/
theorem accounts_bump_of_isKeyword {k : Keyword} (h : p.isKeyword k = true)
    (hk : k ≠ .exportKw) : passed.Accounts p p.bump :=
  .of_bump fun _ _ hp => passed_of_isKeyword (isKeyword_of_ahead hp k ▸ h) hk

/-- A literal is taken. -/
theorem accounts_bump_of_kind {k : TokenKind} (h : p.peek.kind = k) (hc : k.isCloser = false)
    (hk : k ≠ .keyword .exportKw) : passed.Accounts p p.bump := by
  refine .of_bump fun _ _ hp => passed_of_not ?_ ?_
  · rw [← peek_of_ahead hp, h, hc]
  · rw [← peek_of_ahead hp, Token.isKeyword, h, beq_eq_false_iff_ne]
    exact hk

theorem accounts_skipPunct (p : Parser) {j : Punct} (hj : j.isCloser = false) :
    passed.Accounts p (p.skipPunct j) :=
  .ite (fun h => accounts_bump_of_isPunct h hj) (fun _ => .refl)

theorem accounts_takeGroup (p : Parser) : passed.Accounts p p.takeGroup := by
  rw [takeGroup_eq]
  exact .of_take (covers_bracketed? _)

theorem accounts_takeAngle (p : Parser) : passed.Accounts p p.takeAngle :=
  .of_take (covers_angle? _)

theorem accounts_takeParens (p : Parser) : passed.Accounts p p.takeParens :=
  .of_take (covers_parens? _)

theorem accounts_takePath (p : Parser) : passed.Accounts p p.takePath :=
  Accounts.trans (.of_take (covers_path p.ahead)) (accounts_takeAngle _)

theorem accounts_takeArrays (p : Parser) : passed.Accounts p p.takeArrays :=
  .of_take (covers_arraySuffix _)

theorem accounts_skipDecorators (p : Parser) : passed.Accounts p p.skipDecorators :=
  .of_take (covers_decorators _)

/-! ## What asks for a type -/

/-- What asks for a type is neither a closing bracket nor the word `export`. -/
theorem TokenKind.not_of_asksForType {k : TokenKind} (h : k.asksForType = true) :
    k.isCloser = false ∧ k ≠ .keyword .exportKw := by
  cases k with
  | punct j => cases j <;> first | exact absurd h (by decide) | exact ⟨rfl, by simp⟩
  | keyword j => cases j <;> first | exact absurd h (by decide) | exact ⟨rfl, by simp⟩
  | _ => exact absurd h (by decide)

/-- A token that asks for a type is neither a closing bracket nor an export. -/
theorem passed_of_asksForType {u post : List Token} (h : t.asksForType = true) :
    passed.Holds u t post := by
  simp only [Token.asksForType, Token.isTypeOperator, Bool.or_eq_true] at h
  rcases h with (h | h) | ((((h | h) | h) | h) | h)
  · obtain ⟨hc, hk⟩ := TokenKind.not_of_asksForType h
    exact passed_of_not hc (by simpa [Token.isKeyword] using hk)
  all_goals exact passed_of_ident (Token.kind_of_isWord h)

/-- Passing a token that asks for a type passes no export. -/
theorem accounts_bump_of_asksForType (h : p.peek.asksForType = true) :
    passed.Accounts p p.bump :=
  .of_bump fun _ _ hp => passed_of_asksForType (peek_of_ahead hp ▸ h)

theorem asksForType_of_isPunct {j : Punct} (h : p.isPunct j = true)
    (hj : (TokenKind.punct j).asksForType = true) : p.peek.asksForType = true := by
  simp only [Parser.isPunct, Token.isPunct, beq_iff_eq] at h
  simp [Token.asksForType, h, hj]

theorem asksForType_of_isKeyword {k : Keyword} (h : p.isKeyword k = true)
    (hk : (TokenKind.keyword k).asksForType = true) : p.peek.asksForType = true := by
  simp only [Parser.isKeyword, Token.isKeyword, beq_iff_eq] at h
  simp [Token.asksForType, h, hk]

theorem asksForType_of_is (h : p.isWord "is" = true) : p.peek.asksForType = true := by
  simp [Token.asksForType, show p.peek.isWord "is" = true from h]

theorem asksForType_of_sign (h : (p.isPunct .bar || p.isPunct .amp) = true) :
    p.peek.asksForType = true :=
  (Bool.or_eq_true .. ▸ h).elim (asksForType_of_isPunct · rfl) (asksForType_of_isPunct · rfl)

theorem left_bump_lt_of_sign (h : (p.isPunct .bar || p.isPunct .amp) = true) :
    p.bump.left < p.left :=
  (Bool.or_eq_true .. ▸ h).elim left_bump_lt_of_isPunct left_bump_lt_of_isPunct

/-! ## Operators -/

/-- An operator before a type asks for one, the word `abstract` apart, behind which `new` comes. -/
theorem asksForType_of_isOperatorBefore (h : t.isOperatorBefore ts = true) :
    t.asksForType = true
      ∨ t.kind = .ident ∧ ts.head?.any (·.isKeyword .newKw) = true := by
  simp only [Token.isOperatorBefore, Bool.or_eq_true, Bool.and_eq_true] at h
  rcases h with ((h | h) | h) | h
  · exact .inl (by simp [Token.asksForType, h.1])
  · exact .inl (by simp_all [Token.asksForType, Token.isKeyword, TokenKind.asksForType])
  · exact .inl (by simp_all [Token.asksForType, Token.isKeyword, TokenKind.asksForType])
  · exact .inr ⟨Token.kind_of_isWord h.1, h.2⟩

/-- The first name behind what asks for a type, and behind operators, is excused. -/
theorem covers_operators (ht : passed.Holds [] t ts)
    (hasks : t.asksForType = true ∨ ts.head?.any (·.isKeyword .newKw) = true) :
    passed.Covers (((Extent.operators ts).andThen Extent.nameAt ts).shift 1) (t :: ts) := by
  induction ts generalizing t with
  | nil => exact .cons ht (covers_nothing _ _)
  | cons s ss ih =>
    cases hs : s.isOperatorBefore ss with
    | true =>
      rw [Extent.operators_cons_of_operator hs, ← shift_andThen]
      refine .cons ht ?_
      rcases asksForType_of_isOperatorBefore hs with hasks | ⟨hkind, hnew⟩
      · exact ih (passed_of_asksForType hasks) (.inl hasks)
      · exact ih (passed_of_ident hkind) (.inr hnew)
    | false =>
      rw [Extent.operators_cons_of_not hs]
      -- no operator: the word `new` would have been one
      have hasks : t.asksForType = true := by
        refine hasks.resolve_right fun hnew => ?_
        rw [List.head?_cons, Option.any_some] at hnew
        simp [Token.isOperatorBefore, hnew] at hs
      by_cases hname : s.kind.isName = true
      · have hnameAt : Extent.nameAt (s :: ss) = ⟨1, none⟩ := by
          rw [Extent.nameAt, List.head?_cons, Option.any_some, if_pos hname]
        rw [andThen_of_closed rfl, List.drop_zero, hnameAt]
        exact covers_two ht
          (passed_of_excuse (isCloser_of_isName hname) (.typeName ⟨t, rfl, hasks⟩))
      · have hnameAt : Extent.nameAt (s :: ss) = ⟨0, none⟩ := by
          rw [Extent.nameAt, List.head?_cons, Option.any_some, if_neg hname]
        rw [andThen_of_closed rfl, List.drop_zero, hnameAt]
        exact .cons ht (covers_nothing _ _)

/-- The operators behind what asks for a type, and the name behind them. -/
theorem accounts_namedOperators (h : p.peek.asksForType = true) :
    passed.Accounts p
      (p.take (((Extent.operators p.bump.ahead).andThen Extent.nameAt p.bump.ahead).shift 1)) := by
  refine .of_take ?_
  cases hp : p.ahead with
  | nil => exact fun _ u e post hts => absurd hts (by simp)
  | cons t ts =>
    rw [peek_of_ahead hp] at h
    rw [ahead_bump_of_cons hp]
    exact covers_operators (passed_of_asksForType h) (.inl h)

/-- The operators alone. -/
theorem accounts_operators (h : p.peek.asksForType = true) :
    passed.Accounts p (p.bump.take (Extent.operators p.bump.ahead)) := by
  refine (accounts_bump_of_asksForType h).trans (.of_take ?_)
  generalize p.bump.ahead = ts
  induction ts with
  | nil => exact covers_nothing _ _
  | cons t ts ih =>
    cases ht : t.isOperatorBefore ts with
    | false =>
      rw [Extent.operators_cons_of_not ht]
      exact covers_nothing _ _
    | true =>
      rw [Extent.operators_cons_of_operator ht]
      rcases asksForType_of_isOperatorBefore ht with hasks | ⟨hkind, -⟩
      · exact .cons (passed_of_asksForType hasks) ih
      · exact .cons (passed_of_ident hkind) ih

/-- The operators and the name that a type starts with. -/
theorem accounts_typeName (h : p.peek.asksForType = true)
    (hname : (p.bump.take (Extent.operators p.bump.ahead)).peek.kind.isName = true) :
    passed.Accounts p (p.bump.take (Extent.operators p.bump.ahead)).bump := by
  have hnamed := accounts_namedOperators h
  rw [Extent.operators, take_of_closed] at hname ⊢
  have hat : Extent.nameAt (p.bump.ahead.drop (typeOperatorsWidth p.bump.ahead)) = ⟨1, none⟩ := by
    rw [← ahead_advance]
    cases hp : (p.bump.advance (typeOperatorsWidth p.bump.ahead)).ahead with
    | nil =>
      rw [peek, Cursor.peek, show (p.bump.advance _).cursor.ahead = [] from hp] at hname
      exact absurd hname (by simp [Token.eofAt, TokenKind.isName])
    | cons t rest =>
      rw [peek_of_ahead hp] at hname
      rw [Extent.nameAt, List.head?_cons, Option.any_some, if_pos hname]
  rw [Extent.operators, andThen_of_closed rfl, hat] at hnamed
  rwa [bump_eq_advance, bump_eq_advance, advance_advance, advance_advance]

/-! ## Heads of types -/

/-- A head that is no name. -/
theorem accounts_headBy {k : TokenKind} (hk : q.peek.kind = k) (hname : ¬ k.isName = true) :
    passed.Accounts q (headBy k q).2 := by
  unfold headBy
  split
  · exact (accounts_takeAngle q).trans (accounts_takeParens _)
  · exact accounts_takeGroup q
  · exact accounts_takeGroup q
  · exact accounts_takeGroup q
  · exact accounts_bump_of_kind hk rfl (by decide)
  · exact accounts_bump_of_kind hk rfl (by decide)
  · exact accounts_bump_of_kind hk rfl (by decide)
  · -- a minus sign, and the number behind it
    have hbump : passed.Accounts q q.bump := accounts_bump_of_kind hk rfl (by decide)
    exact .ite (fun h => hbump.trans (accounts_bump_of_kind h rfl (by decide))) fun _ => hbump
  · exact absurd rfl hname
  · exact absurd rfl hname
  · exact absurd rfl hname
  · exact .of_loud (.giveUp _ _ _ .refl) fun h => absurd h.running (by simp)
  · exact .of_report .refl

/-- A name is a word or a reserved word. -/
theorem TokenKind.eq_of_isName {k : TokenKind} (h : k.isName = true) :
    k = .ident ∨ ∃ j, k = .keyword j := by
  cases k with
  | ident => exact .inl rfl
  | keyword j => exact .inr ⟨j, rfl⟩
  | _ => exact absurd h (by simp [TokenKind.isName])

/-- The head of a type behind what asks for one. -/
theorem accounts_typeHead (h : p.peek.asksForType = true) :
    passed.Accounts p p.bump.typeHead.2 := by
  rw [typeHead_eq]
  by_cases hname : (p.bump.take (Extent.operators p.bump.ahead)).peek.kind.isName = true
  · have hbump := accounts_typeName h hname
    generalize p.bump.take (Extent.operators p.bump.ahead) = q at hname hbump ⊢
    rcases TokenKind.eq_of_isName hname with hk | ⟨j, hk⟩
    · rw [hk]
      exact hbump.trans (accounts_takePath _)
    · rw [hk]
      by_cases hj : j = .importKw
      · rw [hj]
        exact (hbump.trans (accounts_takeParens _)).trans (accounts_takePath _)
      · rw [headBy_keyword hj]
        exact hbump.trans (accounts_takePath _)
  · exact (accounts_operators h).trans (accounts_headBy rfl hname)

/-! ## The grammar -/

/-- A required sign that asks for a type, and what is taken behind it. -/
theorem accounts_expect_then {j : Punct} {f : Parser → Parser}
    (h : p.isPunct j = true → passed.Accounts p (f p.bump)) :
    passed.Accounts p (if (p.expect j).1 then f (p.expect j).2 else (p.expect j).2) := by
  by_cases hfound : (p.expect j).1 = true
  · obtain ⟨hk, heq⟩ := expect_of_fst hfound
    rw [if_pos hfound, heq]
    exact h hk
  · -- where the sign is missing the parse is not quiet
    rw [if_neg hfound]
    refine .of_loud (reaches_expect p j) fun hq => hfound ?_
    rw [(expect_of_quiet hq).2]

mutual

/-- A type behind what asks for one. Its union stands behind that token, and the parts of a
condition stand behind `extends`, `?` and `:`, which ask for a type too. -/
theorem accounts_skipType (p : Parser) (h : p.peek.asksForType = true) :
    passed.Accounts p p.bump.skipType := by
  rw [skipType_eq_conditional]
  refine .ite (fun _ => accounts_bump_of_asksForType h) fun _ => (accounts_skipUnion p h).trans ?_
  -- the condition behind the union, and its branches
  have h₁ := left_skipUnion_le p.bump
  generalize p.bump.skipUnion = q at h₁ ⊢
  refine .ite (fun hk => ?_) fun _ => .refl
  have hextends : q.peek.asksForType = true := asksForType_of_isKeyword hk rfl
  have h₂ := left_bump_lt_of_isKeyword hk
  refine (accounts_skipUnion q hextends).trans ?_
  have h₃ := left_skipUnion_le q.bump
  generalize q.bump.skipUnion = r at h₃ ⊢
  refine .ite (fun hc => ?_) fun _ => .refl
  have h₄ := left_bump_lt_of_isPunct hc
  refine (accounts_skipType r (asksForType_of_isPunct hc rfl)).trans ?_
  have h₅ := left_skipType_le r.bump
  generalize r.bump.skipType = s at h₅ ⊢
  refine accounts_expect_then fun hcolon => ?_
  have h₆ := left_bump_lt_of_isPunct hcolon
  exact accounts_skipType s (asksForType_of_isPunct hcolon rfl)
termination_by 5 * p.bump.left + 4
decreasing_by all_goals simp only [left_bump] at *; omega

/-- A union behind what asks for a type. -/
theorem accounts_skipUnion (p : Parser) (h : p.peek.asksForType = true) :
    passed.Accounts p p.bump.skipUnion := by
  have h₁ := left_skipUnionSign_le p.bump
  have h₂ := left_skipPrimary_le p.bump.skipUnionSign
  rw [skipUnion_eq]
  have hprimary : passed.Accounts p p.bump.skipUnionSign.skipPrimary := by
    unfold skipUnionSign
    by_cases hsign : (p.bump.isPunct .bar || p.bump.isPunct .amp) = true
    · rw [if_pos hsign]
      have hasks := asksForType_of_sign hsign
      have h₃ := left_bump_lt_of_sign hsign
      exact (accounts_bump_of_asksForType h).trans (accounts_skipPrimary p.bump hasks)
    · rw [if_neg hsign]
      exact accounts_skipPrimary p h
  exact hprimary.trans (accounts_skipUnionTail p.bump.skipUnionSign.skipPrimary)
termination_by 5 * p.bump.left + 3
decreasing_by all_goals simp only [left_bump] at *; omega

/-- The signs of a union ask for a type. -/
theorem accounts_skipUnionTail (p : Parser) : passed.Accounts p p.skipUnionTail := by
  rw [skipUnionTail_eq]
  refine .ite (fun hsign => ?_) fun _ => .refl
  have h₁ := left_bump_lt_of_sign hsign
  have h₂ := left_skipPrimary_le p.bump
  exact (accounts_skipPrimary p (asksForType_of_sign hsign)).trans
    (accounts_skipUnionTail p.bump.skipPrimary)
termination_by 5 * p.left + 2
decreasing_by all_goals simp only [left_bump] at *; omega

/-- A primary type behind what asks for one. -/
theorem accounts_skipPrimary (p : Parser) (h : p.peek.asksForType = true) :
    passed.Accounts p p.bump.skipPrimary := by
  have h₁ := left_typeHead_le p.bump
  rw [skipPrimary_eq]
  exact (accounts_typeHead h).trans (accounts_skipTypeTail p.bump.typeHead.1 p.bump.typeHead.2)
termination_by 5 * p.bump.left + 1
decreasing_by all_goals simp only [left_bump] at *; omega

/-- An arrow asks for a type, and so does the word of a predicate. -/
theorem accounts_skipTypeTail (head : TypeHead) (p : Parser) :
    passed.Accounts p (p.skipTypeTail head) := by
  rw [skipTypeTail_eq_predicate]
  refine .ite (fun _ => .refl) fun _ => .ite (fun ha => ?_) fun _ => ?_
  · -- the result of a function type
    have h₁ := left_bump_lt_of_isPunct ha.2
    exact accounts_skipType p (asksForType_of_isPunct ha.2 rfl)
  refine .ite (fun _ => .refl) fun _ => ?_
  have h₂ := left_takeArrays_le p
  refine (accounts_takeArrays p).trans (.ite (fun hi => ?_) fun _ => .refl)
  have h₃ := left_bump_lt_of_isWord hi.1
  exact accounts_skipType p.takeArrays (asksForType_of_is hi.1)
termination_by 5 * p.left
decreasing_by all_goals simp only [left_bump] at *; omega

end

end Grounds

end SignatureLedger
