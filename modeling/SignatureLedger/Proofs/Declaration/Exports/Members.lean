import SignatureLedger.Proofs.Declaration.Exports.Types

/-!
# Accounts of values and of members

What stands in a value is excused by the lines that do not end it. In the body of a class the word
`export` is a name like any other, so that nothing is asked of it there; instead the members take no
closing bracket but in groups (`closing_skipMembers`). The brace that closes the body in the source
therefore closes it in the parse, unless type arguments found by looking ahead run over it
(`exporting_classBody`).
-/

namespace SignatureLedger

open SignatureLedger.Parser

namespace Grounds

variable {ts post d v : List Token} {t e : Token} {p q : Parser}

/-! ## Values -/

/-- A token of a value, with the sign or word that the value stands behind in view. -/
theorem holds_of_inValue (ht : StartsValue t d (v ++ e :: post))
    (hin : v.length < (Extent.expr none (v ++ e :: post)).width) (h : InValue v e post) :
    passed.Holds (t :: d ++ v) e post := by
  intro hout
  refine (h hout.of_append).imp (.behind _) fun h => ⟨h.1, fun he => ?_⟩
  rcases h.2 he with h | hon
  · exact h.behind _
  · exact .value (List.nil_append _).symm ht hin hon

/-- A value is accounted for behind what it stands behind. -/
theorem each_expr (ht : StartsValue t d ts) :
    (Extent.expr none ts).Each passed.Holds (t :: d) ts := by
  intro hclosed u e post hts hlt
  subst hts
  exact holds_of_inValue ht hlt (inValue_expr none _ hclosed u e post rfl hlt)

/-- The value behind the tokens `t` and `d` is taken. -/
theorem accounts_skipExpr (hpq : passed.Accounts p q) (hp : p.ahead = t :: d ++ q.ahead)
    (ht : StartsValue t d q.ahead) : passed.Accounts p q.skipExpr :=
  .ite (fun _ => hpq) fun _ => hpq.take_behind hp (each_expr ht)

/-- The value behind an equals sign is taken. -/
theorem accounts_bump_skipExpr (h : p.isPunct .assign = true) :
    passed.Accounts p p.bump.skipExpr := by
  obtain ⟨t, ts, hp⟩ := exists_of_not_atEnd (atEnd_of_isPunct h)
  have hahead := ahead_bump_of_cons hp
  rw [isPunct_of_ahead hp] at h
  refine accounts_skipExpr (d := []) (accounts_bump_of_isPunct (isPunct_of_ahead hp _ ▸ h) rfl)
    (by rw [hp, hahead]; rfl) (.inl ⟨h, rfl⟩)

theorem accounts_skipInitializer (p : Parser) : passed.Accounts p p.skipInitializer :=
  .ite accounts_bump_skipExpr fun _ => .refl

/-! ## Parameters, results and bodies -/

/-- A required sign is taken, or the parse is not quiet. -/
theorem Accounts.expect {g : Grounds} {j : Punct} (h : p.isPunct j = true → g.Accounts p p.bump) :
    g.Accounts p (p.expect j).2 where
  reaches := reaches_expect p j
  holds := fun hq => by
    obtain ⟨hj, heq⟩ := expect_of_quiet hq
    rw [heq] at hq ⊢
    exact (h hj).holds hq

/-- Finishing an item passes at most its semicolon. -/
theorem accounts_finishItem (p : Parser) : passed.Accounts p p.finishItem := by
  refine .ite (fun h => accounts_bump_of_isPunct h rfl) fun _ => .ite (fun _ => .refl) fun _ => ?_
  exact .of_report ((reaches_recover _ _).trans (reaches_skipPunct _ _))

theorem accounts_skipParameters (p : Parser) : passed.Accounts p (skipParameters p) :=
  .ite (fun _ => accounts_takeGroup p) fun hno => .expect fun h => absurd h hno

theorem accounts_skipColonType (p : Parser) : passed.Accounts p (skipColonType p) :=
  .ite (fun h => accounts_skipType p (asksForType_of_isPunct h rfl)) fun _ => .refl

theorem accounts_skipBody (p : Parser) : passed.Accounts p (skipBody p) :=
  .ite (fun _ => accounts_takeGroup p) fun _ => accounts_finishItem p

/-- What stands behind the name of a function or method. -/
theorem accounts_skipSignature (p : Parser) : passed.Accounts p (skipSignature p) :=
  (((accounts_takeAngle p).trans (accounts_skipParameters _)).trans
    (accounts_skipColonType _)).trans (accounts_skipBody _)

/-! ## One member -/

/-- A token that is no closing bracket is taken. -/
theorem closing_bump (h : p.peek.kind.isCloser = false) : closing.Accounts p p.bump :=
  .of_bump fun _ _ hp => closing_of_not (by rw [← peek_of_ahead hp, h]; decide)

/-- Reading the name of a member passes no closing bracket of an outer pair. -/
theorem closing_nameBy {k : TokenKind} (hk : p.peek.kind = k) :
    closing.Accounts p (nameBy k p).2 := by
  unfold nameBy
  split
  · exact closing_bump (by rw [hk]; rfl)
  · exact closing_bump (by rw [hk]; rfl)
  · exact closing_bump (by rw [hk]; rfl)
  · exact (accounts_takeGroup p).closing
  · exact closing_bump (by rw [hk]; rfl)
  · exact closing_bump (by rw [hk]; rfl)
  · -- at the end there is no brace either
    refine .expect fun h => ?_
    simp [Parser.isPunct, Token.isPunct, hk] at h
  · exact .of_report ((reaches_recover _ _).trans (reaches_skipPunct _ _))

theorem accounts_skipMark (p : Parser) : passed.Accounts p (skipMark p) := by
  refine .ite (fun h => ?_) fun _ => .refl
  rcases Bool.or_eq_true .. ▸ h with h | h
  · exact accounts_bump_of_isPunct h rfl
  · exact accounts_bump_of_isPunct h rfl

theorem accounts_skipMemberRest (isIndex : Bool) (p : Parser) :
    passed.Accounts p (skipMemberRest isIndex p) :=
  .ite (fun _ => accounts_skipSignature p) fun _ => ((accounts_skipColonType p).trans
    (accounts_skipInitializer _)).trans (accounts_finishItem _)

/-- Nor does the rest of the member from its name on. -/
theorem closing_skipNamed (p : Parser) : closing.Accounts p (skipNamed p) := by
  have hname : closing.Accounts p (nameBy p.peek.kind p).2 := closing_nameBy rfl
  unfold skipNamed skipNamedRest
  split
  · exact hname
  · exact hname.trans ((accounts_skipMark _).trans (accounts_skipMemberRest _ _)).closing

theorem accounts_skipAccessor (p : Parser) : passed.Accounts p (skipAccessor p) := by
  refine .ite (fun h => ?_) fun _ => .refl
  obtain ⟨w, hw⟩ := exists_isWord_of_accessor? h
  exact accounts_bump_of_ident (Token.kind_of_isWord hw)

/-- A member behind its decorators takes closing brackets only in groups. -/
theorem closing_skipUndecorated (p : Parser) : closing.Accounts p (skipUndecorated p) := by
  obtain ⟨k, hk, hwords, hblock⟩ := exists_words_of_memberRead {} p.ahead
  have hwidth : (ModifierRun.read {} p.ahead).width = k := hk.trans (Nat.zero_add k)
  unfold skipUndecorated
  rw [hwidth]
  refine (Accounts.of_advance (covers_words hwords)).closing.trans (.ite (fun h => ?_) fun _ => ?_)
  · -- the word before a block is a modifier as well
    obtain ⟨t, rest, hdrop, ht⟩ := (hblock h).resolve_left (by decide)
    rw [← ahead_advance] at hdrop
    refine (closing_bump ?_).trans (accounts_takeGroup _).closing
    rw [peek_of_ahead hdrop, ht]
    rfl
  · exact ((accounts_skipAccessor _).trans (accounts_skipPunct _ rfl)).closing.trans
      (closing_skipNamed _)

/-! ## All members -/

/-- **Members take closing brackets only in groups**, look-ahead apart. By recursion on the tokens
left, with a case for a semicolon and one for a member. -/
theorem closing_skipMembers (p : Parser) : closing.Accounts p (skipMembers p) := by
  rw [skipMembers_eq]
  refine .ite (fun _ => .refl) fun hends => ?_
  have hend : p.atEnd = false := by
    simp only [bodyEnds, Bool.or_eq_true, not_or, Bool.not_eq_true] at hends
    exact hends.1.2
  refine .ite (fun h => ?_) fun _ => ?_
  · have hlt := left_bump_lt hend
    exact (accounts_bump_of_isPunct h rfl).closing.trans (closing_skipMembers p.bump)
  · have hlt := left_pastItem_lt (left_member?_le p) hend
    have hmember : closing.Accounts p p.member?.2 := by
      rw [member?_snd]
      exact (accounts_skipDecorators p).closing.trans (closing_skipUndecorated _)
    have hpast : closing.Accounts p (pastItem p p.member?.2) := by
      refine ⟨hmember.reaches.trans (reaches_pastItem _ _), fun hq => ?_⟩
      -- a member always takes a token, so that none is lost
      have hquiet := Quiet.of_reaches (reaches_pastItem p p.member?.2) hq
      have hle := (onward_member? p).left_le hquiet
      have hbump := left_bump_lt hend
      rw [left_bump] at hbump
      rw [pastItem, if_neg (by omega)]
      exact hmember.holds hquiet
    exact hpast.trans (closing_skipMembers (pastItem p p.member?.2))
termination_by p.left

/-- **The body of a class.** The parser leaves it where its brace is closed, unless type arguments
found by looking ahead run over the closing brace. -/
theorem exporting_classBody (h : p.isPunct .openBrace = true) :
    exporting.Accounts p p.classBody.2 := by
  refine ⟨reaches_classBody p, fun hq u e post hp hle hout he => .inl ?_⟩
  obtain ⟨o, ts, hp'⟩ := exists_of_not_atEnd (atEnd_of_isPunct h)
  have ho : o.isPunct .openBrace = true := isPunct_of_ahead hp' _ ▸ h
  match u with
  | [] =>
    obtain ⟨rfl, -⟩ := List.cons.inj (hp'.symm.trans hp)
    exact absurd he (by simp [isKeyword_of_isPunct ho])
  | o' :: y =>
    obtain ⟨rfl, rfl⟩ := List.cons.inj (hp'.symm.trans hp)
    -- the bracket that closes the brace stands before the word
    obtain ⟨k, hk⟩ := Option.isSome_iff_exists.mp (hout.1 (isOpener_of_isPunct ho rfl))
    obtain ⟨y₀, c, y₁, rfl, hc, rfl, hend⟩ := groupEnd?_eq_some hk
    have hbump : p.bump.ahead = y₀ ++ c :: (y₁ ++ e :: post) := by
      rw [ahead_bump_of_cons hp']
      simp
    -- and it is taken as part of a member
    have hquiet := Quiet.of_reaches (reaches_expect (skipMembers p.bump) .closeBrace) hq
    have hleft : (skipMembers p.bump).left ≤ (y₁ ++ e :: post).length := by
      have heq := (expect_of_quiet hq).2
      have hlast : (skipMembers p.bump).bump.left ≤ post.length := by
        rw [show (skipMembers p.bump).bump = p.classBody.2 from (congrArg Prod.snd heq).symm]
        exact hle
      rw [left_bump] at hlast
      rw [List.length_append, List.length_cons]
      omega
    have hlook := (closing_skipMembers p.bump).holds hquiet y₀ c _ hbump hleft
      (outside_of_groupEnd? (hend [])) hc
    exact (hlook.extend (outside_of_groupEnd? (hend [])) hc).behind [o]

end Grounds

end SignatureLedger
