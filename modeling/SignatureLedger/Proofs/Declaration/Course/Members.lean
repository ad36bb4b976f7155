import SignatureLedger.Proofs.Declaration.Course.Types

/-!
# The course of members

The members of a class are skimmed over one after the other, each with at least one token. An
initial value is skimmed over as a value; everything else of a member is a type, a group or a word.
-/

namespace SignatureLedger

namespace Parser

variable {m : Place} {p q : Parser}

/-! ## Values, parameters and bodies -/

theorem course_skipExpr (p : Parser) : Course .value p p.skipExpr :=
  .ite (fun _ => .refl) (fun _ => course_take (Extent.blames_expr none _) (skims_expr none _))

theorem course_skipInitializer (p : Parser) : Course .items p p.skipInitializer := by
  refine .ite (fun h => ?_) (fun _ => .refl)
  have hlead : Place.value.startsBehind p.peek = true := Bool.or_eq_true _ _ ▸ .inl h
  exact .lead hlead (course_skipExpr _)

theorem course_skipParameters (p : Parser) : Course m p (skipParameters p) :=
  .ite (fun _ => course_takeGroup p) (fun hno => course_expect fun h => absurd h hno)

theorem course_skipColonType (p : Parser) : Course m p (skipColonType p) :=
  .ite (fun h => (course_bump_of_isPunct h rfl).trans (course_skipType _)) (fun _ => .refl)

theorem course_skipBody (p : Parser) : Course .items p (skipBody p) :=
  .ite (fun _ => course_takeGroup p) (fun _ => course_finishItem p)

theorem course_skipSignature (p : Parser) : Course .items p (skipSignature p) :=
  (((course_takeAngle p).trans (course_skipParameters _)).trans (course_skipColonType _)).trans
    (course_skipBody _)

/-! ## One member -/

/-- Reading the name of a member is a course, for each kind of its first token. -/
theorem course_nameBy {k : TokenKind} (hp : p.peek.kind = k) :
    Course .items p (nameBy k p).2 := by
  unfold nameBy
  split
  · exact course_bump_of_kind hp rfl
  · exact course_bump_of_kind hp rfl
  · exact course_bump_of_kind hp rfl
  · exact course_takeGroup p
  · exact course_bump_of_kind hp rfl
  · exact course_bump_of_kind hp rfl
  · -- at the end there is no brace either
    refine course_expect fun h => ?_
    rw [isPunct, Token.isPunct, hp] at h
    exact absurd h (by decide)
  · exact .of_report (by decide) _ ((sited_recover _ _).trans (sited_skipPunct _ _))

theorem course_skipMark (p : Parser) : Course m p (skipMark p) := by
  refine .ite (fun h => ?_) (fun _ => .refl)
  rcases Bool.or_eq_true .. ▸ h with h | h
  · exact course_bump_of_isPunct h rfl
  · exact course_bump_of_isPunct h rfl

/-- What follows the name is a course. -/
theorem course_skipMemberRest (isIndex : Bool) (p : Parser) :
    Course .items p (skipMemberRest isIndex p) :=
  .ite (fun _ => course_skipSignature p) (fun _ => ((course_skipColonType p).trans
    (course_skipInitializer _)).trans (course_finishItem _))

theorem course_skipNamed (p : Parser) : Course .items p (skipNamed p) := by
  have hname : Course .items p (nameBy p.peek.kind p).2 := course_nameBy rfl
  unfold skipNamed skipNamedRest
  split
  · exact hname
  · exact hname.trans ((course_skipMark _).trans (course_skipMemberRest _ _))

theorem course_skipAccessor (p : Parser) : Course m p (skipAccessor p) := by
  refine .ite (fun h => ?_) (fun _ => .refl)
  obtain ⟨w, hw⟩ := exists_isWord_of_accessor? h
  exact course_bump_of_isWord hw

theorem course_skipUnmodified {block : Bool}
    (hblock : block = true → Place.items.passes p.peek.kind = true) :
    Course .items p (skipUnmodified block p) :=
  .ite (fun h => (course_bump (hblock h)).trans (course_takeGroup _))
    (fun _ => ((course_skipAccessor p).trans (course_skipPunct _ rfl)).trans (course_skipNamed _))

/-- A member behind its decorators is a course. -/
theorem course_skipUndecorated (p : Parser) : Course .items p (skipUndecorated p) := by
  obtain ⟨k, hk, hwords, hblock⟩ := exists_words_of_memberRead {} p.ahead
  have hwidth : (ModifierRun.read {} p.ahead).width = k := hk.trans (Nat.zero_add k)
  unfold skipUndecorated
  rw [hwidth]
  refine (Course.of_advance ⟨_, .of_words hwords⟩).trans (course_skipUnmodified fun h => ?_)
  -- the word before a block is a modifier as well
  obtain ⟨t, rest, hdrop, ht⟩ := (hblock h).resolve_left (by decide)
  rw [← ahead_advance] at hdrop
  rw [peek_of_ahead hdrop, ht]
  rfl

/-- A name takes a token. Where no name is found the cursor may stand still, but not without a
report. -/
theorem left_nameBy_lt (h : Quiet (nameBy p.peek.kind p).2) :
    (nameBy p.peek.kind p).2.left < p.left := by
  have hend : p.atEnd = false := by
    rw [← Bool.not_eq_true]
    intro hend
    have hkind : p.peek.kind = .eof := by
      rw [peek, Cursor.peek, show p.cursor.ahead = [] from atEnd_iff.mp hend]
      rfl
    rw [hkind] at h
    have := (expect_of_quiet h).1
    simp [isPunct, Token.isPunct, hkind] at this
  have hbump := left_bump_lt hend
  revert h
  unfold nameBy
  split
  case h_4 hk =>
    -- a name in brackets is a group, which has its opening bracket at least
    intro _
    obtain ⟨t, ts, hp⟩ := exists_of_not_atEnd hend
    rw [peek_of_ahead hp] at hk
    have hwidth : 1 ≤ (Extent.bracketed? p.ahead).width := by
      rw [hp, Extent.bracketed?, if_pos (by rw [hk]; rfl), Extent.shift]
      dsimp only
      omega
    dsimp only
    rw [takeGroup_eq, left_take]
    rw [left_bump] at hbump
    omega
  case h_7 hk =>
    -- at the end a closing brace is asked for in vain
    intro h
    have := (expect_of_quiet h).1
    simp [Parser.isPunct, Token.isPunct, hk] at this
  case h_8 =>
    exact fun h => absurd h (not_quiet_of_report
      ((reaches_recover _ _).trans (reaches_skipPunct _ _)))
  all_goals exact fun _ => hbump

/-- Behind its modifiers a member has a name. -/
theorem left_skipNamed_lt (h : Quiet (skipNamed p)) : (skipNamed p).left < p.left := by
  have hr := reaches_skipNamedRest (nameBy p.peek.kind p).1 (nameBy p.peek.kind p).2
  exact Nat.lt_of_le_of_lt (left_le_of_reaches hr) (left_nameBy_lt (Quiet.of_reaches hr h))

/-- A member that reports nothing takes a token. -/
theorem left_skipUnmodified_le {block : Bool} (h : Quiet (skipUnmodified block p)) :
    (skipUnmodified block p).left ≤ p.left - 1 := by
  cases block with
  | true =>
    have hle : p.bump.takeGroup.left ≤ p.bump.left := left_takeGroup_le _
    rwa [left_bump] at hle
  | false =>
    have hr := (reaches_skipAccessor p).trans (reaches_skipPunct (skipAccessor p) .star)
    have hlt := Nat.lt_of_lt_of_le (left_skipNamed_lt h) (left_le_of_reaches hr)
    exact Nat.le_sub_one_of_lt hlt

/-- Behind its decorators and modifiers a member has a name or a block. -/
theorem onward_member? (p : Parser) : Onward p p.member?.2 := by
  rw [member?_snd]
  refine ⟨(course_skipDecorators p).trans (course_skipUndecorated _), fun h => ?_⟩
  have hle := left_skipUnmodified_le h
  have hdecorators := left_skipDecorators_le p
  have hmods := left_advance p.skipDecorators (ModifierRun.read {} p.skipDecorators.ahead).width
  unfold skipUndecorated
  omega

/-! ## All members -/

/-- The loop over members is a course, by induction on the tokens left. -/
theorem course_skipMembers (p : Parser) : Course .items p (skipMembers p) := by
  rw [skipMembers_eq]
  refine .ite (fun _ => .refl) (fun hends => ?_)
  have hend : p.atEnd = false := by
    simp only [bodyEnds, Bool.or_eq_true, not_or, Bool.not_eq_true] at hends
    exact hends.1.2
  refine .ite (fun h => ?_) (fun _ => ?_)
  · have hlt := left_bump_lt hend
    exact (course_bump_of_isPunct h rfl).trans (course_skipMembers p.bump)
  · have hlt := left_pastItem_lt (left_member?_le p) hend
    exact ((onward_member? p).past hend).trans (course_skipMembers (pastItem p p.member?.2))
termination_by p.left

/-- The members of a class stand between its braces. -/
theorem course_classBody (h : p.isPunct .openBrace = true) : Course .items p p.classBody.2 :=
  .body h (course_skipMembers p.bump)

end Parser

end SignatureLedger
