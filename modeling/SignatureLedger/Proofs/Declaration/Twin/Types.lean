import SignatureLedger.Proofs.Declaration.Bodies
import SignatureLedger.Proofs.Declaration.Reaches
import SignatureLedger.Proofs.Declaration.Twin.Move

/-!
# Types in step

Two parses abreast take the same type, and at least one token with it. The proof follows the levels
of the grammar, and each level starts with fewer tokens or at a lower level than the one before.
-/

namespace SignatureLedger

open SignatureLedger.Parser

/-! ## Types take tokens -/

namespace Parser

variable {p : Parser}

/-- Angles take a token. -/
theorem left_takeAngle_lt (h : p.isPunct .less = true) : p.takeAngle.left < p.left := by
  obtain ⟨t, ts, hp⟩ := exists_of_not_atEnd (atEnd_of_isPunct h)
  have hleft : p.left = ts.length + 1 := congrArg List.length hp
  rw [isPunct_of_ahead hp] at h
  rw [takeAngle, left_take, hp, Extent.angle?, if_pos h, Extent.shift]
  dsimp only
  omega

/-- Nothing is left at the end to take a head of a type from. -/
theorem ahead_ne_nil_of_headBy (h : Quiet (headBy p.peek.kind p).2) : p.ahead ≠ [] := by
  intro hnil
  have hkind : p.peek.kind = .eof := by
    rw [peek, Cursor.peek, show p.cursor.ahead = [] from hnil]
    rfl
  rw [hkind] at h
  exact absurd h.running (by simp [headBy])

/-- The head of a type takes a token, if nothing is wrong with it. Where no head is found something
is reported, or the parser has stopped. -/
theorem left_headBy_lt (h : Quiet (headBy p.peek.kind p).2) :
    (headBy p.peek.kind p).2.left < p.left := by
  have hend : p.atEnd = false := by
    rw [← Bool.not_eq_true, atEnd_iff]
    exact ahead_ne_nil_of_headBy h
  have hbump := left_bump_lt hend
  have hgroup : p.peek.kind.isOpener = true → p.takeGroup.left < p.left := by
    obtain ⟨t, ts, hp⟩ := exists_of_not_atEnd hend
    have hleft : p.left = ts.length + 1 := congrArg List.length hp
    intro ho
    rw [peek_of_ahead hp] at ho
    have := left_takeGroup_lt hp ho
    omega
  revert h
  unfold headBy
  split
  case h_1 hk =>
    intro _
    have hless : p.isPunct .less = true := by simp [Parser.isPunct, Token.isPunct, hk]
    exact Nat.lt_of_le_of_lt (left_takeParens_le _) (left_takeAngle_lt hless)
  case h_2 hk => exact fun _ => hgroup (by rw [hk]; rfl)
  case h_3 hk => exact fun _ => hgroup (by rw [hk]; rfl)
  case h_4 hk => exact fun _ => hgroup (by rw [hk]; rfl)
  case h_8 =>
    intro _
    dsimp only
    split
    · have := left_bump p.bump
      omega
    · exact hbump
  case h_9 =>
    exact fun _ =>
      Nat.lt_of_le_of_lt (Nat.le_trans (left_takePath_le _) (left_takeParens_le _)) hbump
  case h_12 => exact fun h => absurd h.running (by simp)
  case h_13 => exact fun h => absurd h (not_quiet_report _ _ _ _)
  all_goals
    first
    | exact fun _ => hbump
    | exact fun _ => Nat.lt_of_le_of_lt (left_takePath_le _) hbump

/-- The head of a type takes a token, if nothing is reported. -/
theorem left_typeHead_lt (h : Quiet p.typeHead.2) : p.typeHead.2.left < p.left := by
  rw [typeHead_eq] at h ⊢
  exact Nat.lt_of_lt_of_le (left_headBy_lt h) (left_le_of_reaches (reaches_take p _))

theorem left_skipPrimary_lt (h : Quiet p.skipPrimary) : p.skipPrimary.left < p.left := by
  have htail := reaches_skipTypeTail p.typeHead.1 p.typeHead.2
  rw [skipPrimary_eq] at h ⊢
  exact Nat.lt_of_le_of_lt (left_le_of_reaches htail) (left_typeHead_lt (.of_reaches htail h))

theorem left_skipUnion_lt (h : Quiet p.skipUnion) : p.skipUnion.left < p.left := by
  have htail := reaches_skipUnionTail p.skipUnionSign.skipPrimary
  rw [skipUnion_eq] at h ⊢
  exact Nat.lt_of_lt_of_le (Nat.lt_of_le_of_lt (left_le_of_reaches htail)
    (left_skipPrimary_lt (.of_reaches htail h))) (left_skipUnionSign_le p)

/-- A type takes a token, if nothing is wrong with it. -/
theorem left_skipType_lt (h : Quiet p.skipType) : p.skipType.left < p.left := by
  have hrest := reaches_skipConditional p.skipUnion
  rw [skipType_eq_conditional] at h ⊢
  by_cases hh : p.halted = true
  · rw [if_pos hh] at h
    exact absurd h.running (by simp [hh])
  · rw [if_neg hh] at h ⊢
    exact Nat.lt_of_le_of_lt (left_le_of_reaches hrest) (left_skipUnion_lt (.of_reaches hrest h))

end Parser

namespace Runs

variable {r : Runs} {p p' : Parser}

/-! ## Parts that need no recursion -/

theorem inStep_takePath (p p' : Parser) : r.InStep takePath p p' := by
  have hpath : r.InStep (fun q => q.take (Extent.path q.ahead)) p p' :=
    inStep_take (fun _ _ h => h.path r.tails) p p'
  exact hpath.comp reaches_takeAngle (inStep_takeAngle _ _)

theorem inStep_operators (p p' : Parser) :
    r.InStep (fun q => q.take (Extent.operators q.ahead)) p p' :=
  inStep_take (fun _ _ h => h.operators r.tails) p p'

theorem inStep_takeMinus (p p' : Parser) :
    r.InStep (fun q => if q.bump.peek.kind = .numberLit then q.bump.bump else q.bump) p p' := by
  have hnumber : r.InStep (fun q => if q.peek.kind = .numberLit then q.bump else q)
      p.bump p'.bump := by
    apply InStep.ite
    · intro h
      rw [h.kind]
    · intro _
      exact inStep_bump _ _
    · intro _
      exact inStep_id _ _
  exact (inStep_bump p p').comp (fun q => .ite (fun _ => reaches_bump q) (fun _ => .refl)) hnumber

/-- Two parsers abreast read the same head of a type. -/
theorem inStep_headBy (k : TokenKind) (p p' : Parser) :
    r.InStep (fun q => (headBy k q).2) p p' := by
  unfold headBy
  split
  · exact (inStep_takeAngle p p').comp reaches_takeParens (inStep_takeParens _ _)
  · exact inStep_takeGroup p p'
  · exact inStep_takeGroup p p'
  · exact inStep_takeGroup p p'
  · exact inStep_bump p p'
  · exact inStep_bump p p'
  · exact inStep_bump p p'
  · exact inStep_takeMinus p p'
  · exact ((inStep_bump p p').comp reaches_takeParens (inStep_takeParens _ _)).comp
      reaches_takePath (inStep_takePath _ _)
  · exact (inStep_bump p p').comp reaches_takePath (inStep_takePath _ _)
  · exact (inStep_bump p p').comp reaches_takePath (inStep_takePath _ _)
  · exact .of_loud fun hq => absurd hq.running (by simp)
  · exact .of_loud (not_quiet_report _ _ _ _)

theorem inStep_typeHead (p p' : Parser) : r.InStep (fun q => q.typeHead.2) p p' := by
  have hhead : ∀ p p', r.InStep (fun q => (headBy q.peek.kind q).2) p p' := by
    intro p p' h hk hk'
    dsimp only at hk hk' ⊢
    rw [h.kind] at hk' ⊢
    exact inStep_headBy p.peek.kind p p' h hk hk'
  exact .congr (fun _ => rfl)
    ((inStep_operators p p').comp (fun q => reaches_headBy q.peek.kind q) (hhead _ _))

/-- Both heads turn out to be the same. -/
theorem typeHead_fst (h : r.Abreast p p') (hk : Keeps r.tail p.typeHead.2)
    (hk' : Keeps r.tail' p'.typeHead.2) : p'.typeHead.1 = p.typeHead.1 := by
  rw [typeHead_eq] at hk hk' ⊢
  have hafter := inStep_operators p p' h (hk.of_reaches (reaches_headBy _ _))
    (hk'.of_reaches (reaches_headBy _ _))
  rw [typeHead_eq, hafter.kind]
  exact headBy_fst _ _ _

/-! ## The grammar -/

theorem inStep_skipUnionSign (p p' : Parser) : r.InStep skipUnionSign p p' := by
  apply InStep.ite
  · intro h
    rw [h.isPunct, h.isPunct]
  · intro _
    exact inStep_bump p p'
  · intro _
    exact inStep_id p p'

mutual

/-- **Both parses take the same type.** By recursion on the tokens left and the level of the call:
the tests for `extends`, `?` and `:` come out alike, and so do the types behind them. -/
theorem inStep_skipType (p p' : Parser) : r.InStep skipType p p' := by
  apply InStep.congr skipType_eq_conditional
  apply InStep.ite
  · intro h
    rw [h.halted]
  · exact .of_halted
  intro _
  refine (inStep_skipUnion p p').comp reaches_skipConditional ?_
  apply InStep.ite
  · intro h
    rw [h.isKeyword]
  · intro hkey
    have hle := left_skipUnion_le p
    have h₁ := left_bump_lt_of_isKeyword hkey
    have h₂ := left_skipUnion_le p.skipUnion.bump
    refine ((inStep_bump _ _).comp reaches_skipUnion
      (inStep_skipUnion p.skipUnion.bump p'.skipUnion.bump)).comp reaches_skipBranches ?_
    apply InStep.ite
    · intro h
      rw [h.isPunct]
    · intro hc
      have h₃ := left_bump_lt_of_isPunct hc
      have h₄ := left_skipType_le p.skipUnion.bump.skipUnion.bump
      refine ((inStep_bump _ _).comp reaches_skipType
        (inStep_skipType p.skipUnion.bump.skipUnion.bump p'.skipUnion.bump.skipUnion.bump)).comp
        reaches_skipOtherwise ?_
      apply InStep.expect_then reaches_skipType
      intro hcolon
      have h₅ := left_bump_lt_of_isPunct hcolon
      exact inStep_skipType p.skipUnion.bump.skipUnion.bump.skipType.bump _
    · intro _
      exact inStep_id _ _
  · intro _
    exact inStep_id _ _
termination_by 5 * p.left + 4

/-- Two parsers abreast skip a union in step. -/
theorem inStep_skipUnion (p p' : Parser) : r.InStep skipUnion p p' := by
  have h₁ := left_skipUnionSign_le p
  have h₂ := left_skipPrimary_le p.skipUnionSign
  exact .congr skipUnion_eq (((inStep_skipUnionSign p p').comp reaches_skipPrimary
    (inStep_skipPrimary p.skipUnionSign p'.skipUnionSign)).comp reaches_skipUnionTail
    (inStep_skipUnionTail p.skipUnionSign.skipPrimary p'.skipUnionSign.skipPrimary))
termination_by 5 * p.left + 3

/-- Two parsers abreast skip its further members in step. -/
theorem inStep_skipUnionTail (p p' : Parser) : r.InStep skipUnionTail p p' := by
  apply InStep.congr skipUnionTail_eq
  apply InStep.ite
  · intro h
    rw [h.isPunct, h.isPunct]
  · intro h
    have hlt : p.bump.left < p.left := by
      rcases Bool.or_eq_true .. ▸ h with h | h <;> exact left_bump_lt_of_isPunct h
    have h₂ := left_skipPrimary_le p.bump
    exact ((inStep_bump p p').comp reaches_skipPrimary (inStep_skipPrimary p.bump p'.bump)).comp
      reaches_skipUnionTail (inStep_skipUnionTail p.bump.skipPrimary p'.bump.skipPrimary)
  · intro _
    exact inStep_id p p'
termination_by 5 * p.left + 2

/-- Two parsers abreast skip a single type in step. -/
theorem inStep_skipPrimary (p p' : Parser) : r.InStep skipPrimary p p' := by
  have h₁ := left_typeHead_le p
  exact .congr skipPrimary_eq (.bind (inStep_typeHead p p') typeHead_fst reaches_skipTypeTail
    (inStep_skipTypeTail p.typeHead.1 p.typeHead.2 p'.typeHead.2))
termination_by 5 * p.left + 1

/-- Two parsers abreast skip what follows its head in step. The tests for an arrow and for the word
`is` come out alike, and so does the type behind either. -/
theorem inStep_skipTypeTail (head : TypeHead) (p p' : Parser) :
    r.InStep (skipTypeTail head) p p' := by
  apply InStep.congr (skipTypeTail_eq_predicate head)
  apply InStep.ite
  · intro _
    rfl
  · intro _
    exact inStep_id p p'
  intro _
  -- the arrow of a function type
  apply InStep.ite
  · intro h
    rw [h.isPunct]
  · intro ha
    have h₁ := left_bump_lt_of_isPunct ha.2
    exact (inStep_bump p p').comp reaches_skipType (inStep_skipType p.bump p'.bump)
  intro _
  apply InStep.ite
  · intro _
    rfl
  · intro _
    exact inStep_id p p'
  intro _
  -- arrays, and the word of a type predicate
  refine (inStep_takeArrays p p').comp reaches_skipPredicate ?_
  apply InStep.ite
  · intro h
    rw [h.isWord, h.newlineBefore]
  · intro hi
    have h₂ := left_takeArrays_le p
    have h₃ := left_bump_lt_of_isWord hi.1
    exact (inStep_bump _ _).comp reaches_skipType
      (inStep_skipType p.takeArrays.bump p'.takeArrays.bump)
  · intro _
    exact inStep_id _ _
termination_by 5 * p.left

end

end Runs

end SignatureLedger
