import SignatureLedger.Proofs.Declaration.Course

/-!
# The course of types

A type is skimmed over anywhere: its brackets are groups, and the rest of it are names, words and
operators. The proof follows the levels of the grammar.
-/

namespace SignatureLedger

namespace Parser

variable {m : Place} {p : Parser}

theorem course_takePath (p : Parser) : Course m p p.takePath :=
  (course_take (.closed _ _) (skims_path m _)).trans (course_takeAngle _)

/-- A number behind its sign is a course. -/
theorem course_takeMinus (hp : p.peek.kind = .punct .minus) :
    Course m p (if p.bump.peek.kind = .numberLit then p.bump.bump else p.bump) := by
  have hbump : Course m p p.bump := course_bump_of_kind hp rfl
  exact .ite (fun h => hbump.trans (course_bump_of_kind h rfl)) (fun _ => hbump)

/-- Reading the head of a type is a course, for each kind of its first token. -/
theorem course_headBy {k : TokenKind} (hp : p.peek.kind = k) : Course m p (headBy k p).2 := by
  unfold headBy
  split
  · exact (course_takeAngle p).trans (course_takeParens _)
  · exact course_takeGroup p
  · exact course_takeGroup p
  · exact course_takeGroup p
  · exact course_bump_of_kind hp rfl
  · exact course_bump_of_kind hp rfl
  · exact course_bump_of_kind hp rfl
  · exact course_takeMinus hp
  · exact ((course_bump_of_kind hp rfl).trans (course_takeParens _)).trans (course_takePath _)
  · exact (course_bump_of_kind hp rfl).trans (course_takePath _)
  · exact (course_bump_of_kind hp rfl).trans (course_takePath _)
  · exact .of_giveUp (by decide) _
  · exact .of_report (by decide) _ .refl

theorem course_typeHead (p : Parser) : Course m p p.typeHead.2 := by
  rw [typeHead_eq]
  exact (course_take (.closed _ _) (skims_operators m _)).trans (course_headBy rfl)

theorem course_skipUnionSign (p : Parser) : Course m p p.skipUnionSign := by
  refine .ite (fun h => ?_) (fun _ => .refl)
  rcases Bool.or_eq_true .. ▸ h with h | h
  · exact course_bump_of_isPunct h rfl
  · exact course_bump_of_isPunct h rfl

theorem course_takeArrays (p : Parser) : Course m p p.takeArrays :=
  course_take (Extent.blames_arraySuffix _) (skims_arraySuffix m _)

/-! ## The grammar -/

mutual

/-- Skipping a type is a course: by induction on the tokens left, all the mutual calls at once. -/
theorem course_skipType (p : Parser) : Course m p p.skipType := by
  rw [skipType_eq_conditional]
  refine .ite (fun _ => .refl) (fun _ => (course_skipUnion p).trans ?_)
  -- the condition behind the union, and its branches
  refine .ite (fun hk => ?_) (fun _ => .refl)
  have hle := left_skipUnion_le p
  have h₁ := left_bump_lt_of_isKeyword hk
  have h₂ := left_skipUnion_le p.skipUnion.bump
  refine ((course_bump_of_isKeyword hk).trans (course_skipUnion p.skipUnion.bump)).trans ?_
  refine .ite (fun hc => ?_) (fun _ => .refl)
  have h₃ := left_bump_lt_of_isPunct hc
  have h₄ := left_skipType_le p.skipUnion.bump.skipUnion.bump
  refine ((course_bump_of_isPunct hc rfl).trans
    (course_skipType p.skipUnion.bump.skipUnion.bump)).trans (.expect_then rfl fun hcolon => ?_)
  have h₅ := left_bump_lt_of_isPunct hcolon
  exact course_skipType p.skipUnion.bump.skipUnion.bump.skipType.bump
termination_by 5 * p.left + 4

/-- So is skipping a union of types. -/
theorem course_skipUnion (p : Parser) : Course m p p.skipUnion := by
  have h₁ := left_skipUnionSign_le p
  have h₂ := left_skipPrimary_le p.skipUnionSign
  rw [skipUnion_eq]
  exact ((course_skipUnionSign p).trans (course_skipPrimary p.skipUnionSign)).trans
    (course_skipUnionTail p.skipUnionSign.skipPrimary)
termination_by 5 * p.left + 3

/-- So is skipping the further members of a union. -/
theorem course_skipUnionTail (p : Parser) : Course m p p.skipUnionTail := by
  rw [skipUnionTail_eq]
  refine .ite (fun h => ?_) (fun _ => .refl)
  obtain ⟨hlt, hbump⟩ : p.bump.left < p.left ∧ Course m p p.bump := by
    rcases Bool.or_eq_true .. ▸ h with h | h
    · exact ⟨left_bump_lt_of_isPunct h, course_bump_of_isPunct h rfl⟩
    · exact ⟨left_bump_lt_of_isPunct h, course_bump_of_isPunct h rfl⟩
  have h₂ := left_skipPrimary_le p.bump
  exact (hbump.trans (course_skipPrimary p.bump)).trans (course_skipUnionTail p.bump.skipPrimary)
termination_by 5 * p.left + 2

/-- So is skipping a single type. -/
theorem course_skipPrimary (p : Parser) : Course m p p.skipPrimary := by
  have h₁ := left_typeHead_le p
  rw [skipPrimary_eq]
  exact (course_typeHead p).trans (course_skipTypeTail p.typeHead.1 p.typeHead.2)
termination_by 5 * p.left + 1

/-- So is skipping what follows the head of a type. -/
theorem course_skipTypeTail (head : TypeHead) (p : Parser) :
    Course m p (p.skipTypeTail head) := by
  rw [skipTypeTail_eq_predicate]
  refine .ite (fun _ => .refl) (fun _ => .ite (fun ha => ?_) (fun _ => ?_))
  · -- the arrow of a function type
    have h₁ := left_bump_lt_of_isPunct ha.2
    exact (course_bump_of_isPunct ha.2 rfl).trans (course_skipType p.bump)
  · -- arrays, and the word of a type predicate
    refine .ite (fun _ => .refl) (fun _ => (course_takeArrays p).trans ?_)
    refine .ite (fun h => ?_) (fun _ => .refl)
    have h₂ := left_takeArrays_le p
    have h₃ := left_bump_lt_of_isWord h.1
    exact (course_bump_of_isWord h.1).trans (course_skipType p.takeArrays.bump)
termination_by 5 * p.left

end

end Parser

end SignatureLedger
