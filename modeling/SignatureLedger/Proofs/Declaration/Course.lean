import SignatureLedger.Proofs.Declaration.Course.Stretch
import SignatureLedger.Proofs.Declaration.Course.Unclosed

/-!
# The course of a parse

A parse takes tokens and reports, and it never reports that it stops by itself (`Proceeds`). What it
reports is about a token that it has seen (`Sited`). As long as it is quiet, the tokens that it
takes are skimmed over in their place (`Course`). All of this is shown of every move at once: where
a move finds something wrong it is loud, and nothing is said about the tokens that it takes.
-/

namespace SignatureLedger

namespace Parser

open Diagnostic (Code)

variable {m : Place} {p q r : Parser} {code : Code}

/-! ## Proceeding -/

/-- `q` comes from `p` by taking tokens and by reporting; the end of reporting is none of the
reports. -/
inductive Proceeds (p : Parser) : Parser → Prop
  | refl : Proceeds p p
  | bump {q : Parser} (h : Proceeds p q) : Proceeds p q.bump
  | report {q : Parser} {code : Code} (hcode : code ≠ .tooManyErrors) (span : Span) (arg : Bytes)
      (h : Proceeds p q) : Proceeds p (q.report code span arg)
  | giveUp {q : Parser} {code : Code} (hcode : code ≠ .tooManyErrors) (span : Span) (arg : Bytes)
      (h : Proceeds p q) : Proceeds p { q.report code span arg with halted := true }

/-- A proceeding parser only goes on. -/
theorem Proceeds.reaches (h : Proceeds p q) : Reaches p q := by
  induction h with
  | refl => exact .refl
  | bump _ ih => exact .bump ih
  | report _ span arg _ ih => exact .report _ span arg ih
  | giveUp _ span arg _ ih => exact .giveUp _ span arg ih

/-- The span is that of a token which is left, or of the end marker. -/
def Sees (p : Parser) (span : Span) : Prop :=
  (∃ t ∈ p.ahead, t.span = span) ∨ (Token.eofAt p.cursor.stop).span = span

/-- A parser sees its own token. -/
theorem sees_peek (p : Parser) : p.Sees p.peek.span := by
  cases hp : p.ahead with
  | nil =>
    right
    rw [peek, Cursor.peek, show p.cursor.ahead = [] from hp]
    rfl
  | cons t ts => exact .inl ⟨t, hp ▸ List.mem_cons_self, by rw [peek_of_ahead hp]⟩

/-- What is seen further on is seen from here. -/
theorem Sees.of_reaches {span : Span} (hr : Reaches p q) (h : q.Sees span) : p.Sees span :=
  h.imp (fun ⟨t, ht, hspan⟩ => ⟨t, (suffix_of_reaches hr).subset ht, hspan⟩)
    fun hspan => stop_of_reaches hr ▸ hspan

/-- `q` comes from `p` as in `Proceeds`, and each report is about a token that is seen from `p`. -/
inductive Sited (p : Parser) : Parser → Prop
  | refl : Sited p p
  | bump {q : Parser} (h : Sited p q) : Sited p q.bump
  | report {q : Parser} {code : Code} (hcode : code ≠ .tooManyErrors) {span : Span}
      (hspan : p.Sees span) (arg : Bytes) (h : Sited p q) : Sited p (q.report code span arg)
  | giveUp {q : Parser} {code : Code} (hcode : code ≠ .tooManyErrors) {span : Span}
      (hspan : p.Sees span) (arg : Bytes) (h : Sited p q) :
      Sited p { q.report code span arg with halted := true }

namespace Sited

/-- Where findings are sited, the parser proceeds. -/
theorem proceeds (h : Sited p q) : Proceeds p q := by
  induction h with
  | refl => exact .refl
  | bump _ ih => exact .bump ih
  | report hcode _ arg _ ih => exact .report hcode _ arg ih
  | giveUp hcode _ arg _ ih => exact .giveUp hcode _ arg ih

/-- Where findings are sited, the parser only goes on. -/
theorem reaches (h : Sited p q) : Reaches p q := h.proceeds.reaches

/-- Two sited ways, one after the other. -/
theorem trans (hpq : Sited p q) (hqr : Sited q r) : Sited p r := by
  induction hqr with
  | refl => exact hpq
  | bump _ ih => exact .bump ih
  | report hcode hspan arg _ ih => exact .report hcode (hspan.of_reaches hpq.reaches) arg ih
  | giveUp hcode hspan arg _ ih => exact .giveUp hcode (hspan.of_reaches hpq.reaches) arg ih

/-- An advance reports nothing. -/
theorem advance (p : Parser) (k : Nat) : Sited p (p.advance k) := by
  induction k generalizing p with
  | zero => exact .refl
  | succ k ih => exact (bump .refl).trans (ih p.bump)

end Sited

/-! ## Courses -/

/-- From `p` the parse proceeds to `q`, and if it is quiet all the way, it has skimmed over the
tokens in between. -/
structure Course (m : Place) (p q : Parser) : Prop where
  sited : Sited p q
  skims : Quiet q → ∃ f ts, p.ahead = ts ++ q.ahead ∧ Skimmed m f ts

namespace Course

/-- A course proceeds. -/
theorem proceeds (h : Course m p q) : Proceeds p q := h.sited.proceeds

/-- Staying is a course. -/
theorem refl : Course m p p where
  sited := .refl
  skims := fun _ => ⟨[], [], rfl, .nil⟩

/-- Two courses, one after the other. -/
theorem trans (hpq : Course m p q) (hqr : Course m q r) : Course m p r where
  sited := hpq.sited.trans hqr.sited
  skims := fun hr => by
    obtain ⟨g, ts, hts, hg⟩ := hqr.skims hr
    obtain ⟨f, us, hus, hf⟩ := hpq.skims (hr.of_reaches hqr.proceeds.reaches)
    exact ⟨f ++ g, us ++ ts, by rw [hus, hts, List.append_assoc], hf.append hg⟩

/-- Either of two courses. -/
theorem ite {a b : Parser} {t : Prop} [Decidable t] (ha : t → Course m p a)
    (hb : ¬ t → Course m p b) : Course m p (if t then a else b) := by
  split
  · exact ha ‹_›
  · exact hb ‹_›

/-- Where something was reported, nothing is said about the tokens. -/
theorem of_loud (h : Sited p q) (hq : ¬ Quiet q) : Course m p q := ⟨h, fun h => absurd h hq⟩

/-- A report about the next token. -/
theorem of_report (hcode : code ≠ .tooManyErrors) (arg : Bytes)
    (h : Sited (p.report code p.peek.span arg) q) : Course m p q :=
  .of_loud (.trans (.report hcode (sees_peek p) arg .refl) h) (not_quiet_of_report h.reaches)

/-- Giving up at the token ahead is a course. -/
theorem of_giveUp (hcode : code ≠ .tooManyErrors) (arg : Bytes) :
    Course m p { p.report code p.peek.span arg with halted := true } :=
  .of_loud (.giveUp hcode (sees_peek p) arg .refl) fun hq => absurd hq.running (by simp)

/-- A stretch of tokens is taken. -/
theorem of_advance {k : Nat} (h : ∃ f, Skimmed m f (p.ahead.take k)) :
    Course m p (p.advance k) where
  sited := .advance p k
  skims := fun _ => by
    obtain ⟨f, hf⟩ := h
    exact ⟨f, p.ahead.take k, by rw [ahead_advance, List.take_append_drop], hf⟩

end Course

/-! ## Single tokens -/

/-- A token that is passed makes a step. -/
theorem course_bump (h : m.passes p.peek.kind = true) : Course m p p.bump := by
  rw [bump_eq_advance]
  refine .of_advance ?_
  cases hp : p.ahead with
  | nil => exact ⟨[], .nil⟩
  | cons t ts =>
    rw [peek_of_ahead hp] at h
    exact ⟨[], .plain h .nil⟩

/-- A step over a token of a kind that is passed. -/
theorem course_bump_of_kind {k : TokenKind} (h : p.peek.kind = k) (hk : m.passes k = true) :
    Course m p p.bump := course_bump (h ▸ hk)

/-- A step over a sign that is passed. -/
theorem course_bump_of_isPunct {k : Punct} (h : p.isPunct k = true)
    (hk : m.passes (.punct k) = true) : Course m p p.bump := course_bump (passes_of_isPunct h hk)

/-- A step over a keyword. -/
theorem course_bump_of_isKeyword {k : Keyword} (h : p.isKeyword k = true) : Course m p p.bump := by
  rw [isKeyword, Token.isKeyword, beq_iff_eq] at h
  exact course_bump_of_kind h rfl

/-- A step over a word. -/
theorem course_bump_of_isWord {w : String} (h : p.isWord w = true) : Course m p p.bump :=
  course_bump (passes_of_isWord h)

/-- A sign that is passed may be skipped. -/
theorem course_skipPunct (p : Parser) {k : Punct} (hk : m.passes (.punct k) = true) :
    Course m p (p.skipPunct k) := .ite (course_bump_of_isPunct · hk) (fun _ => .refl)

/-- Expecting a sign reports at the token ahead. -/
theorem sited_expect (p : Parser) (k : Punct) : Sited p (p.expect k).2 := by
  unfold expect
  split
  · exact .refl
  · split
    · exact .bump .refl
    · split
      · exact .giveUp (by decide) (sees_peek p) _ .refl
      · exact .report (by decide) (sees_peek p) _ .refl

/-- A required punctuator is taken where it is, and nothing is said where it is missing. -/
theorem course_expect {k : Punct} (h : p.isPunct k = true → Course m p p.bump) :
    Course m p (p.expect k).2 where
  sited := sited_expect p k
  skims := fun hq => by
    obtain ⟨hk, heq⟩ := expect_of_quiet hq
    rw [heq] at hq ⊢
    exact (h hk).skims hq

/-- Expecting a sign that is passed is a course. -/
theorem course_expect_plain (p : Parser) {k : Punct} (hk : m.passes (.punct k) = true) :
    Course m p (p.expect k).2 := course_expect (course_bump_of_isPunct · hk)

/-- Expecting a sign, and going on behind it. -/
theorem Course.expect_then {k : Punct} {f : Parser → Parser} (hk : m.passes (.punct k) = true)
    (hf : p.isPunct k = true → Course m p.bump (f p.bump)) :
    Course m p (if (p.expect k).1 then f (p.expect k).2 else (p.expect k).2) := by
  refine .ite (fun h => ?_) (fun _ => course_expect_plain p hk)
  obtain ⟨hp, heq⟩ := expect_of_fst h
  rw [heq]
  exact (course_bump_of_isPunct hp hk).trans (hf hp)

/-- Recovering is sited. -/
theorem sited_recover (p : Parser) (stops : List Punct) : Sited p (p.recover stops) :=
  .advance p _

/-- Skipping a sign is sited. -/
theorem sited_skipPunct (p : Parser) (k : Punct) : Sited p (p.skipPunct k) := by
  unfold skipPunct
  split
  · exact .bump .refl
  · exact .refl

/-- Finishing an item is a course over items. -/
theorem course_finishItem (p : Parser) : Course .items p p.finishItem := by
  unfold finishItem
  split
  · exact course_bump_of_isPunct ‹_› rfl
  · split
    · exact .refl
    · exact .of_report (by decide) _ ((sited_recover _ _).trans (sited_skipPunct _ _))

/-! ## Stretches -/

/-- What is taken is skimmed over, or an opening token of it is complained about. -/
theorem sited_take {e : Extent} (h : e.Blames p.ahead) : Sited p (p.take e) := by
  unfold take
  dsimp only
  split
  · rename_i t ht
    exact .report (by decide) (.inl ⟨t, h t ht, rfl⟩) _ (.advance p _)
  · exact .advance p _

/-- Taking a stretch that is skimmed is a course. -/
theorem course_take {e : Extent} (hblames : e.Blames p.ahead) (h : Skims m e p.ahead) :
    Course m p (p.take e) where
  sited := sited_take hblames
  skims := fun hq => by
    have hclosed := unclosed?_of_quiet hq
    obtain ⟨f, hf⟩ := h hclosed
    rw [take_of_unclosed? hclosed, ahead_advance]
    exact ⟨f, _, (List.take_append_drop _ _).symm, hf⟩

/-- Taking a group is a course. -/
theorem course_takeGroup (p : Parser) : Course m p p.takeGroup := by
  rw [takeGroup_eq]
  exact course_take (Extent.blames_bracketed? _) (skims_bracketed? m _)

/-- Taking what stands between angles is a course. -/
theorem course_takeAngle (p : Parser) : Course m p p.takeAngle :=
  course_take (Extent.blames_angle? _) (skims_angle? m _)

/-- Taking parentheses is a course. -/
theorem course_takeParens (p : Parser) : Course m p p.takeParens :=
  course_take (Extent.blames_parens? _) (skims_parens? m _)

/-- Skipping decorators is a course. -/
theorem course_skipDecorators (p : Parser) : Course m p p.skipDecorators :=
  course_take (Extent.blames_decorators _) (skims_decorators m _)

/-! ## Parts in a place of their own -/

/-- The token behind which items start is the first one ahead. -/
theorem exists_of_startsBehind (h : m.startsBehind p.peek = true) :
    ∃ t rest, p.ahead = t :: rest ∧ m.startsBehind t = true := by
  cases hp : p.ahead with
  | nil =>
    rw [peek, Cursor.peek, show p.cursor.ahead = [] from hp] at h
    cases m <;> simp [Place.startsBehind, Token.isPunct, Token.isKeyword, Token.isWord,
      Token.eofAt] at h
  | cons t rest => exact ⟨t, rest, rfl, peek_of_ahead hp ▸ h⟩

/-- Behind its first token a value or a clause is skimmed over in its own place. -/
theorem Course.lead (ht : m.startsBehind p.peek = true) (h : Course m p.bump q) :
    Course .items p q where
  sited := (Sited.bump .refl).trans h.sited
  skims := fun hq => by
    obtain ⟨f, ts, hts, hf⟩ := h.skims hq
    obtain ⟨t, rest, hp, ht⟩ := exists_of_startsBehind ht
    rw [ahead_bump_of_cons hp] at hts
    refine ⟨f ++ [], t :: (ts ++ []), ?_, .lead ht hf .nil⟩
    rw [hp, hts, List.append_nil, List.cons_append]

/-- The sign ahead is the first token. -/
theorem exists_of_isPunct {k : Punct} (h : p.isPunct k = true) :
    ∃ t rest, p.ahead = t :: rest ∧ t.isPunct k = true := by
  obtain ⟨t, rest, hp⟩ := exists_of_not_atEnd (atEnd_of_isPunct h)
  exact ⟨t, rest, hp, isPunct_of_ahead hp k ▸ h⟩

/-- Between the braces of a body stand items or members. -/
theorem Course.body (ho : p.isPunct .openBrace = true) (h : Course .items p.bump q) :
    Course .items p (q.expect .closeBrace).2 where
  sited := ((Sited.bump .refl).trans h.sited).trans (sited_expect q _)
  skims := fun hq => by
    obtain ⟨f, ts, hts, hf⟩ := h.skims (hq.of_reaches (reaches_expect q _))
    obtain ⟨hc, heq⟩ := expect_of_quiet hq
    obtain ⟨o, rest, hp, ho⟩ := exists_of_isPunct ho
    obtain ⟨c, rest', hr, hc⟩ := exists_of_isPunct hc
    rw [ahead_bump_of_cons hp, hr] at hts
    rw [heq, ahead_bump_of_cons hr]
    refine ⟨f ++ [], o :: (ts ++ c :: []), ?_, .body ho hc hf .nil⟩
    rw [hp, hts, List.cons_append, List.append_assoc, List.cons_append, List.nil_append]

/-! ## Progress -/

/-- A course between items that takes a token, if one is left and the parse stays quiet. -/
structure Onward (p q : Parser) : Prop where
  course : Course .items p q
  left_le : Quiet q → q.left ≤ p.left - 1

namespace Onward

/-- What goes on from a later place of a course goes on from its start. -/
theorem behind (h : Course .items p q) (hqr : Onward q r) : Onward p r where
  course := h.trans hqr.course
  left_le := fun hr => by
    have := hqr.left_le hr
    have := left_le_of_reaches h.proceeds.reaches
    omega

/-- Going on, and a course behind it. -/
theorem trans (hpq : Onward p q) (h : Course .items q r) : Onward p r where
  course := hpq.course.trans h
  left_le := fun hr => by
    have := hpq.left_le (hr.of_reaches h.proceeds.reaches)
    have := left_le_of_reaches h.proceeds.reaches
    omega

/-- One step, and a course behind it. -/
theorem of_bump (hbump : Course .items p p.bump) (h : Course .items p.bump q) : Onward p q where
  course := hbump.trans h
  left_le := fun _ => left_bump p ▸ left_le_of_reaches h.proceeds.reaches

/-- A token that leads, and a course behind it. -/
theorem lead (ht : m.startsBehind p.peek = true) (h : Course m p.bump q) : Onward p q where
  course := .lead ht h
  left_le := fun _ => left_bump p ▸ left_le_of_reaches h.proceeds.reaches

/-- A report, and a sited way behind it. -/
theorem of_report (hcode : code ≠ .tooManyErrors) (arg : Bytes)
    (h : Sited (p.report code p.peek.span arg) q) : Onward p q where
  course := .of_report hcode arg h
  left_le := fun hq => absurd hq (not_quiet_of_report h.reaches)

/-- Either of two ways that go on. -/
theorem ite {a b : Parser} {t : Prop} [Decidable t] (ha : t → Onward p a)
    (hb : ¬ t → Onward p b) : Onward p (if t then a else b) := by
  split
  · exact ha ‹_›
  · exact hb ‹_›

/-- What takes no token is loud, so that the token that is passed over then does not matter. -/
theorem past (h : Onward p q) (hend : p.atEnd = false) : Course .items p (pastItem p q) := by
  unfold pastItem
  split
  · rename_i heq
    refine .of_loud (.bump h.course.sited) fun hq => ?_
    have hle := h.left_le (hq.of_reaches (reaches_bump q))
    have hlt := left_bump_lt hend
    rw [left_bump] at hlt
    omega
  · exact h.course

end Onward

end Parser

end SignatureLedger
