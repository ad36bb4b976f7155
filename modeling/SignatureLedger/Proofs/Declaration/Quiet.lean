import SignatureLedger.Proofs.Declaration.Moves

/-!
# Quiet parses

A parse is quiet as long as it has reported nothing. Findings are never taken back, so a parse that
is quiet in the end was quiet in every state on the way (`Quiet.of_reaches`), and no report was made
(`not_quiet_report`).
-/

namespace SignatureLedger

namespace Parser

/-- Nothing has been reported, and a report would be seen. -/
structure Quiet (p : Parser) : Prop where
  listens : p.tolerance.isSome = true
  found : p.found = []
  seen : p.seen = []
  running : p.halted = false

/-- `q` comes from `p` by taking tokens and by reporting; a parse is given up only after a report.
-/
inductive Reaches (p : Parser) : Parser → Prop
  | refl : Reaches p p
  | bump {q : Parser} (h : Reaches p q) : Reaches p q.bump
  | report {q : Parser} (code : Diagnostic.Code) (span : Span) (arg : Bytes) (h : Reaches p q) :
      Reaches p (q.report code span arg)
  | giveUp {q : Parser} (code : Diagnostic.Code) (span : Span) (arg : Bytes) (h : Reaches p q) :
      Reaches p { q.report code span arg with halted := true }

variable {p q r : Parser}

/-- Two ways, one after the other. -/
theorem Reaches.trans (hpq : Reaches p q) (hqr : Reaches q r) : Reaches p r := by
  induction hqr with
  | refl => exact hpq
  | bump h ih => exact .bump ih
  | report code span arg h ih => exact .report code span arg ih
  | giveUp code span arg h ih => exact .giveUp code span arg ih

/-- A step is a way. -/
theorem reaches_bump (p : Parser) : Reaches p p.bump := .bump .refl

/-- A report is a way that takes no token. -/
theorem reaches_report (p : Parser) (code : Diagnostic.Code) (span : Span) (arg : Bytes) :
    Reaches p (p.report code span arg) := .report code span arg .refl

/-- An advance is a step and the rest of the advance. -/
theorem advance_succ (p : Parser) (n : Nat) : p.advance (n + 1) = p.bump.advance n := rfl

/-- An advance is a way. -/
theorem reaches_advance (p : Parser) (n : Nat) : Reaches p (p.advance n) := by
  induction n generalizing p with
  | zero => exact .refl
  | succ n ih => exact (reaches_bump p).trans (ih p.bump)

/-! ## Reports break the silence -/

/-- Recording a finding leaves the keys that were seen. -/
theorem seen_record (p : Parser) (n : Nat) (d : Diagnostic) : (p.record n d).seen = p.seen := by
  unfold record
  dsimp only
  split
  · rfl
  · split <;> rfl

/-- Recording a finding adds it behind those before, perhaps with a stop. -/
theorem found_record (p : Parser) (n : Nat) (d : Diagnostic) :
    ∃ ds, (p.record n d).found = p.found ++ d :: ds := by
  unfold record
  dsimp only
  split
  · exact ⟨[], rfl⟩
  · split
    · exact ⟨_, List.append_assoc _ _ _⟩
    · exact ⟨[], rfl⟩

/-- After a report a parse is not quiet any more. -/
theorem not_quiet_report (p : Parser) (code : Diagnostic.Code) (span : Span) (arg : Bytes) :
    ¬ Quiet (p.report code span arg) := by
  intro h
  obtain ⟨hlistens, hfound, hseen, hrunning⟩ := h
  unfold report at hlistens hfound hseen hrunning
  cases ht : p.tolerance with
  | none => simp [ht] at hlistens
  | some n =>
    -- a report that is dropped was seen before, or the parse is given up
    simp only [ht] at hseen hrunning
    split at hseen
    · rename_i hskip
      simp only [hskip, if_true] at hrunning
      simp [hseen, hrunning] at hskip
    · split at hseen
      · exact absurd hseen (by simp)
      · rw [seen_record] at hseen
        exact absurd hseen (by simp)

/-- The findings only grow. -/
theorem found_report (p : Parser) (code : Diagnostic.Code) (span : Span) (arg : Bytes) :
    ∃ ds, (p.report code span arg).found = p.found ++ ds := by
  unfold report
  split
  · exact ⟨[], (List.append_nil _).symm⟩
  · dsimp only
    split
    · exact ⟨[], (List.append_nil _).symm⟩
    · split
      · exact ⟨[], (List.append_nil _).symm⟩
      · obtain ⟨ds, hds⟩ := found_record
          { p with seen := findingKey code span :: p.seen } _ _
        exact ⟨_, hds⟩

/-- What a quiet parse reports is found. -/
theorem found_report_of_quiet (h : Quiet p) (code : Diagnostic.Code) (span : Span) (arg : Bytes) :
    (p.report code span arg).found ≠ [] := by
  have hlast : ({ p with seen := findingKey code span :: p.seen } : Parser).repeatsLast code span
      = false := by
    show p.found.getLast?.any _ = false
    rw [h.found]
    rfl
  unfold report
  split
  · rename_i hnone
    exact absurd h.listens (by simp [hnone])
  · dsimp only
    rw [if_neg (by simp [h.running, h.seen]), if_neg (by simp [hlast])]
    obtain ⟨ds, hds⟩ := found_record { p with seen := findingKey code span :: p.seen } _
      { code, span, args := if arg.isEmpty then [] else [arg] }
    rw [hds]
    simp

/-- **Silence goes back.** A parse that is quiet in the end was quiet before. -/
theorem Quiet.of_reaches (h : Reaches p q) (hq : Quiet q) : Quiet p := by
  induction h with
  | refl => exact hq
  | bump h ih => exact ih ⟨hq.listens, hq.found, hq.seen, hq.running⟩
  | report code span arg h ih => exact absurd hq (not_quiet_report _ _ _ _)
  | giveUp code span arg h ih => exact absurd hq.running (by simp)

/-- A parse that starts quiet and finds nothing is quiet in the end. -/
theorem quiet_of_found_eq_nil (hp : Quiet p) (h : Reaches p q) (hq : q.found = []) : Quiet q := by
  -- found is never emptied again, so that the first report decides
  have hor : Quiet q ∨ q.found ≠ [] := by
    clear hq
    induction h with
    | refl => exact .inl hp
    | bump h ih =>
      refine ih.imp (fun hq => ⟨hq.listens, hq.found, hq.seen, hq.running⟩) id
    | @report q code span arg h ih | @giveUp q code span arg h ih =>
      right
      rcases ih with hq | hq
      · exact found_report_of_quiet hq code span arg
      · obtain ⟨ds, hds⟩ := found_report q code span arg
        show (q.report code span arg).found ≠ []
        rw [hds]
        simp [hq]
  exact hor.resolve_right (fun h => h hq)

/-- Nothing that comes after a report is quiet. -/
theorem not_quiet_of_report {code : Diagnostic.Code} {span : Span} {arg : Bytes}
    (h : Reaches (p.report code span arg) q) : ¬ Quiet q :=
  fun hq => not_quiet_report _ _ _ _ (Quiet.of_reaches h hq)

/-! ## Moves -/

/-- Either of two ways. -/
theorem Reaches.ite {a b : Parser} {t : Prop} [Decidable t] (ha : t → Reaches p a)
    (hb : ¬ t → Reaches p b) : Reaches p (if t then a else b) := by
  split
  · exact ha ‹_›
  · exact hb ‹_›

/-- Skipping a sign is a way. -/
theorem reaches_skipPunct (p : Parser) (k : Punct) : Reaches p (p.skipPunct k) :=
  .ite (fun _ => reaches_bump p) (fun _ => .refl)

/-- Recovering is a way. -/
theorem reaches_recover (p : Parser) (stops : List Punct) : Reaches p (p.recover stops) :=
  reaches_advance p _

/-- A required punctuator that a quiet parse has passed was there. -/
theorem expect_of_quiet {k : Punct} (h : Quiet (p.expect k).2) :
    p.isPunct k = true ∧ p.expect k = (true, p.bump) := by
  unfold expect at h ⊢
  by_cases hh : p.halted = true
  · rw [if_pos hh] at h
    exact absurd h.running (by simp [hh])
  · rw [if_neg hh] at h ⊢
    by_cases hk : p.isPunct k = true
    · exact ⟨hk, if_pos hk⟩
    · -- where it was missing, a report was made
      rw [if_neg hk] at h
      split at h
      · exact absurd h.running (by simp)
      · exact absurd h (not_quiet_report _ _ _ _)

/-- A required punctuator that was found was there. -/
theorem expect_of_fst {k : Punct} (h : (p.expect k).1 = true) :
    p.isPunct k = true ∧ p.expect k = (true, p.bump) := by
  unfold expect at h ⊢
  by_cases hh : p.halted = true
  · simp [hh] at h
  · by_cases hk : p.isPunct k = true
    · simp [hh, hk]
    · by_cases hend : p.atEnd = true <;> simp [hh, hk, hend] at h

/-- Expecting a sign is a way. -/
theorem reaches_expect (p : Parser) (k : Punct) : Reaches p (p.expect k).2 := by
  unfold expect
  split
  · exact .refl
  · split
    · exact reaches_bump p
    · split
      · exact .giveUp _ _ _ .refl
      · exact reaches_report p _ _ _

/-- Finishing an item is a way. -/
theorem reaches_finishItem (p : Parser) : Reaches p p.finishItem := by
  unfold finishItem
  split
  · exact reaches_bump p
  · split
    · exact .refl
    · exact ((reaches_report p _ _ _).trans (reaches_recover _ _)).trans (reaches_skipPunct _ _)

/-! ## Taking stretches -/

/-- Taking a stretch is a way. -/
theorem reaches_take (p : Parser) (e : Extent) : Reaches p (p.take e) := by
  unfold take
  dsimp only
  split
  · exact .report _ _ _ (reaches_advance p _)
  · exact reaches_advance p _

/-- A quiet parse has taken only stretches in which all is closed. -/
theorem unclosed?_of_quiet {e : Extent} (h : Quiet (p.take e)) : e.unclosed? = none := by
  cases he : e.unclosed? with
  | none => rfl
  | some t =>
    unfold take at h
    rw [he] at h
    exact absurd h (not_quiet_report _ _ _ _)

/-- A stretch that is closed is taken by an advance alone. -/
theorem take_of_unclosed? {e : Extent} (h : e.unclosed? = none) (p : Parser) :
    p.take e = p.advance e.width := by
  rw [take, h]

/-! ## The tokens ahead -/

/-- Recording a finding takes no token. -/
theorem cursor_record (p : Parser) (n : Nat) (d : Diagnostic) :
    (p.record n d).cursor = p.cursor := by
  unfold record
  dsimp only
  split
  · rfl
  · split <;> rfl

/-- A report takes no token. -/
theorem cursor_report (p : Parser) (code : Diagnostic.Code) (span : Span) (arg : Bytes) :
    (p.report code span arg).cursor = p.cursor := by
  unfold report
  split
  · rfl
  · dsimp only
    split
    · rfl
    · split
      · rfl
      · rw [cursor_record]

/-- Whatever is reported on the way, the cursor only advances. -/
theorem exists_cursor_of_reaches (h : Reaches p q) : ∃ n, q.cursor = (p.advance n).cursor := by
  induction h with
  | refl => exact ⟨0, rfl⟩
  | @bump q _ ih =>
    obtain ⟨n, hn⟩ := ih
    refine ⟨n + 1, ?_⟩
    rw [← advance_advance, ← bump_eq_advance, Parser.bump, hn]
    rfl
  | @report q code span arg _ ih => rwa [cursor_report]
  | @giveUp q code span arg _ ih =>
    show ∃ n, (q.report code span arg).cursor = (p.advance n).cursor
    rwa [cursor_report]

/-- The tokens that a way leaves are the last ones. -/
theorem suffix_of_reaches (h : Reaches p q) : q.ahead <:+ p.ahead := by
  obtain ⟨n, hn⟩ := exists_cursor_of_reaches h
  rw [ahead, hn, ← ahead, ahead_advance]
  exact List.drop_suffix n p.ahead

/-- No way moves the end. -/
theorem stop_of_reaches (h : Reaches p q) : q.cursor.stop = p.cursor.stop := by
  obtain ⟨n, hn⟩ := exists_cursor_of_reaches h
  rw [hn]
  exact Cursor.stop_advance p.cursor n

/-- No way leaves more tokens. -/
theorem left_le_of_reaches (h : Reaches p q) : q.left ≤ p.left := (suffix_of_reaches h).length_le

end Parser

end SignatureLedger
