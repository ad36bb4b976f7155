import Mathlib.Data.List.Induction
import SignatureLedger.Proofs.Declaration.Budget

/-!
# Dropped reports

A parse drops a report whose key it has noted before, and one that repeats its last finding. For a
row of reports this module says which ones are dropped (`drops_answerAll_iff`): those that were made
before, those that repeat the last finding, and those that share their key with an earlier report
of another code or another start. With one code and one start the key tells the end
(`hi_eq_of_findingKey_eq`), but different starts do share keys (`not_onlyRepeats_drops`).
-/

namespace SignatureLedger

open Diagnostic (Code)

namespace Parser

variable {n : Nat} {p : Parser}

/-! ## Keys -/

/-- Mixing a value into a key loses nothing of the value. -/
theorem eq_of_mixKey_eq {h v w : UInt64} (heq : mixKey h v = mixKey h w) : v = w := by
  unfold mixKey at heq
  have hsum : v + (0x9E3779B97F4A7C15 : UInt64) + (h <<< 6) + (h >>> 2) =
      w + (0x9E3779B97F4A7C15 : UInt64) + (h <<< 6) + (h >>> 2) := by
    have hcancel := congrArg (h ^^^ ·) heq
    simpa only [← UInt64.xor_assoc, UInt64.xor_self, UInt64.zero_xor] using hcancel
  simpa only [UInt64.add_left_inj] using hsum

/-- With one code and one start, the key tells the end. -/
theorem hi_eq_of_findingKey_eq {code : Code} {s t : Span} (hs : s.hi < UInt32.size)
    (ht : t.hi < UInt32.size) (hlo : s.lo = t.lo)
    (hkey : findingKey code s = findingKey code t) : s.hi = t.hi := by
  have hword : s.hi.toUInt64 = t.hi.toUInt64 := by
    unfold findingKey at hkey
    simp only [List.foldl_cons, List.foldl_nil, hlo] at hkey
    exact eq_of_mixKey_eq hkey
  have hsize : UInt32.size ≤ UInt64.size := by decide
  have hnat := congrArg UInt64.toNat hword
  rwa [Nat.toUInt64_eq, Nat.toUInt64_eq, UInt64.toNat_ofNat_of_lt' (Nat.lt_of_lt_of_le hs hsize),
    UInt64.toNat_ofNat_of_lt' (Nat.lt_of_lt_of_le ht hsize)] at hnat

/-! ## One report -/

/-- **One report.** It adds nothing if its key is noted or if it repeats the last finding. -/
theorem found_report_eq_iff (hp : p.tolerance = some n) (hrunning : p.halted = false) (code : Code)
    (span : Span) (arg : Bytes) :
    (p.report code span arg).found = p.found ↔
      findingKey code span ∈ p.seen ∨ p.repeatsLast code span = true := by
  rw [report_eq hp, hrunning, Bool.false_or]
  dsimp only
  split
  · rename_i hseen
    exact iff_of_true rfl (.inl (List.contains_iff_mem.mp hseen))
  · rename_i hseen
    rw [List.contains_iff_mem] at hseen
    split
    · rename_i hlast
      exact iff_of_true rfl (.inr hlast)
    · rename_i hlast
      obtain ⟨ds, hds⟩ := found_record (p.note (findingKey code span)) n
        { code, span, args := if arg.isEmpty then [] else [arg] }
      refine iff_of_false (fun heq => ?_) (not_or.mpr ⟨hseen, hlast⟩)
      have hlength := congrArg List.length (hds.symm.trans heq)
      rw [List.length_append, List.length_cons] at hlength
      exact absurd (show p.found.length + (ds.length + 1) = p.found.length from hlength) (by omega)

/-- A report that is made while the parse goes on has its key noted afterwards. -/
theorem mem_seen_report (hp : p.tolerance = some n) (hrunning : p.halted = false) (code : Code)
    (span : Span) (arg : Bytes) (key : UInt64) :
    key ∈ (p.report code span arg).seen ↔ key = findingKey code span ∨ key ∈ p.seen := by
  rw [report_eq hp, hrunning, Bool.false_or]
  dsimp only
  split
  · rename_i hseen
    rw [List.contains_iff_mem] at hseen
    exact ⟨.inr, fun h => h.elim (fun heq => heq ▸ hseen) id⟩
  · split
    · exact List.mem_cons
    · rw [seen_record]
      exact List.mem_cons

/-- A parse that is given up stays so. -/
theorem halted_report (h : p.halted = true) (code : Code) (span : Span) (arg : Bytes) :
    p.report code span arg = p := by
  unfold report
  split
  · rfl
  · dsimp only
    rw [h, Bool.true_or, if_pos rfl]

/-- A report leaves the tolerance alone. -/
theorem tolerance_report (hp : p.tolerance = some n) (code : Code) (span : Span) (arg : Bytes) :
    (p.report code span arg).tolerance = some n := by
  rw [report_eq hp]
  split
  · exact hp
  · dsimp only
    split
    · exact hp
    · rw [tolerance_record]
      exact hp

/-! ## Rows of reports -/

/-- What is reported, and where the cursor stands then. -/
structure Call where
  code : Code
  span : Span
  arg : Bytes
  cursor : Cursor

/-- The parse after a report. -/
def answer (p : Parser) (c : Call) : Parser :=
  { p with cursor := c.cursor }.report c.code c.span c.arg

/-- The parse after a row of reports. -/
def answerAll (p : Parser) (cs : List Call) : Parser := cs.foldl answer p

/-- The same code and the same span were reported before. -/
def Call.Repeats (c : Call) (before : List Call) : Prop :=
  ∃ d ∈ before, d.code = c.code ∧ d.span = c.span

/-- A report with another code or another start has the same key. -/
def Call.SharesKey (c : Call) (before : List Call) : Prop :=
  ∃ d ∈ before, ¬ (d.code = c.code ∧ d.span.lo = c.span.lo) ∧
    findingKey d.code d.span = findingKey c.code c.span

/-- The report adds nothing to the findings. -/
def Drops (p : Parser) (c : Call) : Prop := (p.answer c).found = p.found

/-- A parse that reports and has reported nothing yet. -/
structure Fresh (n : Nat) (p : Parser) : Prop where
  listens : p.tolerance = some n
  found : p.found = []
  seen : p.seen = []

/-- The noted keys are those of the reports. -/
structure Noted (n : Nat) (cs : List Call) (p : Parser) : Prop where
  listens : p.tolerance = some n
  mem_seen_iff : ∀ key, key ∈ p.seen ↔ ∃ d ∈ cs, findingKey d.code d.span = key

variable {cs : List Call} {c : Call}

/-- A parse that is still running after an answer was running before. -/
theorem running_of_answer (h : (p.answer c).halted = false) : p.halted = false := by
  rw [← Bool.not_eq_true]
  intro hhalted
  rw [answer, halted_report (p := { p with cursor := c.cursor }) hhalted] at h
  exact absurd (h.symm.trans hhalted) Bool.false_ne_true

/-- One answer more is noted. -/
theorem Noted.answer (h : Noted n cs p) (hrunning : p.halted = false) :
    Noted n (cs ++ [c]) (p.answer c) where
  listens := tolerance_report (p := { p with cursor := c.cursor }) h.listens _ _ _
  mem_seen_iff key := by
    have hseen := mem_seen_report (p := { p with cursor := c.cursor }) h.listens hrunning c.code
      c.span c.arg key
    rw [Parser.answer, hseen, h.mem_seen_iff]
    simp only [List.mem_append, List.mem_singleton]
    constructor
    · rintro (rfl | ⟨d, hd, rfl⟩)
      · exact ⟨c, .inr rfl, rfl⟩
      · exact ⟨d, .inl hd, rfl⟩
    · rintro ⟨d, hd | rfl, rfl⟩
      · exact .inr ⟨d, hd, rfl⟩
      · exact .inl rfl

/-- **A row of reports.** While the parse goes on, all their keys are noted, and no others. -/
theorem noted_answerAll (hp : p.Fresh n) (hrunning : (p.answerAll cs).halted = false) :
    Noted n cs (p.answerAll cs) := by
  induction cs using List.reverseRecOn with
  | nil => exact ⟨hp.listens, by simp [answerAll, hp.seen]⟩
  | append_singleton cs c ih =>
    have hstep : p.answerAll (cs ++ [c]) = (p.answerAll cs).answer c := by
      rw [answerAll, List.foldl_append]
      rfl
    rw [hstep] at hrunning ⊢
    have hbefore := running_of_answer hrunning
    exact (ih hbefore).answer hbefore

/-- **Which reports are dropped.** Those of a code and a span that were reported before, those that
repeat the last finding, and those that have the key of an earlier report with another code or
another start. -/
theorem drops_answerAll_iff (hp : p.Fresh n) (hrunning : (p.answerAll cs).halted = false)
    (hspans : ∀ d ∈ c :: cs, d.span.hi < UInt32.size) :
    (p.answerAll cs).Drops c ↔
      c.Repeats cs ∨ (p.answerAll cs).repeatsLast c.code c.span = true ∨ c.SharesKey cs := by
  have hnoted := noted_answerAll hp hrunning
  have hdrops : (p.answerAll cs).Drops c ↔
      (∃ d ∈ cs, findingKey d.code d.span = findingKey c.code c.span) ∨
        (p.answerAll cs).repeatsLast c.code c.span = true := by
    rw [← hnoted.mem_seen_iff]
    exact found_report_eq_iff (p := { p.answerAll cs with cursor := c.cursor }) hnoted.listens
      hrunning c.code c.span c.arg
  rw [hdrops]
  constructor
  · rintro (⟨d, hd, hkey⟩ | hlast)
    · by_cases hsame : d.code = c.code ∧ d.span.lo = c.span.lo
      · -- the same code and the same start: the key tells the end
        have hhi : d.span.hi = c.span.hi :=
          hi_eq_of_findingKey_eq (hspans d (List.mem_cons_of_mem c hd))
            (hspans c List.mem_cons_self) hsame.2 (hsame.1 ▸ hkey)
        have hspan : d.span = c.span := by
          rw [show d.span = ⟨d.span.lo, d.span.hi⟩ from rfl, hsame.2, hhi]
        exact .inl ⟨d, hd, hsame.1, hspan⟩
      · exact .inr (.inr ⟨d, hd, hsame, hkey⟩)
    · exact .inr (.inl hlast)
  · rintro (⟨d, hd, hcode, hspan⟩ | hlast | ⟨d, hd, -, hkey⟩)
    · exact .inl ⟨d, hd, by rw [hcode, hspan]⟩
    · exact .inr hlast
    · exact .inl ⟨d, hd, hkey⟩

/-- A parse of seventy-three bytes, at its start. -/
def sampleStart : Parser :=
  { source := [], tolerance := some 64, cursor := Cursor.ofTokens [Token.eofAt 73] }

/-- The report that a semicolon is missing. -/
def missingSemicolon (span : Span) : Call := ⟨.expectedToken, span, bytes ";", ⟨[], [], 73⟩⟩

/-- Two missing semicolons that share their key. -/
theorem drops_answerAll_iff_shared :
    sampleStart.Fresh 64 ∧ (sampleStart.answerAll [missingSemicolon ⟨9, 10⟩]).halted = false ∧
      (∀ d ∈ [missingSemicolon ⟨24, 72⟩, missingSemicolon ⟨9, 10⟩], d.span.hi < UInt32.size) ∧
      ((sampleStart.answerAll [missingSemicolon ⟨9, 10⟩]).Drops (missingSemicolon ⟨24, 72⟩) ↔
        (missingSemicolon ⟨24, 72⟩).Repeats [missingSemicolon ⟨9, 10⟩] ∨
          (sampleStart.answerAll [missingSemicolon ⟨9, 10⟩]).repeatsLast .expectedToken ⟨24, 72⟩ =
            true ∨
          (missingSemicolon ⟨24, 72⟩).SharesKey [missingSemicolon ⟨9, 10⟩]) := by
  have hfresh : sampleStart.Fresh 64 := ⟨rfl, rfl, rfl⟩
  have hrunning : (sampleStart.answerAll [missingSemicolon ⟨9, 10⟩]).halted = false := by
    decide +kernel
  have hspans : ∀ d ∈ [missingSemicolon ⟨24, 72⟩, missingSemicolon ⟨9, 10⟩],
      d.span.hi < UInt32.size := by decide
  exact ⟨hfresh, hrunning, hspans, drops_answerAll_iff hfresh hrunning hspans⟩

/-- Not only repeats are dropped: the second of these semicolons is missing somewhere else. -/
theorem not_onlyRepeats_drops :
    ¬ ∀ (n : Nat) (p : Parser) (cs : List Call) (c : Call), p.Fresh n →
      (p.answerAll cs).halted = false →
      (∀ d ∈ c :: cs, d.span.lo < UInt32.size - 1 ∧ d.span.hi < UInt32.size) →
      (p.answerAll cs).Drops c →
        c.Repeats cs ∨ (p.answerAll cs).repeatsLast c.code c.span = true := by
  intro h
  have hdrops : (sampleStart.answerAll [missingSemicolon ⟨9, 10⟩]).Drops
      (missingSemicolon ⟨24, 72⟩) := by
    unfold Drops
    decide +kernel
  rcases h 64 sampleStart [missingSemicolon ⟨9, 10⟩] (missingSemicolon ⟨24, 72⟩) ⟨rfl, rfl, rfl⟩
    (by decide +kernel) (by decide) hdrops with ⟨d, hd, -, hspan⟩ | hlast
  · rw [List.mem_singleton.mp hd] at hspan
    exact absurd hspan (by decide)
  · revert hlast
    decide +kernel

/-- A source with these two faults, of which one is found. -/
example :
    let source := bytes
      "type A=B c;type Point=X yyyyyyyyyyyyyyyyyyyyyyyyyyyyyyyyyyyyyyyyyyyyyyyy;"
    (parseModule source (some 64) [] (lex .typeScript source).tokens).found.map (·.span) =
      [⟨9, 10⟩] := by
  decide +kernel

end Parser

end SignatureLedger
