import SignatureLedger.Proofs.Declaration.Course.Items
import SignatureLedger.Token.Lexer

/-!
# The budget of a parse

A parse reports so many errors and no more. This module says what one report does to the findings
(`budget_report`) and from that what a whole parse finds (`withinBudget_parseModule`): how many
errors, when it says that it stops, and that it finds nothing twice.
-/

namespace SignatureLedger

open Diagnostic (Code Severity)

namespace Diagnostic

/-! ## Findings of a parse -/

/-- An error that is no end of reporting. -/
def IsParseError (d : Diagnostic) : Prop := d.severity = .error ∧ d.code ≠ .tooManyErrors

/-- The end of reporting. -/
def IsStop (d : Diagnostic) : Prop := d.severity = .fatal ∧ d.code = .tooManyErrors

/-- Severity, code and span are the same. -/
def SameFinding (d e : Diagnostic) : Prop :=
  d.severity = e.severity ∧ d.code = e.code ∧ d.span = e.span

/-- If all the findings are errors of the parser, they count as many as they are. -/
theorem count_error_of_isParseError {ds : List Diagnostic} (h : ∀ d ∈ ds, d.IsParseError) :
    count .error ds = ds.length := by
  rw [count, List.countP_eq_length]
  exact fun d hd => by simp [(h d hd).1]

/-- The stop does not count as an error. -/
theorem count_error_append_of_isStop {ds : List Diagnostic} {stop : Diagnostic}
    (hstop : stop.IsStop) : count .error (ds ++ [stop]) = count .error ds := by
  simp [count, hstop.1]

end Diagnostic

namespace Parser

open Diagnostic

variable {tolerance : Nat} {p q : Parser} {found : List Diagnostic} {halted : Bool}

/-! ## How much is spent -/

/-- How much of the budget is spent: a part of it; all of it, so that the parse stops without a
word; or all that is tolerated, so that it says that it stops. -/
inductive Spent (tolerance : Nat) (found : List Diagnostic) (halted : Bool) : Prop
  | partly (herrors : ∀ d ∈ found, d.IsParseError)
      (hlt : found.length < min (max tolerance 1) errorCap)
  | full (herrors : ∀ d ∈ found, d.IsParseError) (hlength : found.length = errorCap)
      (hcap : errorCap ≤ max tolerance 1) (hhalted : halted = true)
  | stopped (errors : List Diagnostic) (stop : Diagnostic) (hfound : found = errors ++ [stop])
      (herrors : ∀ d ∈ errors, d.IsParseError) (hstop : stop.IsStop)
      (hlength : errors.length = max tolerance 1) (hcap : max tolerance 1 < errorCap)
      (hhalted : halted = true)

/-- Giving up changes nothing about what is spent. -/
theorem Spent.giveUp (h : Spent tolerance found halted) : Spent tolerance found true := by
  cases h with
  | partly herrors hlt => exact .partly herrors hlt
  | full herrors hlength hcap _ => exact .full herrors hlength hcap rfl
  | stopped errors stop hfound herrors hstop hlength hcap _ =>
    exact .stopped errors stop hfound herrors hstop hlength hcap rfl

/-- The findings of a parse on its way. -/
structure Budget (tolerance : Nat) (p : Parser) : Prop where
  listens : p.tolerance = some tolerance
  spent : Spent tolerance p.found p.halted
  /-- Every error was noted by its key. -/
  noted : ∀ d ∈ p.found, d.severity = .error → findingKey d.code d.span ∈ p.seen
  distinct : p.found.Pairwise fun d e => ¬ d.SameFinding e

/-! ## One report -/

/-- One finding more is within the budget, or stops the parse. -/
theorem spent_record {d : Diagnostic} (herrors : ∀ e ∈ p.found, e.IsParseError)
    (hlt : p.found.length < min (max tolerance 1) errorCap) (hd : d.IsParseError) :
    Spent tolerance (p.record tolerance d).found (p.record tolerance d).halted := by
  have hall : ∀ e ∈ p.found ++ [d], e.IsParseError := by
    intro e he
    rcases List.mem_append.mp he with he | he
    · exact herrors e he
    · exact List.mem_singleton.mp he ▸ hd
  have hcount : count .error (p.found ++ [d]) = p.found.length + 1 := by
    rw [count_error_of_isParseError hall, List.length_append, List.length_singleton]
  have hlength : (p.found ++ [d]).length = p.found.length + 1 := List.length_append ..
  unfold record
  dsimp only
  rw [hcount]
  split
  · exact .full hall (hlength.trans (by omega)) (by omega) rfl
  · split
    · exact .stopped _ _ rfl hall ⟨rfl, rfl⟩ (by omega) (by omega) rfl
    · exact .partly hall (hlength.symm ▸ (by omega))

/-- What is recorded is the error, and behind it at most the end of reporting. -/
theorem exists_found_record (p : Parser) (tolerance : Nat) (d : Diagnostic) :
    ∃ stop? : Option Diagnostic, (p.record tolerance d).found = p.found ++ d :: stop?.toList
      ∧ ∀ e ∈ stop?.toList, e.IsStop := by
  unfold record
  dsimp only
  split
  · exact ⟨none, rfl, by simp⟩
  · split
    · exact ⟨some _, List.append_assoc .., by simp [IsStop]⟩
    · exact ⟨none, rfl, by simp⟩

/-- Recording a finding leaves the tolerance alone. -/
theorem tolerance_record (p : Parser) (n : Nat) (d : Diagnostic) :
    (p.record n d).tolerance = p.tolerance := by
  unfold record
  dsimp only
  split
  · rfl
  · split <;> rfl

/-- The state after a key is noted. -/
def note (p : Parser) (key : UInt64) : Parser := { p with seen := key :: p.seen }

/-- A report is recorded unless the parse was stopped or the finding was made before. -/
theorem report_eq (h : p.tolerance = some tolerance) (code : Code) (span : Span) (arg : Bytes) :
    p.report code span arg =
      if p.halted || p.seen.contains (findingKey code span) then p
      else
        let q := p.note (findingKey code span)
        if q.repeatsLast code span then q
        else q.record tolerance { code, span, args := if arg.isEmpty then [] else [arg] } := by
  unfold report
  split
  · rename_i hnone
    exact absurd (hnone.symm.trans h) (by simp)
  · rename_i n hn
    obtain rfl := Option.some.inj (hn.symm.trans h)
    rfl

/-- Noting a key costs nothing. -/
theorem Budget.note (h : Budget tolerance p) (key : UInt64) : Budget tolerance (p.note key) where
  listens := h.listens
  spent := h.spent
  noted := fun d hd he => List.mem_cons_of_mem _ (h.noted d hd he)
  distinct := h.distinct

/-- While the parse goes on, all that is found are errors, fewer than there may be. -/
theorem Budget.running (h : Budget tolerance p) (hh : p.halted = false) :
    (∀ d ∈ p.found, d.IsParseError) ∧ p.found.length < min (max tolerance 1) errorCap := by
  cases h.spent with
  | partly herrors hlt => exact ⟨herrors, hlt⟩
  | full _ _ _ hhalted | stopped _ _ _ _ _ _ _ hhalted =>
    exact absurd (hh.symm.trans hhalted) (by simp)

/-- A new error is recorded within the budget. It adds a new key to those noted, and at most one
more finding, the one that ends the reporting. -/
theorem Budget.record (h : Budget tolerance p) (hh : p.halted = false) {code : Code}
    (hcode : code ≠ .tooManyErrors) (span : Span) (args : List Bytes)
    (hkey : findingKey code span ∉ p.seen) :
    Budget tolerance ((p.note (findingKey code span)).record tolerance { code, span, args }) := by
  obtain ⟨herrors, hlt⟩ := h.running hh
  obtain ⟨stop?, hfound, hstops⟩ :=
    exists_found_record (p.note (findingKey code span)) tolerance { code, span, args }
  refine ⟨(tolerance_record _ _ _).trans h.listens, spent_record herrors hlt ⟨rfl, hcode⟩, ?_, ?_⟩
  · intro e he herror
    rw [hfound, List.mem_append, List.mem_cons] at he
    rw [seen_record]
    rcases he with he | rfl | he
    · exact List.mem_cons_of_mem _ (h.noted e he herror)
    · exact List.mem_cons_self
    · exact absurd ((hstops e he).1.symm.trans herror) (by decide)
  · -- the new error has a new key, and only the end of reporting is fatal
    rw [hfound, List.pairwise_append, List.pairwise_cons]
    refine ⟨h.distinct, ⟨fun e he hsame => ?_, ?_⟩, fun e he e' he' hsame => ?_⟩
    · exact absurd (hsame.1.trans (hstops e he).1) (by simp)
    · cases stop? <;> simp
    · rcases List.mem_cons.mp he' with rfl | he'
      · have hseen := h.noted e he hsame.1
        rw [hsame.2.1, hsame.2.2] at hseen
        exact hkey hseen
      · exact absurd ((herrors e he).1.symm.trans (hsame.1.trans (hstops e' he').1)) (by simp)

/-- **One report.** A parse that reports an error stays within its budget. -/
theorem budget_report (h : Budget tolerance p) {code : Code} (hcode : code ≠ .tooManyErrors)
    (span : Span) (arg : Bytes) : Budget tolerance (p.report code span arg) := by
  rw [report_eq h.listens]
  split
  · exact h
  rename_i hnew
  simp only [Bool.or_eq_true, not_or, Bool.not_eq_true] at hnew
  have hkey : findingKey code span ∉ p.seen := by simpa using hnew.2
  dsimp only
  split
  · exact h.note _
  · exact h.record hnew.1 hcode span _ hkey

/-! ## The whole parse -/

/-- Every step of the parser keeps the budget. -/
theorem budget_of_proceeds (hp : Budget tolerance p) (h : Proceeds p q) : Budget tolerance q := by
  induction h with
  | refl => exact hp
  | bump _ ih => exact ⟨ih.listens, ih.spent, ih.noted, ih.distinct⟩
  | report hcode span arg _ ih => exact budget_report ih hcode span arg
  | giveUp hcode span arg _ ih =>
    have hreport := budget_report ih hcode span arg
    exact ⟨hreport.listens, hreport.spent.giveUp, hreport.noted, hreport.distinct⟩

/-- What a parse may find in all: so many errors, at most one finding that says that it stops, and
that one behind the last error that is tolerated; and nothing twice. -/
structure WithinBudget (tolerance : Nat) (found : List Diagnostic) : Prop where
  errors_le : count .error found ≤ min (max tolerance 1) 1024
  stops_le : found.countP (·.code = .tooManyErrors) ≤ 1
  stops_iff : (∃ d ∈ found, d.code = .tooManyErrors) ↔
    count .error found = max tolerance 1 ∧ max tolerance 1 < 1024
  stop_last : ∀ d ∈ found, d.code = .tooManyErrors → found.getLast? = some d
  distinct : found.Pairwise fun d e => ¬ d.SameFinding e

/-- No error of the parser is a stop. -/
theorem not_exists_stop (h : ∀ d ∈ found, d.IsParseError) :
    ¬ ∃ d ∈ found, d.code = .tooManyErrors := fun ⟨d, hd, hcode⟩ => (h d hd).2 hcode

/-- Errors of the parser hold no stop. -/
theorem countP_stop_of_isParseError (h : ∀ d ∈ found, d.IsParseError) :
    found.countP (·.code = .tooManyErrors) = 0 := by
  rw [List.countP_eq_zero]
  exact fun d hd => by simpa using (h d hd).2

/-- A budget that is kept bounds the findings. There are three states of it: part of it is spent, it
is spent as a whole, or the reporting has ended. -/
theorem Budget.withinBudget (h : Budget tolerance p) : WithinBudget tolerance p.found := by
  cases h.spent with
  | partly herrors hlt =>
    have hcount := count_error_of_isParseError herrors
    have hno := not_exists_stop herrors
    refine ⟨?_, ?_, ?_, fun d hd hcode => absurd ⟨d, hd, hcode⟩ hno, h.distinct⟩
    all_goals unfold errorCap at hlt
    · omega
    · rw [countP_stop_of_isParseError herrors]
      exact Nat.zero_le _
    · exact iff_of_false hno (by omega)
  | full herrors hlength hcap _ =>
    have hcount := count_error_of_isParseError herrors
    have hno := not_exists_stop herrors
    refine ⟨?_, ?_, ?_, fun d hd hcode => absurd ⟨d, hd, hcode⟩ hno, h.distinct⟩
    all_goals unfold errorCap at hcap hlength
    · omega
    · rw [countP_stop_of_isParseError herrors]
      exact Nat.zero_le _
    · exact iff_of_false hno (by omega)
  | stopped errors stop hfound herrors hstop hlength hcap _ =>
    have hcount : count .error p.found = errors.length := by
      rw [hfound, count_error_append_of_isStop hstop, count_error_of_isParseError herrors]
    refine ⟨?_, ?_, ?_, fun d hd hcode => ?_, h.distinct⟩
    · unfold errorCap at hcap
      omega
    · rw [hfound, List.countP_append, countP_stop_of_isParseError herrors, Nat.zero_add]
      exact List.countP_le_length
    · refine iff_of_true ⟨stop, by simp [hfound], hstop.2⟩ ⟨by omega, hcap⟩
    · rw [hfound, List.getLast?_concat]
      rw [hfound] at hd
      rcases List.mem_append.mp hd with hd | hd
      · exact absurd hcode (herrors d hd).2
      · rw [List.mem_singleton.mp hd]

/-- A parse that is given up finds nothing more. -/
theorem found_of_halted (h : Proceeds p q) (hh : p.halted = true) :
    q.found = p.found ∧ q.halted = true := by
  have hreport : ∀ {r : Parser} (code : Code) (span : Span) (arg : Bytes), r.halted = true →
      r.report code span arg = r := by
    intro r code span arg hr
    unfold report
    split
    · rfl
    · simp [hr]
  induction h with
  | refl => exact ⟨rfl, hh⟩
  | bump _ ih => exact ih
  | report _ span arg _ ih =>
    rw [hreport _ span arg ih.2]
    exact ih
  | giveUp _ span arg _ ih =>
    rw [hreport _ span arg ih.2]
    exact ⟨ih.1, rfl⟩

/-- The parse starts within its budget. -/
theorem budget_moduleStart (source : Bytes) (tolerance : Nat) (tokens : List Token) :
    Budget tolerance (moduleStart source (some tolerance) [] tokens) where
  listens := rfl
  spent := .partly (fun _ hd => absurd hd List.not_mem_nil) (by
    show 0 < min (max tolerance 1) 1024
    omega)
  noted := fun _ hd => absurd hd List.not_mem_nil
  distinct := .nil

/-- **The budget of a parse.** Whatever the tokens are, the parse of a module finds no more than its
tolerance allows, and once it is given up it finds nothing more. -/
theorem withinBudget_parseModule (source : Bytes) (tolerance : Nat) (before : List Diagnostic)
    (tokens : List Token) (hbefore : hasCode .invalidUtf8 before = false) :
    WithinBudget tolerance (parseModule source (some tolerance) before tokens).found ∧
      ∀ p, Proceeds (moduleStart source (some tolerance) [] tokens) p →
        Proceeds p (skipItems false (moduleStart source (some tolerance) [] tokens)) →
        p.halted = true →
        (parseModule source (some tolerance) before tokens).found = p.found := by
  have hfound : (parseModule source (some tolerance) before tokens).found
      = (skipItems false (moduleStart source (some tolerance) [] tokens)).found := by
    unfold parseModule moduleStart
    rw [hbefore]
    rfl
  rw [hfound]
  exact ⟨(budget_of_proceeds (budget_moduleStart source tolerance tokens)
    (course_skipItems false _).proceeds).withinBudget, fun p _ hp hh => (found_of_halted hp hh).1⟩

/-- Each line is two errors, of which three are tolerated in all. -/
def overspentSource : Bytes := bytes "export )\nexport )\nexport )\n"

/-- In the source with too many errors the stop comes last and once. -/
theorem withinBudget_overspent :
    let tokens := (lex .typeScript overspentSource).tokens
    let found := (parseModule overspentSource (some 3) [] tokens).found
    hasCode .invalidUtf8 [] = false ∧ WithinBudget 3 found
      ∧ found.map (·.code)
        = [.unexpectedToken, .unbalancedDelimiter, .unexpectedToken, .tooManyErrors] :=
  ⟨rfl, (withinBudget_parseModule overspentSource 3 [] _ rfl).1, by decide +kernel⟩

end Parser

end SignatureLedger
