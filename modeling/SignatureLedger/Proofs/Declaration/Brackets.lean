import SignatureLedger.Proofs.Declaration.Budget
import SignatureLedger.Proofs.Token.Tiles

/-!
# Brackets of a clean parse

What a parse without a finding says about the brackets of its source: all tokens are skimmed over
between items (`exists_skimmed_of_clean`), so that a bracket can be at fault only where skimming
allows it. It does allow it, in four places: a source can be clean and its brackets still not match
(`hidesFault_samples`).
-/

namespace SignatureLedger

open Diagnostic (hasError)

/-! ## Nothing is found -/

/-- Where there are no warnings, no error means that nothing is found. -/
theorem eq_nil_of_hasError {ds : List Diagnostic} (h : ∀ d ∈ ds, d.severity ≠ .warning)
    (herror : hasError ds = false) : ds = [] := by
  rw [List.eq_nil_iff_forall_not_mem]
  intro d hd
  have hnone : Diagnostic.count .error ds = 0 ∧ Diagnostic.count .fatal ds = 0 := by
    simp only [hasError, Diagnostic.issueCount, bne_eq_false_iff_eq] at herror
    omega
  simp only [Diagnostic.count, List.countP_eq_zero, decide_eq_true_eq] at hnone
  cases hs : d.severity with
  | error => exact hnone.1 d hd hs
  | warning => exact h d hd hs
  | fatal => exact hnone.2 d hd hs

/-- The findings of a gap are errors. -/
theorem severity_findings_gap {pos : Nat} {g : Gap} {d : Diagnostic} (h : d ∈ g.findings pos) :
    d.severity = .error := by
  unfold Gap.findings at h
  split at h
  · rw [List.mem_singleton.mp h]
  · exact absurd h List.not_mem_nil

/-- The findings of a lexeme are errors. -/
theorem severity_findings_lexeme {lo : Nat} {l : Lexeme} {d : Diagnostic}
    (h : d ∈ l.findings lo) : d.severity = .error := by
  unfold Lexeme.findings at h
  split at h
  · rw [List.mem_singleton.mp h]
  · exact absurd h List.not_mem_nil

/-- The findings of the tokens are errors. -/
theorem severity_lexFrom (dialect : Dialect) (size : Nat) (operand : Bool) (pos : Nat) (gap : Gap)
    (s : Bytes) :
    ∀ d ∈ (lexFrom dialect size operand pos gap s).found, d.severity = .error := by
  fun_induction lexFrom dialect size operand pos gap s with
  | case1 => exact fun d hd => severity_findings_gap hd
  | case2 operand pos gap s b rest h l lo hi after ih =>
    intro d hd
    rcases List.mem_append.mp hd with hd | hd
    · rcases List.mem_append.mp hd with hd | hd
      · exact severity_findings_gap hd
      · exact severity_findings_lexeme hd
    · exact ih d hd

/-- The lexer gives no warnings. -/
theorem severity_lex (dialect : Dialect) (source : Bytes) :
    ∀ d ∈ (lex dialect source).found, d.severity ≠ .warning := by
  unfold lex
  split
  · intro d hd
    rw [List.mem_singleton.mp hd]
    simp [invalidUtf8]
  · exact fun d hd hw => absurd ((severity_lexFrom _ _ _ _ _ _ d hd).symm.trans hw) (by simp)

namespace Parser

/-- Neither does a parse. -/
theorem Budget.severity {tolerance : Nat} {p : Parser} (h : Budget tolerance p) :
    ∀ d ∈ p.found, d.severity ≠ .warning := by
  intro d hd hw
  cases h.spent with
  | partly herrors _ | full herrors _ _ _ => exact absurd ((herrors d hd).1.symm.trans hw) (by simp)
  | stopped errors stop hfound herrors hstop _ _ _ =>
    rw [hfound] at hd
    rcases List.mem_append.mp hd with hd | hd
    · exact absurd ((herrors d hd).1.symm.trans hw) (by simp)
    · rw [List.mem_singleton.mp hd] at hw
      exact absurd (hstop.1.symm.trans hw) (by simp)

/-! ## What a clean parse has skimmed over -/

/-- A parse that finds nothing has taken all tokens. -/
theorem exists_skimmed_of_found {source : Bytes} {tolerance : Nat} {tokens : List Token}
    (h : (skipItems false (moduleStart source (some tolerance) [] tokens)).found = []) :
    ∃ f, Skimmed .items f (Cursor.ofTokens tokens).ahead := by
  have hcourse := course_skipItems false (moduleStart source (some tolerance) [] tokens)
  have hquiet := quiet_of_found_eq_nil ⟨rfl, rfl, rfl, rfl⟩ hcourse.proceeds.reaches h
  obtain ⟨f, ts, hts, hf⟩ := hcourse.skims hquiet
  -- the items stop at the end, since the parse was not given up
  have hend := itemsEnd_skipItems false (moduleStart source (some tolerance) [] tokens)
  rw [itemsEnd, hquiet.running, Bool.or_false, Bool.false_and, Bool.or_false, atEnd_iff] at hend
  rw [hend, List.append_nil] at hts
  exact ⟨f, (show (Cursor.ofTokens tokens).ahead = ts from hts) ▸ hf⟩

end Parser

open SignatureLedger.Parser

/-- The parse sees all tokens of a source but the end marker. -/
theorem exists_ahead_lex (dialect : Dialect) (source : Bytes) :
    ∃ e : Token, e.kind = .eof ∧
      (lex dialect source).tokens = (Cursor.ofTokens (lex dialect source).tokens).ahead ++ [e] := by
  obtain ⟨ts, hts, htiles⟩ := tiles_lex dialect source
  refine ⟨Token.eofAt source.length, rfl, ?_⟩
  rw [hts, Cursor.ofTokens_append_eofAt htiles.kind_ne_eof]

/-- **What a clean source can hide.** If neither the lexer nor the parser complains, the tokens are
skimmed over between items; and unless one of their brackets is at fault there, they all match. -/
theorem exists_skimmed_of_clean (dialect : Dialect) (source : Bytes) (tolerance : Nat)
    (hlex : hasError (lex dialect source).found = false)
    (hparse : hasError (parseModule source (some tolerance) (lex dialect source).found
      (lex dialect source).tokens).found = false) :
    ∃ faults, Skimmed .items faults (lex dialect source).tokens
      ∧ (∀ t ∈ faults, t ∈ (lex dialect source).tokens ∧ t.isBracket = true)
      ∧ (faults = [] → Matched (lex dialect source).tokens) := by
  rw [eq_nil_of_hasError (severity_lex dialect source) hlex, found_parseModule] at hparse
  have hbudget := budget_of_proceeds
    (budget_moduleStart source tolerance (lex dialect source).tokens)
    (course_skipItems false _).proceeds
  obtain ⟨f, hf⟩ := exists_skimmed_of_found (eq_nil_of_hasError hbudget.severity hparse)
  obtain ⟨e, he, htokens⟩ := exists_ahead_lex dialect source
  have hall : Skimmed .items (f ++ []) (lex dialect source).tokens := by
    rw [htokens]
    exact hf.append (.plain (by rw [he]; rfl) .nil)
  rw [List.append_nil] at hall
  exact ⟨f, hall, fun t ht => hall.mem_of_mem_faults ht, fun hnil => (hnil ▸ hall).matched⟩

/-- A module without faults. -/
def cleanSource : Bytes :=
  bytes "import a from \"m\"\nexport class A extends B<C> \x7b f(x: D[]) \x7b return [x] \x7d \x7d"

/-- The module without faults is skimmed over, and nothing is reported. -/
theorem exists_skimmed_cleanSource :
    let lexed := lex .typeScript cleanSource
    hasError lexed.found = false
      ∧ hasError (parseModule cleanSource (some 64) lexed.found lexed.tokens).found = false
      ∧ ∃ faults, Skimmed .items faults lexed.tokens
        ∧ (∀ t ∈ faults, t ∈ lexed.tokens ∧ t.isBracket = true)
        ∧ (faults = [] → Matched lexed.tokens) := by
  have hlex : hasError (lex .typeScript cleanSource).found = false := by decide +kernel
  have hparse : hasError (parseModule cleanSource (some 64) (lex .typeScript cleanSource).found
      (lex .typeScript cleanSource).tokens).found = false := by decide +kernel
  exact ⟨hlex, hparse, exists_skimmed_of_clean .typeScript cleanSource 64 hlex hparse⟩

/-- Neither the lexer nor the parser complains about the source, and its brackets do not match. -/
def HidesFault (source : Bytes) : Prop :=
  let lexed := lex .typeScript source
  hasError lexed.found = false
    ∧ hasError (parseModule source (some 64) lexed.found lexed.tokens).found = false
    ∧ ¬ Matched lexed.tokens

/-- Every way to skim over a bracket at fault is taken: a group that a bracket of another kind
closes, a bracket among type arguments, and one that closes nothing in a clause or in the head of a
class. -/
theorem hidesFault_samples :
    HidesFault (bytes "f(a];")
      ∧ HidesFault (bytes "const x = f<(>(1)")
      ∧ HidesFault (bytes "import a ) from \"m\"")
      ∧ HidesFault (bytes "class A extends B) \x7b\x7d") := by
  refine ⟨?_, ?_, ?_, ?_⟩ <;>
  · unfold HidesFault
    decide +kernel

end SignatureLedger
