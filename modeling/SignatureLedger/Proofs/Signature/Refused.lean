import SignatureLedger.Analysis
import SignatureLedger.Proofs.Declaration.Loop
import SignatureLedger.Proofs.Text.Encoding
import SignatureLedger.Proofs.Token.Findings

/-!
# Sources that are not UTF-8

The lexer takes the encodings of Unicode scalar values and nothing else. Any other source is refused
as a whole, with one finding, and nothing is added to that finding on the way to the signatures
(`refused_exact`).
-/

namespace SignatureLedger

open Utf8 (Encoded LongestEncoded)
open SignatureLedger.Parser

/-! ## What the lexer finds -/

/-- The finding is about the encoding of the source, or ends all work on it. -/
def Diagnostic.IsRefusal (d : Diagnostic) : Prop := d.severity = .fatal ∨ d.code = .invalidUtf8

namespace Lexeme

variable {dialect : Dialect} {operand : Bool} {b : UInt8} {rest : Bytes}

/-- The lexeme under the cursor reports at most that it is not terminated. -/
theorem code_of_problem? {q : Diagnostic.Code × Nat}
    (h : (read dialect operand b rest).problem? = some q) :
    q.1 = .unterminatedString ∨ q.1 = .unterminatedTemplate ∨ q.1 = .unterminatedRegex := by
  rcases problem?_cases h with ⟨-, rfl⟩ | ⟨-, rfl⟩ | ⟨-, rfl⟩
  · exact .inl rfl
  · exact .inr (.inl rfl)
  · exact .inr (.inr rfl)

/-- No lexeme reports a refusal of the source. -/
theorem not_isRefusal_findings {lo : Nat} :
    ∀ d ∈ (read dialect operand b rest).findings lo, ¬ d.IsRefusal := by
  intro d hd
  unfold findings at hd
  split at hd
  · rename_i code width h
    rw [List.mem_singleton.mp hd]
    have hcode := code_of_problem? h
    rintro (hfatal | hinvalid)
    · exact absurd hfatal (by simp)
    · obtain rfl : code = .invalidUtf8 := hinvalid
      exact absurd hcode (by simp)
  · exact absurd hd List.not_mem_nil

end Lexeme

/-- No gap reports a refusal of the source. -/
theorem not_isRefusal_findings {pos : Nat} {g : Gap} : ∀ d ∈ g.findings pos, ¬ d.IsRefusal := by
  intro d hd
  unfold Gap.findings at hd
  split at hd
  · rw [List.mem_singleton.mp hd]
    rintro (h | h) <;> exact absurd h (by simp)
  · exact absurd hd List.not_mem_nil

/-- Reading the tokens reports no refusal: those arise before the first token. -/
theorem not_isRefusal_lexFrom (dialect : Dialect) (size : Nat) (operand : Bool) (pos : Nat)
    (gap : Gap) (s : Bytes) :
    ∀ d ∈ (lexFrom dialect size operand pos gap s).found, ¬ d.IsRefusal := by
  fun_induction lexFrom dialect size operand pos gap s with
  | case1 => exact not_isRefusal_findings
  | case2 operand pos gap s b rest h l lo hi after ih =>
    intro d hd
    rcases List.mem_append.mp hd with hd | hd
    · rcases List.mem_append.mp hd with hd | hd
      · exact not_isRefusal_findings d hd
      · exact Lexeme.not_isRefusal_findings d hd
    · exact ih d hd

/-! ## Refused sources -/

/-- The source has no token but the end marker and one finding, which is fatal, says that the source
is not UTF-8, and stands behind the longest part that is, at an offset that a word of 32 bits holds.
The message shows that word as a signed number. -/
structure Refused (dialect : Dialect) (source : Bytes) (d : Diagnostic) : Prop where
  lexed : lex dialect source = ⟨[Token.eofAt source.length], [d]⟩
  severity : d.severity = .fatal
  code : d.code = .invalidUtf8
  offset : LongestEncoded source d.span.lo
  words : d.span.InWords
  args : d.args.head? = some (shownOffset d.span.lo)

/-- What the strict reading does not take as a whole is refused. -/
theorem lex_of_not_isValid {dialect : Dialect} {source : Bytes}
    (h : Utf8.isValid source = false) :
    lex dialect source = ⟨[Token.eofAt source.length],
      [invalidUtf8 source (Utf8.validPrefix source)]⟩ := by
  unfold lex
  have hsome : Utf8.firstInvalid? source = some (Utf8.validPrefix source) := by
    rw [Utf8.isValid, Option.isNone_eq_false_iff, Utf8.firstInvalid?] at h
    rw [Utf8.firstInvalid?]
    split at h
    · rename_i hlt
      exact if_pos hlt
    · exact absurd h (by simp)
  rw [hsome]

/-- Behind the refusal of the lexer nothing is parsed, found or extracted. The refusal is among the
findings that the parser starts with. -/
theorem analyze_of_not_isValid {source : Bytes} (options : AnalysisOptions) (path : Bytes)
    (h : Utf8.isValid source = false) :
    analyze options path source =
      { path, dialect := Dialect.ofPath path, symbols := []
        found := [invalidUtf8 source (Utf8.validPrefix source)] } := by
  set d := invalidUtf8 source (Utf8.validPrefix source) with hd
  have hparse : ∀ tokens : List Token,
      parseModule source (some options.maxErrors.toNat) [d] tokens = ⟨[], []⟩ := by
    intro tokens
    have hcode : Diagnostic.hasCode .invalidUtf8 [d] = true := by
      simp [Diagnostic.hasCode, hd, invalidUtf8]
    -- the parse is given up before its first item
    have hend :
        (moduleStart source (some options.maxErrors.toNat) [d] tokens).itemsEnd false = true := by
      simp [itemsEnd, moduleStart, hcode]
    simp only [parseModule]
    rw [itemsFrom_of_itemsEnd hend]
    rfl
  unfold analyze
  dsimp only
  rw [lex_of_not_isValid h]
  dsimp only
  rw [hparse]
  rfl

/-- A source that is no UTF-8 is refused with the offset of its first bad byte. -/
theorem refused_of_not_isValid {source : Bytes} (dialect : Dialect) (hsize : source.length < 2 ^ 32)
    (h : Utf8.isValid source = false) :
    Refused dialect source (invalidUtf8 source (Utf8.validPrefix source)) where
  lexed := lex_of_not_isValid h
  severity := rfl
  code := rfl
  offset := Utf8.longest_validPrefix source
  words := ⟨Nat.lt_of_le_of_lt (Utf8.longest_validPrefix source).le hsize,
    Nat.lt_of_le_of_lt (Nat.min_le_right _ _) hsize⟩
  args := rfl

/-- **A source is taken if and only if it is the encoding of Unicode scalar values.** One that is
not has no token but the end marker; the one finding about it is fatal and stands behind its longest
part that is such an encoding; and its analysis has no symbols and no other finding. The source has
fewer than `2 ^ 32` bytes, so that its offsets do not wrap. -/
theorem refused_exact (dialect : Dialect) (source : Bytes) (hsize : source.length < 2 ^ 32) :
    ((∀ d ∈ (lex dialect source).found, ¬ d.IsRefusal) ↔ Encoded source) ∧
      (¬ Encoded source → ∃ d, Refused dialect source d ∧
        ∀ options path, analyze options path source =
          { path, dialect := Dialect.ofPath path, symbols := [], found := [d] }) := by
  rw [Utf8.encoded_iff_text, ← Utf8.isValid_iff]
  refine ⟨⟨fun h => ?_, fun h => ?_⟩, fun h => ?_⟩
  · by_contra hnot
    refine h (invalidUtf8 source (Utf8.validPrefix source)) ?_ (.inr rfl)
    rw [lex_of_not_isValid (Bool.not_eq_true _ ▸ hnot)]
    exact List.mem_singleton_self _
  · unfold lex
    rw [Option.isNone_iff_eq_none.mp h]
    exact not_isRefusal_lexFrom _ _ _ _ _ _
  · rw [Bool.not_eq_true] at h
    exact ⟨_, refused_of_not_isValid dialect hsize h, fun options path =>
      analyze_of_not_isValid options path h⟩

/-- An overlong form of the zero byte, behind a letter. -/
theorem refused_exact_overlong :
    ¬ Encoded [0x61, 0xC0, 0x80] ∧ ∃ d, Refused .typeScript [0x61, 0xC0, 0x80] d ∧
      ∀ options path, analyze options path [0x61, 0xC0, 0x80] =
        { path, dialect := Dialect.ofPath path, symbols := [], found := [d] } := by
  have hinvalid : Utf8.firstInvalid? [0x61, 0xC0, 0x80] = some 1 := by cbv
  have hvalid : Utf8.isValid [0x61, 0xC0, 0x80] = false := by rw [Utf8.isValid, hinvalid]; rfl
  have h : ¬ Encoded [0x61, 0xC0, 0x80] := by
    rw [Utf8.encoded_iff_text, ← Utf8.isValid_iff, hvalid]
    exact Bool.false_ne_true
  exact ⟨h, (refused_exact .typeScript [0x61, 0xC0, 0x80] (by decide)).2 h⟩

end SignatureLedger
