import SignatureLedger.Proofs.Declaration.Course.Items
import SignatureLedger.Proofs.Token.Findings

/-!
# Places of the findings of a parse

A report is about a token that comes next, or about a bracket among the tokens that are taken, and
the report that ends all reporting is shown at one of these too. So whatever a parse finds is found
at a token of its source, or at the end of it (`placed_parseModule`).
-/

namespace SignatureLedger

open Diagnostic (Code)

namespace Parser

variable {p q : Parser} {d e : Diagnostic}

/-! ## One report -/

/-- What is recorded is the finding itself, and the end of reporting at the same place or at the
token that comes next. -/
theorem mem_found_record {tolerance : Nat} (h : e ∈ (p.record tolerance d).found) :
    e ∈ p.found ∨ e = d ∨ e.file = 0 ∧ (e.span = d.span ∨ e.span = p.peek.span) := by
  have hadded : e ∈ p.found ++ [d] → e ∈ p.found ∨ e = d := by simp
  unfold record at h
  dsimp only at h
  split at h
  · exact (hadded h).imp_right .inl
  split at h
  · rcases List.mem_append.mp h with h | h
    · exact (hadded h).imp_right .inl
    · rw [List.mem_singleton.mp h, stopSpan]
      refine .inr (.inr ⟨rfl, ?_⟩)
      dsimp only
      split
      · exact .inl rfl
      · exact .inr rfl
  · exact (hadded h).imp_right .inl

/-- A report adds findings at its own span and at the token ahead only. -/
theorem mem_found_report {code : Code} {span : Span} {arg : Bytes}
    (h : e ∈ (p.report code span arg).found) :
    e ∈ p.found ∨ e.file = 0 ∧ (e.span = span ∨ e.span = p.peek.span) := by
  unfold report at h
  split at h
  · exact .inl h
  dsimp only at h
  split at h
  · exact .inl h
  split at h
  · exact .inl h
  · refine (mem_found_record h).imp_right fun h => ?_
    rcases h with rfl | h
    · exact ⟨rfl, .inl rfl⟩
    · exact h

/-! ## Whole parses -/

/-- **Findings are about tokens that are seen.** -/
theorem Sited.mem_found (h : Sited p q) (he : e ∈ q.found) :
    e ∈ p.found ∨ e.file = 0 ∧ p.Sees e.span := by
  have hreport : ∀ {r : Parser} {code : Code} {span : Span} {arg : Bytes}, Sited p r →
      p.Sees span → (e ∈ r.found → e ∈ p.found ∨ e.file = 0 ∧ p.Sees e.span) →
      e ∈ (r.report code span arg).found → e ∈ p.found ∨ e.file = 0 ∧ p.Sees e.span := by
    intro r code span arg hr hspan ih he
    rcases mem_found_report he with he | ⟨hfile, hs | hs⟩
    · exact ih he
    · exact .inr ⟨hfile, hs ▸ hspan⟩
    · exact .inr ⟨hfile, hs ▸ (sees_peek r).of_reaches hr.reaches⟩
  induction h with
  | refl => exact .inl he
  | bump _ ih => exact ih he
  | report _ hspan arg hr ih => exact hreport hr hspan ih he
  | giveUp _ hspan arg hr ih => exact hreport hr hspan ih he

/-- Before the tokens of a source, these are what is seen. -/
theorem Sees.exists_mem_lex {source : Bytes} {dialect : Dialect} {span : Span}
    (hp : p.cursor = Cursor.ofTokens (lex dialect source).tokens) (h : p.Sees span) :
    ∃ t ∈ (lex dialect source).tokens, t.span = span := by
  obtain ⟨ts, htokens, htiles⟩ := tiles_lex dialect source
  rw [htokens, Cursor.ofTokens_append_eofAt htiles.kind_ne_eof] at hp
  rw [htokens]
  rcases h with ⟨t, ht, hspan⟩ | hspan
  · rw [ahead, hp] at ht
    exact ⟨t, List.mem_append_left _ ht, hspan⟩
  · rw [hp] at hspan
    exact ⟨_, List.mem_append_right _ (List.mem_singleton_self _), hspan⟩

end Parser

/-- **The findings of a parse are placed in the source.** -/
theorem placed_parseModule {source : Bytes} (hsource : Utf8.Text source) (dialect : Dialect)
    (tolerance : Option Nat) (before : List Diagnostic) :
    ∀ d ∈ (parseModule source tolerance before (lex dialect source).tokens).found,
      d.Placed source := by
  intro d hd
  rcases (Parser.course_skipItems false _).sited.mem_found hd with hd | ⟨hfile, hsees⟩
  · exact absurd hd List.not_mem_nil
  · obtain ⟨t, ht, hspan⟩ := hsees.exists_mem_lex rfl
    exact ⟨hfile, hspan ▸ placed_of_mem_lex dialect hsource ht⟩

end SignatureLedger
