import SignatureLedger.Proofs.Token.Lossless

/-!
# Places of the findings of the lexer

A comment or literal that is never closed is complained about at the byte that opens it, which is
one of ASCII, so the finding starts between two characters and lies in the source (`placed_lex`), as
tokens do (`placed_of_mem_lex`).
-/

namespace SignatureLedger

open Byte Utf8

variable {source s : Bytes} {dialect : Dialect} {operand : Bool} {b : UInt8} {pos k : Nat}

/-- The span lies in the source and starts between two characters. -/
structure Span.Placed (source : Bytes) (span : Span) : Prop where
  le : span.lo ≤ span.hi
  within : span.hi ≤ source.length
  front : Text (source.take span.lo)

/-- The finding is about the one file that is analysed, at a place in its text. -/
def Diagnostic.Placed (source : Bytes) (d : Diagnostic) : Prop := d.file = 0 ∧ d.span.Placed source

/-- A span that starts with a byte of ASCII. -/
theorem Span.Placed.of_plain {rest : Bytes} {w : Nat} (hsource : Text source)
    (h : source.drop pos = b :: rest) (hb : isHigh b = false) (hw : w ≤ rest.length + 1) :
    Span.Placed source ⟨pos, pos + w⟩ := by
  have hlen := congrArg List.length h
  rw [List.length_drop, List.length_cons] at hlen
  refine ⟨Nat.le_add_right _ _, by dsimp only; omega, ?_⟩
  rw [← List.take_append_drop pos source, h] at hsource
  exact (hsource.of_append_cons hb).1

/-! ## Tokens -/

/-- The tokens of a source are placed in it, the end marker with them. -/
theorem placed_of_mem_lex (dialect : Dialect) (hsource : Text source) {t : Token}
    (ht : t ∈ (lex dialect source).tokens) : t.span.Placed source := by
  obtain ⟨lo, hread⟩ := (readBehind_lex dialect hsource).of_mem ht
  obtain ⟨ts, htokens, htiles⟩ := tiles_lex dialect source
  have hfront : Text (source.take t.span.lo) := by
    rw [← List.take_append_drop t.span.lo source] at hsource
    exact hsource.of_append_text hread.starts
  rw [htokens] at ht
  rcases List.mem_append.mp ht with ht | ht
  · obtain ⟨lo, -, hlies⟩ := htiles.lies ht
    exact ⟨Nat.le_of_lt hlies.lt, hlies.within, hfront⟩
  · obtain rfl := List.mem_singleton.mp ht
    exact ⟨Nat.le_refl _, Nat.le_refl _, hfront⟩

/-! ## Comments -/

namespace Gap

/-- A comment that is never closed starts at the place that is noted. -/
theorem drop_of_unclosed? {done : Gap} (h : (readFrom done s).unclosed? = some k)
    (hdone : done.unclosed? = none) :
    ∃ j rest, k = done.width + j ∧ s.drop j = slash :: star :: rest := by
  fun_induction readFrom done s with
  | case1 done => exact absurd (hdone.symm.trans h) (by simp)
  | case2 done b rest w newline _ ih =>
    obtain ⟨j, more, rfl, hdrop⟩ := ih h hdone
    refine ⟨w + j + 1, more, by dsimp only; omega, ?_⟩
    rw [List.drop_succ_cons, ← hdrop, List.drop_drop]
  | case3 done b rest _ _ w ih =>
    obtain ⟨j, more, rfl, hdrop⟩ := ih h hdone
    refine ⟨w + j + 1, more, by dsimp only; omega, ?_⟩
    rw [List.drop_succ_cons, ← hdrop, List.drop_drop]
  | case4 done b rest _ _ _ body w _ ih =>
    obtain ⟨j, more, rfl, hdrop⟩ := ih h hdone
    refine ⟨1 + w + j + 1, more, by dsimp only; omega, ?_⟩
    rw [List.drop_succ_cons, ← hdrop, List.drop_drop]
  | case5 done b rest _ _ hcomment body _ =>
    obtain ⟨more, rfl⟩ := List.head?_eq_some_iff.mp hcomment.2
    exact ⟨0, more, (Option.some.inj h).symm, by rw [hcomment.1]; rfl⟩
  | case6 done b rest _ _ _ => exact absurd (hdone.symm.trans h) (by simp)

/-- Where a comment stays open, a comment opens. -/
theorem drop_of_unclosed?_behind (h : (behind source pos).unclosed? = some k) :
    ∃ rest, source.drop (pos + k) = slash :: star :: rest := by
  unfold behind at h
  split at h
  · rename_i hpos
    subst hpos
    unfold readFirst at h
    split at h
    · obtain ⟨j, rest, rfl, hdrop⟩ := drop_of_unclosed? h rfl
      exact ⟨rest, by rw [Nat.zero_add, ← List.drop_drop, hdrop]⟩
    · obtain ⟨j, rest, rfl, hdrop⟩ := drop_of_unclosed? h rfl
      exact ⟨rest, by simpa using hdrop⟩
  · obtain ⟨j, rest, rfl, hdrop⟩ := drop_of_unclosed? h rfl
    exact ⟨rest, by rw [← hdrop, List.drop_drop]; simp⟩

/-- What is found in a gap lies in the source, between characters. -/
theorem placed_findings (hsource : Text source) :
    ∀ d ∈ (behind source pos).findings pos, d.Placed source := by
  intro d hd
  unfold findings at hd
  split at hd
  · rename_i k h
    obtain ⟨rest, hdrop⟩ := drop_of_unclosed?_behind h
    rw [List.mem_singleton.mp hd]
    exact ⟨rfl, .of_plain hsource hdrop (by decide) (by simp)⟩
  · exact absurd hd List.not_mem_nil

end Gap

/-! ## Literals -/

namespace Lexeme

variable {rest : Bytes}

/-- Nothing is wrong with a punctuator. -/
theorem problem?_punct : (punct b rest).problem? = none := by
  unfold punct
  split
  · split <;> rfl
  · split <;> rfl

/-- What is wrong with a token is that it is not closed: a string or a regular expression with the
bytes that are taken for it, or a template with its first byte. -/
theorem problem?_cases {q : Diagnostic.Code × Nat}
    (h : (read dialect operand b rest).problem? = some q) :
    ((b = doubleQuote ∨ b = singleQuote) ∧
        q = (.unterminatedString, 1 + (Quoted.scan true b rest).width)) ∨
      (b = backquote ∧ q = (.unterminatedTemplate, 1)) ∨
      (b = slash ∧ q = (.unterminatedRegex, 1 + (Regex.scan rest).width)) := by
  unfold read at h
  split at h
  · exact absurd h (by simp)
  split at h
  · unfold quoted at h
    dsimp only at h
    split at h
    · exact absurd h (by simp)
    · exact .inl ⟨‹_›, (Option.some.inj h).symm⟩
  split at h
  · unfold template at h
    split at h
    · exact absurd h (by simp)
    · exact .inr (.inl ⟨‹_›, (Option.some.inj h).symm⟩)
  split at h
  · unfold privateName at h
    split at h <;> exact absurd h (by simp)
  split at h
  · unfold word at h
    dsimp only at h
    split at h <;> exact absurd h (by simp)
  split at h
  · rename_i hslash
    unfold regex at h
    dsimp only at h
    split at h
    · exact absurd h (by simp)
    · exact .inr (.inr ⟨hslash.1, (Option.some.inj h).symm⟩)
  split at h
  · unfold less at h
    split at h
    · exact absurd h (by simp)
    · exact absurd (problem?_punct.symm.trans h) (by simp)
  · exact absurd (problem?_punct.symm.trans h) (by simp)

/-- The complaint starts with a byte of ASCII and ends with the source at the latest. -/
theorem plain_of_problem? {code : Diagnostic.Code} {w : Nat}
    (h : (read dialect operand b rest).problem? = some (code, w)) :
    isHigh b = false ∧ w ≤ rest.length + 1 := by
  have hquoted := Quoted.width_scanFrom_le true b 0 rest
  have hregex := Regex.width_scanFrom_le false 0 rest
  rcases problem?_cases h with ⟨hb, hq⟩ | ⟨rfl, hq⟩ | ⟨rfl, hq⟩
  · obtain ⟨-, rfl⟩ := Prod.mk.inj hq
    refine ⟨by rcases hb with rfl | rfl <;> decide, ?_⟩
    unfold Quoted.scan
    omega
  · obtain ⟨-, rfl⟩ := Prod.mk.inj hq
    exact ⟨by decide, Nat.le_add_left 1 _⟩
  · obtain ⟨-, rfl⟩ := Prod.mk.inj hq
    refine ⟨by decide, ?_⟩
    unfold Regex.scan
    omega

/-- What is found in a token lies in the source, between characters. -/
theorem placed_findings (hsource : Text source) (hdrop : source.drop pos = b :: rest) :
    ∀ d ∈ (read dialect operand b rest).findings pos, d.Placed source := by
  intro d hd
  unfold findings at hd
  split at hd
  · rename_i code w h
    obtain ⟨hb, hw⟩ := plain_of_problem? h
    rw [List.mem_singleton.mp hd]
    exact ⟨rfl, .of_plain hsource hdrop hb hw⟩
  · exact absurd hd List.not_mem_nil

end Lexeme

/-! ## Whole sources -/

/-- What the lexer finds from a gap on lies in the source. By induction on the lexer's own
recursion: the gap and the lexeme of each round lie in the source, and so do their findings. -/
theorem placed_lexFrom (hsource : Text source) {gap : Gap} (hs : source.drop pos = s)
    (hpos : pos ≤ source.length) (hgap : gap = Gap.behind source pos) :
    ∀ d ∈ (lexFrom dialect source.length operand pos gap s).found, d.Placed source := by
  fun_induction lexFrom dialect source.length operand pos gap s with
  | case1 => exact hgap ▸ Gap.placed_findings hsource
  | case2 operand pos gap s b rest h l lo hi after ih =>
    have hdrop : source.drop lo = b :: rest := by rw [← h, ← hs, List.drop_drop]
    have hlen : lo + 1 + rest.length = source.length := by
      have := congrArg List.length hdrop
      rw [List.length_drop, List.length_cons] at this
      omega
    have hmore : l.more ≤ rest.length := Lexeme.more_read_le dialect operand b rest
    have hafter : source.drop hi = after := by
      rw [show hi = lo + (l.more + 1) by omega, ← List.drop_drop, hdrop, List.drop_succ_cons]
    have hnext : Gap.read after = Gap.behind source hi := by
      rw [Gap.behind, if_neg (by omega), hafter]
    intro d hd
    rcases List.mem_append.mp hd with hd | hd
    · rcases List.mem_append.mp hd with hd | hd
      · exact Gap.placed_findings hsource d (hgap ▸ hd)
      · exact Lexeme.placed_findings hsource hdrop d hd
    · exact ih hafter (by omega) hnext d hd

/-- **The findings of the lexer are placed in the source**, also the one about a source that is not
UTF-8: it stands behind whole characters. -/
theorem placed_lex (dialect : Dialect) (source : Bytes) :
    ∀ d ∈ (lex dialect source).found, d.Placed source := by
  intro d hd
  unfold lex at hd
  split at hd
  · rename_i k hk
    obtain ⟨u, v, rfl, hu, hlen⟩ := exists_text_validPrefix source
    rw [firstInvalid?] at hk
    obtain ⟨hlt, hk⟩ := Option.ite_none_right_eq_some.mp hk
    rw [← hlen] at hlt hk
    obtain rfl := Option.some.inj hk
    rw [List.mem_singleton.mp hd]
    refine ⟨rfl, ?_, Nat.min_le_right _ _, ?_⟩
    · show u.length ≤ min (u.length + 1) (u ++ v).length
      omega
    · show Text ((u ++ v).take u.length)
      rwa [List.take_left]
  · rename_i hvalid
    have hsource : Text source := (isValid_iff source).mp (by simp [isValid, hvalid])
    exact placed_lexFrom hsource rfl (Nat.zero_le _) rfl d hd

end SignatureLedger
