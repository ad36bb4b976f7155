import SignatureLedger.Proofs.Token.Trivia
import SignatureLedger.Proofs.Token.Words

/-!
# Blanks inside words

The blanks of more than one byte are skipped between tokens, and each of their bytes also continues
a name. So it depends on what stands before: such a blank is part of a word exactly if the byte
before it is (`liesInWord_iff_behindWord`), and they separate words exactly where none of them
stands right behind a byte of a word (`separates_lex_iff`).
-/

namespace SignatureLedger

open Byte

/-- The blanks of more than one byte: U+00A0, U+FEFF and the two separators. -/
def Trivia.wideBlanks : List Bytes := [[0xC2, 0xA0], [0xEF, 0xBB, 0xBF]] ++ separators

open Trivia

variable {source c : Bytes} {i : Nat} {t : Token}

/-- No word has a wide blank in it. -/
def BlanksSeparate (ts : List Token) : Prop :=
  ∀ t ∈ ts, t.kind.isWord = true → ∀ c ∈ wideBlanks, ¬ c <:+: t.lexeme

/-- A word holds the bytes between the two offsets. -/
def LiesInWord (ts : List Token) (lo hi : Nat) : Prop :=
  ∃ t ∈ ts, t.kind.isWord = true ∧ t.span.lo ≤ lo ∧ hi ≤ t.span.hi

/-- The byte before the offset is part of a word. -/
def BehindWord (ts : List Token) (i : Nat) : Prop :=
  ∃ t ∈ ts, t.kind.isWord = true ∧ t.span.lo < i ∧ i ≤ t.span.hi

/-! ## Texts -/

namespace Bytes

variable {p : UInt8 → Bool} {s : Bytes} {lo hi n : Nat}

/-- A text stands in a span if it stands at an offset in it. -/
theorem infix_slice_iff (hlo : lo ≤ hi) (hhi : hi ≤ s.length) :
    c <:+: s.slice lo hi ↔ ∃ i, lo ≤ i ∧ i + c.length ≤ hi ∧ c <+: s.drop i := by
  rw [slice_of_le hlo hhi]
  constructor
  · rintro ⟨u, v, huv⟩
    have hlen := congrArg List.length huv
    simp only [List.length_append, List.length_take, List.length_drop] at hlen
    refine ⟨lo + u.length, Nat.le_add_right _ _, by omega, ?_⟩
    rw [← List.drop_drop, ← List.take_append_drop (hi - lo) (s.drop lo), ← huv, List.append_assoc,
      List.append_assoc, List.drop_left]
    exact List.prefix_append _ _
  · rintro ⟨i, hi', hend, v, hv⟩
    refine ⟨(s.drop lo).take (i - lo), v.take (hi - i - c.length), ?_⟩
    rw [show hi - lo = (i - lo) + (c.length + (hi - i - c.length)) by omega, List.take_add,
      List.drop_drop, show lo + (i - lo) = i by omega, ← hv, List.take_add, List.take_left,
      List.drop_left, List.append_assoc]

/-- A run goes on over what fits into it. -/
theorem le_run_of_prefix (hn : n ≤ run p s) (hc : c <+: s.drop n) (hall : ∀ b ∈ c, p b = true) :
    n + c.length ≤ run p s := by
  obtain ⟨v, hv⟩ := hc
  have hn' : n ≤ s.length := hn.trans (List.takeWhile_prefix p).length_le
  have hfront : ∀ b ∈ s.take n ++ c, p b = true := by
    intro b hb
    rcases List.mem_append.mp hb with hb | hb
    · have htake : s.take n = (s.takeWhile p).take n := by
        rw [← take_run, List.take_take, Nat.min_eq_left hn]
      exact List.mem_takeWhile_imp (List.mem_of_mem_take (htake ▸ hb))
    · exact hall b hb
  have hs : s = (s.take n ++ c) ++ v := by
    rw [List.append_assoc, hv, List.take_append_drop]
  have hlen : (s.take n ++ c).length = n + c.length := by
    rw [List.length_append, List.length_take_of_le hn']
  rw [run, hs, List.takeWhile_append_of_pos hfront, List.length_append, hlen]
  exact Nat.le_add_right _ _

end Bytes

/-! ## Wide blanks -/

/-- The bytes of wide blanks are name bytes, since all high bytes are. -/
theorem continuesIdent_of_mem_wideBlanks {b : UInt8} (hc : c ∈ wideBlanks) (hb : b ∈ c) :
    Token.continuesIdent b = true := by
  have h : ∀ c ∈ wideBlanks, ∀ b ∈ c, Token.continuesIdent b = true := by decide +kernel
  exact h c hc b hb

/-- Where a wide blank stands, the reader of gaps sees a blank. -/
theorem blank?_ne_none {b : UInt8} {rest : Bytes} (hc : c ∈ wideBlanks) (h : c <+: b :: rest) :
    Gap.blank? b rest ≠ none := by
  have hblanks : ∀ c ∈ wideBlanks, c ∈ blanks := by decide
  obtain ⟨v, hv⟩ := h
  obtain ⟨d, w, rfl, hblank⟩ := Gap.blank?_of_mem (hblanks c hc) v
  obtain ⟨rfl, rfl⟩ := List.cons.inj hv
  rw [List.append_eq, hblank]
  exact Option.some_ne_none _

/-- No reserved word contains a wide blank. -/
theorem Keyword.not_infix_text (k : Keyword) (hc : c ∈ wideBlanks) : ¬ c <:+: bytes k.text := by
  have h : ∀ k : Keyword, ∀ c ∈ wideBlanks, ¬ c <:+: bytes k.text := by
    intro k
    cases k <;> decide +kernel
  exact h k c hc

/-! ## Words of a source -/

/-- A word takes all that goes on behind its first byte, and a reserved word has its own text. -/
structure Token.TakesRun (source : Bytes) (t : Token) : Prop where
  hi : t.span.hi =
    t.span.lo + 1 + Bytes.run Token.continuesIdent (source.drop (t.span.lo + 1))
  keyword : ∀ k, t.kind = .keyword k → t.lexeme = bytes k.text

/-- A word of the lexer takes the run of name bytes at its place. -/
theorem takesRun_of_mem_lexFrom {dialect : Dialect} {operand : Bool} {size pos : Nat} {gap : Gap}
    {s : Bytes} (hs : source.drop pos = s)
    (ht : t ∈ (lexFrom dialect size operand pos gap s).tokens) (hword : t.kind.isWord = true) :
    t.TakesRun source := by
  fun_induction lexFrom dialect size operand pos gap s with
  | case1 operand pos gap s h =>
    obtain rfl := List.mem_singleton.mp ht
    exact absurd hword Bool.false_ne_true
  | case2 operand pos gap s b rest h l lo hi after ih =>
    have hrest : source.drop (lo + 1) = rest := by
      rw [← List.drop_drop, ← List.drop_drop, hs, h, List.drop_succ_cons, List.drop_zero]
    rcases List.mem_cons.mp ht with rfl | ht
    · have hmore : l.more = Bytes.run Token.continuesIdent rest := Lexeme.more_of_isWord hword
      refine ⟨?_, fun k hk => Lexeme.text_of_keyword hk⟩
      dsimp only
      rw [hrest, ← hmore]
    · refine ih ?_ ht
      rw [← List.drop_drop, hrest]

/-- So does every word of a source. -/
theorem takesRun_of_mem_lex {dialect : Dialect} (ht : t ∈ (lex dialect source).tokens)
    (hword : t.kind.isWord = true) : t.TakesRun source := by
  unfold lex at ht
  split at ht
  · obtain rfl := List.mem_singleton.mp ht
    exact absurd hword Bool.false_ne_true
  · exact takesRun_of_mem_lexFrom rfl ht hword

/-- A word of a source lies at its place. -/
theorem lies_of_mem_lex {dialect : Dialect} (ht : t ∈ (lex dialect source).tokens)
    (hword : t.kind.isWord = true) : ∃ pos, t.Lies source pos := by
  obtain ⟨us, htokens, htiles⟩ := tiles_lex dialect source
  rw [htokens, List.mem_append, List.mem_singleton] at ht
  rcases ht with ht | rfl
  · obtain ⟨pos, -, hlies⟩ := htiles.lies ht
    exact ⟨pos, hlies⟩
  · exact absurd hword Bool.false_ne_true

/-- No token starts with a blank. -/
theorem Token.Lies.not_prefix {pos : Nat} (h : t.Lies source pos) (hc : c ∈ wideBlanks) :
    ¬ c <+: source.drop t.span.lo := by
  intro hprefix
  have hlt : t.span.lo < source.length := Nat.lt_of_lt_of_le h.lt h.within
  have hdrop := List.drop_eq_getElem_cons hlt
  have hstops := (Gap.covers_behind source pos).stops
  rw [List.drop_drop, ← h.lo] at hstops
  rw [hdrop] at hprefix
  exact blank?_ne_none hc hprefix (hstops _ _ hdrop)

/-- A wide blank stands in a word exactly if it stands in the source within its span. -/
theorem infix_lexeme_iff {dialect : Dialect} (ht : t ∈ (lex dialect source).tokens)
    (hword : t.kind.isWord = true) :
    c <:+: t.lexeme ↔ ∃ i, t.span.lo ≤ i ∧ i + c.length ≤ t.span.hi ∧ c <+: source.drop i := by
  obtain ⟨pos, hlies⟩ := lies_of_mem_lex ht hword
  rw [← hlies.text]
  exact Bytes.infix_slice_iff (Nat.le_of_lt hlies.lt) hlies.within

/-- **A wide blank is part of a word exactly if the byte before it is.** -/
theorem liesInWord_iff_behindWord (dialect : Dialect) (hc : c ∈ wideBlanks)
    (hi : c <+: source.drop i) :
    LiesInWord (lex dialect source).tokens i (i + c.length) ↔
      BehindWord (lex dialect source).tokens i := by
  constructor
  · rintro ⟨t, ht, hword, hlo, hhi⟩
    obtain ⟨pos, hlies⟩ := lies_of_mem_lex ht hword
    have hne : t.span.lo ≠ i := fun heq => hlies.not_prefix hc (heq ▸ hi)
    exact ⟨t, ht, hword, by omega, by omega⟩
  · rintro ⟨t, ht, hword, hlo, hhi⟩
    have hrun := (takesRun_of_mem_lex ht hword).hi
    -- the blank stands in the run behind the first byte of the word, or right behind it
    have hplace : (source.drop (t.span.lo + 1)).drop (i - (t.span.lo + 1)) = source.drop i := by
      rw [List.drop_drop, Nat.add_sub_cancel' hlo]
    have hle := Bytes.le_run_of_prefix (p := Token.continuesIdent) (n := i - (t.span.lo + 1))
      (by omega) (hplace ▸ hi) fun b hb => continuesIdent_of_mem_wideBlanks hc hb
    exact ⟨t, ht, hword, Nat.le_of_lt hlo, by omega⟩

/-- **Wide blanks separate words exactly where none of them stands right behind a byte of a word.**
Those that do are part of the word, all others are not, and no reserved word has one. -/
theorem separates_lex_iff (dialect : Dialect) (source : Bytes) :
    (BlanksSeparate (lex dialect source).tokens ↔
      ∀ c ∈ wideBlanks, ∀ i, c <+: source.drop i → ¬ BehindWord (lex dialect source).tokens i) ∧
    (∀ c ∈ wideBlanks, ∀ i, c <+: source.drop i →
      (LiesInWord (lex dialect source).tokens i (i + c.length) ↔
        BehindWord (lex dialect source).tokens i)) ∧
    ∀ t ∈ (lex dialect source).tokens, ∀ k, t.kind = .keyword k → ∀ c ∈ wideBlanks,
      ¬ c <:+: t.lexeme := by
  refine ⟨⟨?_, ?_⟩, fun c hc i hi => liesInWord_iff_behindWord dialect hc hi, ?_⟩
  · intro hseparate c hc i hi hbehind
    obtain ⟨t, ht, hword, hlo, hhi⟩ := (liesInWord_iff_behindWord dialect hc hi).mpr hbehind
    exact hseparate t ht hword c hc ((infix_lexeme_iff ht hword).mpr ⟨i, hlo, hhi, hi⟩)
  · intro hnone t ht hword c hc hinfix
    obtain ⟨i, hlo, hhi, hi⟩ := (infix_lexeme_iff ht hword).mp hinfix
    have hlies : LiesInWord (lex dialect source).tokens i (i + c.length) :=
      ⟨t, ht, hword, hlo, hhi⟩
    exact hnone c hc i hi ((liesInWord_iff_behindWord dialect hc hi).mp hlies)
  · intro t ht k hk c hc
    have hword : t.kind.isWord = true := congrArg TokenKind.isWord hk
    rw [(takesRun_of_mem_lex ht hword).keyword k hk]
    exact Keyword.not_infix_text k hc

/-- A no-break space between two names makes one name of them. -/
theorem not_separates_lex_noBreakSpace :
    ¬ ∀ (dialect : Dialect) (source : Bytes), Utf8.Text source →
      BlanksSeparate (lex dialect source).tokens := by
  intro h
  have htext : Utf8.Text (bytes "a\u00a0b") := (Utf8.isValid_iff _).mp (by decide +kernel)
  have hword : (⟨.ident, ⟨0, 4⟩, bytes "a\u00a0b", false⟩ : Token) ∈
      (lex .typeScript (bytes "a\u00a0b")).tokens := by decide +kernel
  exact h .typeScript _ htext _ hword rfl [0xC2, 0xA0] (by decide) (by decide +kernel)

end SignatureLedger
