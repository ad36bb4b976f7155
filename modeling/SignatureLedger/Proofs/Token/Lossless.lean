import SignatureLedger.Proofs.Token.Cuts
import SignatureLedger.Proofs.Token.Trivia

/-!
# Nothing is lost

The tokens of a source and the gaps between them make up the source (`lossless_lex`): each token has
its own text, of whole characters, each gap is a row of blanks and comments, and the mark of a new
line says whether a line ends in the gap.
-/

namespace SignatureLedger

open Byte Utf8

variable {source : Bytes} {lo hi pos : Nat} {t : Token} {ts : List Token}

/-- The text between two offsets is made of these blanks and comments. -/
structure IsGap (source : Bytes) (lo hi : Nat) (ps : List Trivia) : Prop where
  le : lo ≤ hi
  text : source.slice lo hi = Trivia.row ps
  fill : Trivia.Fill lo (source.drop hi) ps

/-- A property of each token and of the offset where the token before it ends. -/
def EachBehind (P : Nat → Token → Prop) : Nat → List Token → Prop
  | _, [] => True
  | pos, t :: ts => P pos t ∧ EachBehind P t.span.hi ts

instance {P : Nat → Token → Prop} [∀ pos t, Decidable (P pos t)] :
    (pos : Nat) → (ts : List Token) → Decidable (EachBehind P pos ts)
  | _, [] => inferInstanceAs (Decidable True)
  | pos, t :: ts =>
    have : Decidable (EachBehind P t.span.hi ts) := instDecidableEachBehind t.span.hi ts
    inferInstanceAs (Decidable (P pos t ∧ _))

/-- A weaker property holds of each token as well. -/
theorem EachBehind.imp {P Q : Nat → Token → Prop} (hPQ : ∀ pos t, P pos t → Q pos t)
    (h : EachBehind P pos ts) : EachBehind Q pos ts := by
  induction ts generalizing pos with
  | nil => trivial
  | cons t ts ih => exact ⟨hPQ pos t h.1, ih h.2⟩

/-- The tokens and the gaps before them make up the source. -/
structure Lossless (source : Bytes) (ts : List Token) : Prop where
  /-- One end marker, at the end. -/
  ends : ∃ us, ts = us ++ [Token.eofAt source.length] ∧ ∀ t ∈ us, t.kind ≠ .eof
  within : ∀ t ∈ ts, t.kind ≠ .eof → t.span.lo < t.span.hi ∧ t.span.hi ≤ source.length
  ordered : ts.Pairwise fun t u => t.span.hi ≤ u.span.lo
  lexeme : ∀ t ∈ ts, source.slice t.span.lo t.span.hi = t.lexeme ∧ Text t.lexeme
  gap : EachBehind (fun lo t => ∃ ps, IsGap source lo t.span.lo ps) 0 ts
  /-- A line ends where a line feed is, in a comment or not, or a separator outside comments. -/
  newline : EachBehind (fun lo t => t.kind ≠ .eof → ∀ ps, IsGap source lo t.span.lo ps →
    (t.newlineBefore = true ↔ lineFeed ∈ source.slice lo t.span.lo ∨
      ∃ c ∈ Trivia.separators, .blank c ∈ ps)) 0 ts

/-! ## One token after the other -/

/-- The token is what is read behind the offset `pos`. -/
structure Token.ReadBehind (source : Bytes) (pos : Nat) (t : Token) : Prop where
  lo : t.span.lo = pos + (Gap.behind source pos).width
  within : t.span.lo ≤ source.length
  newline : t.kind ≠ .eof →
    t.span.lo < source.length ∧ t.newlineBefore = (Gap.behind source pos).newline
  lexeme : Text t.lexeme
  /-- The token starts between two characters. -/
  starts : Text (source.drop t.span.lo)

/-- What the reader skips is a gap. -/
theorem Gap.exists_isGap (hpos : pos ≤ source.length) :
    ∃ ps, IsGap source pos (pos + (Gap.behind source pos).width) ps ∧
      pos + (Gap.behind source pos).width ≤ source.length := by
  obtain ⟨ps, t, hsource, hwidth, hfill⟩ := Gap.exists_row_behind source pos
  have hlen : pos + (Trivia.row ps).length + t.length = source.length := by
    have := congrArg List.length hsource
    rw [List.length_drop, List.length_append] at this
    omega
  have hrest : source.drop (pos + (Trivia.row ps).length) = t := by
    rw [← List.drop_drop, hsource, List.drop_left]
  rw [hwidth]
  refine ⟨ps, ⟨by omega, ?_, hrest ▸ hfill⟩, by omega⟩
  rw [Bytes.slice_of_le (by omega) (by omega), hsource, Nat.add_sub_cancel_left, List.take_left]

/-- The source behind a gap is the gap and what follows it. -/
theorem IsGap.drop_eq {ps : List Trivia} (h : IsGap source lo hi ps) (hhi : hi ≤ source.length) :
    source.drop lo = Trivia.row ps ++ source.drop hi := by
  have hrow := h.text
  rw [Bytes.slice_of_le h.le hhi] at hrow
  rw [← hrow, show source.drop hi = (source.drop lo).drop (hi - lo) by
    rw [List.drop_drop, Nat.add_sub_cancel' h.le], List.take_append_drop]

/-- A gap is as long as its pieces. -/
theorem IsGap.length_row {ps : List Trivia} (h : IsGap source lo hi ps) (hhi : hi ≤ source.length) :
    (Trivia.row ps).length = hi - lo := by
  have := h.le
  rw [← h.text, Bytes.slice_of_le h.le hhi, List.length_take, List.length_drop]
  omega

/-- Behind a gap the source is text. -/
theorem Gap.text_behind (hpos : pos ≤ source.length) (h : Text (source.drop pos)) :
    Text (source.drop (pos + (Gap.behind source pos).width)) := by
  obtain ⟨ps, hrow, hwithin⟩ := Gap.exists_isGap hpos
  exact hrow.fill.text_behind (hrow.drop_eq hwithin ▸ h)

/-- **Reading goes on between characters.** By induction on the lexer's own recursion, in which
every gap and every lexeme ends between characters. -/
theorem readBehind_lexFrom {dialect : Dialect} {operand : Bool} {gap : Gap} {s : Bytes}
    (hs : source.drop pos = s) (hpos : pos ≤ source.length) (hgap : gap = Gap.behind source pos)
    (htext : Text s) :
    EachBehind (Token.ReadBehind source) pos
      (lexFrom dialect source.length operand pos gap s).tokens := by
  fun_induction lexFrom dialect source.length operand pos gap s with
  | case1 operand pos gap s h =>
    obtain ⟨ps, -, hwithin⟩ := Gap.exists_isGap hpos
    rw [← hs, List.drop_drop, hgap, List.drop_eq_nil_iff] at h
    exact ⟨⟨Nat.le_antisymm h hwithin, Nat.le_refl _, fun hne => absurd rfl hne, .nil,
      (List.drop_length (l := source)).symm ▸ .nil⟩, trivial⟩
  | case2 operand pos gap s b rest h l lo hi after ih =>
    have hdrop : source.drop lo = b :: rest := by rw [← h, ← hs, List.drop_drop]
    have hlen : lo + 1 + rest.length = source.length := by
      have := congrArg List.length hdrop
      rw [List.length_drop, List.length_cons] at this
      omega
    have hmore : l.more ≤ rest.length := Lexeme.more_read_le dialect operand b rest
    have hafter : source.drop hi = after := by
      rw [show hi = lo + (l.more + 1) by omega, ← List.drop_drop, hdrop, List.drop_succ_cons]
    have hnext : Gap.read after = Gap.behind source hi := by
      rw [Gap.behind, if_neg (by omega), hafter]
    have hfront : Text (b :: rest) := by
      have := Gap.text_behind hpos (hs ▸ htext)
      rwa [← hgap, hdrop] at this
    obtain ⟨hlexeme, hbehind⟩ := (Lexeme.cutsAt_read dialect operand b rest).text hfront
    rw [List.drop_succ_cons] at hbehind
    refine ⟨⟨by rw [← hgap], by dsimp only; omega, fun _ => ⟨by dsimp only; omega, by rw [← hgap]⟩,
      hlexeme, hdrop.symm ▸ hfront⟩, ih hafter (by omega) hnext hbehind⟩

/-! ## Whole sources -/

/-- Every token of a source is what is read behind its gap. -/
theorem readBehind_lex (dialect : Dialect) (hsource : Text source) :
    EachBehind (Token.ReadBehind source) 0 (lex dialect source).tokens := by
  have hvalid : firstInvalid? source = none := by
    simpa [isValid] using (isValid_iff source).mpr hsource
  rw [lex, hvalid]
  exact readBehind_lexFrom rfl (Nat.zero_le _) rfl hsource

/-- What holds of each token holds of one of them. -/
theorem EachBehind.of_mem {P : Nat → Token → Prop} (h : EachBehind P pos ts) (ht : t ∈ ts) :
    ∃ lo, P lo t := by
  induction ts generalizing pos with
  | nil => exact absurd ht List.not_mem_nil
  | cons u ts ih =>
    rcases List.mem_cons.mp ht with rfl | ht
    · exact ⟨pos, h.1⟩
    · exact ih h.2 ht

/-- Tokens do not overlap, and they come in their order. -/
theorem Tiles.pairwise (h : Tiles source pos ts) :
    ts.Pairwise fun t u => t.span.hi ≤ u.span.lo := by
  rw [List.pairwise_iff_getElem]
  intro i j hi hj hij
  exact h.hi_le (List.getElem?_eq_getElem hi) (List.getElem?_eq_getElem hj) hij

/-- **Lexing is lossless**, in every dialect. The tokens come one behind the other and end with one end
marker; each has the bytes of its span as its lexeme, and the bytes between them are gaps, made of
blanks and comments. -/
theorem lossless_lex (dialect : Dialect) (hsource : Text source) :
    Lossless source (lex dialect source).tokens := by
  obtain ⟨us, htokens, htiles⟩ := tiles_lex dialect source
  have hread := readBehind_lex dialect hsource
  have hmem : ∀ t ∈ (lex dialect source).tokens, t = Token.eofAt source.length ∨ t ∈ us := by
    intro t ht
    rw [htokens, List.mem_append, List.mem_singleton] at ht
    exact ht.symm
  refine ⟨⟨us, htokens, ?_⟩, ?_, ?_, ?_, ?_, ?_⟩
  · intro t ht
    obtain ⟨lo, -, hlies⟩ := htiles.lies ht
    exact hlies.kind
  · intro t ht hkind
    rcases hmem t ht with rfl | ht
    · exact absurd rfl hkind
    · obtain ⟨lo, -, hlies⟩ := htiles.lies ht
      exact ⟨hlies.lt, hlies.within⟩
  · rw [htokens, List.pairwise_append]
    refine ⟨htiles.pairwise, List.pairwise_singleton _ _, ?_⟩
    intro t ht u hu
    obtain rfl := List.mem_singleton.mp hu
    obtain ⟨lo, -, hlies⟩ := htiles.lies ht
    exact hlies.within
  · intro t ht
    obtain ⟨lo, hlo⟩ := hread.of_mem ht
    refine ⟨?_, hlo.lexeme⟩
    rcases hmem t ht with rfl | ht
    · exact Bytes.slice_of_hi_le (Nat.le_refl _)
    · obtain ⟨lo, -, hlies⟩ := htiles.lies ht
      exact hlies.text
  · refine hread.imp fun pos t ht => ?_
    have hpos : pos ≤ source.length := (ht.lo ▸ Nat.le_add_right pos _).trans ht.within
    obtain ⟨ps, hgap, -⟩ := Gap.exists_isGap hpos
    exact ⟨ps, ht.lo ▸ hgap⟩
  · refine hread.imp fun pos t ht hkind ps hgap => ?_
    obtain ⟨hlt, hnewline⟩ := ht.newline hkind
    have hlo := ht.lo
    have hrest : source.drop t.span.lo ≠ [] := by
      rw [ne_eq, List.drop_eq_nil_iff]
      omega
    rw [hnewline, hgap.text, ← hgap.fill.any_endsLine,
      Gap.newline_behind (hgap.drop_eq ht.within) hgap.fill hrest
        (by rw [hgap.length_row ht.within]; omega)]

/-- A `#!` line, a comment with a longer character and a line feed in it, and a separator. -/
theorem lossless_lex_separator :
    Text (bytes "#!\n/*é\n*/;\u2028x") ∧
      Lossless (bytes "#!\n/*é\n*/;\u2028x") (lex .tsx (bytes "#!\n/*é\n*/;\u2028x")).tokens := by
  have h : Text (bytes "#!\n/*é\n*/;\u2028x") := (isValid_iff _).mp (by decide +kernel)
  exact ⟨h, lossless_lex .tsx h⟩

end SignatureLedger
