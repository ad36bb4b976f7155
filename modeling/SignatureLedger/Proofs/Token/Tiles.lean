import SignatureLedger.Proofs.Token.Widths
import Mathlib.Algebra.Group.Nat.Defs

/-!
# Where tokens lie

The tokens of a source lie one behind the other, each with its own text, and the gaps between them
end before a byte that is no blank (`tiles_lex`). Where a gap has only ASCII blanks in it, the mark
of a new line says whether there is a line feed among them.
-/

namespace SignatureLedger

open Byte

/-! ## Slices -/

namespace Bytes

variable {s t : Bytes} {lo mid hi : Nat}

/-- The bytes of a span in the text. -/
theorem slice_of_le (h : lo ≤ hi) (hhi : hi ≤ s.length) :
    s.slice lo hi = (s.drop lo).take (hi - lo) := if_pos ⟨h, hhi⟩

/-- A span that ends before it starts has none. -/
theorem slice_of_hi_le (h : hi ≤ lo) : s.slice lo hi = [] := by
  unfold slice
  split
  · rw [Nat.sub_eq_zero_of_le h, List.take_zero]
  · rfl

/-- Two spans side by side are one span. -/
theorem slice_append_slice (h₁ : lo ≤ mid) (h₂ : mid ≤ hi) (hhi : hi ≤ s.length) :
    s.slice lo mid ++ s.slice mid hi = s.slice lo hi := by
  rw [slice_of_le h₁ (Nat.le_trans h₂ hhi), slice_of_le h₂ hhi, slice_of_le (Nat.le_trans h₁ h₂) hhi,
    show hi - lo = (mid - lo) + (hi - mid) by omega, List.take_add, List.drop_drop,
    show lo + (mid - lo) = mid by omega]

end Bytes

/-! ## Gaps -/

namespace Gap

/-- The gap lies at the front of the text: behind it comes no blank, and if it is made of ASCII
blanks, then a line ends in it where a line feed is in it. -/
structure Covers (g : Gap) (s : Bytes) : Prop where
  stops : ∀ b rest, s.drop g.width = b :: rest → blank? b rest = none
  line : (∀ b ∈ s.take g.width, isSpace b = true) →
    (g.newline = true ↔ lineFeed ∈ s.take g.width)

/-- A blank of ASCII is one byte, and the line feed ends the line. -/
theorem blank?_of_isSpace {b : UInt8} (h : isSpace b = true) (rest : Bytes) :
    blank? b rest = some (0, b == lineFeed) := by
  unfold blank?
  by_cases hb : b = lineFeed
  · rw [if_pos hb, hb]
    rfl
  · rw [if_neg hb, if_pos h, beq_false_of_ne hb]

/-- Where no blank stands, no blank of ASCII does. -/
theorem isSpace_of_blank? {b : UInt8} {rest : Bytes} (h : blank? b rest = none) :
    isSpace b = false := by
  rw [← Bool.not_eq_true]
  intro hb
  rw [blank?_of_isSpace hb] at h
  exact absurd h (by simp)

/-- Reading on after `done` adds a stretch of the text. By induction on the reader's own recursion.
A comment is no run of blanks, so that nothing is said of its line feeds. -/
theorem readFrom_spec (done : Gap) (s : Bytes) :
    ∃ k, (readFrom done s).width = done.width + k ∧
      (∀ b rest, s.drop k = b :: rest → blank? b rest = none) ∧
      ((∀ b ∈ s.take k, isSpace b = true) →
        ((readFrom done s).newline = true ↔ done.newline = true ∨ lineFeed ∈ s.take k)) := by
  have hslash : ∀ {k : Nat} {rest : Bytes}, ¬ ∀ b ∈ (slash :: rest).take (k + 1), isSpace b = true :=
    fun h => absurd (h slash (by simp)) (by decide)
  fun_induction readFrom done s with
  | case1 done => exact ⟨0, rfl, by simp, by simp⟩
  | case2 done b rest w newline hblank ih =>
    obtain ⟨k, hwidth, hstops, hline⟩ := ih
    refine ⟨w + k + 1, by rw [hwidth]; dsimp only; omega, ?_, ?_⟩
    · rw [List.drop_succ_cons, ← List.drop_drop]
      exact hstops
    · -- a blank of ASCII is one byte
      intro hall
      have hb := hall b (by simp)
      rw [blank?_of_isSpace hb] at hblank
      obtain ⟨rfl, rfl⟩ := Prod.mk.inj (Option.some.inj hblank)
      rw [Nat.zero_add, List.take_succ_cons] at hall ⊢
      rw [List.drop_zero] at hline ⊢
      rw [hline fun c hc => hall c (List.mem_cons_of_mem b hc)]
      simp only [Bool.or_eq_true, beq_iff_eq, List.mem_cons]
      rw [or_assoc, eq_comm (a := b)]
  | case3 done b rest _ hcomment w ih =>
    obtain ⟨k, hwidth, hstops, -⟩ := ih
    refine ⟨w + k + 1, by rw [hwidth]; dsimp only; omega, ?_, ?_⟩
    · rw [List.drop_succ_cons, ← List.drop_drop]
      exact hstops
    · rw [hcomment.1]
      exact fun h => absurd h hslash
  | case4 done b rest _ _ hcomment body w _ ih =>
    obtain ⟨k, hwidth, hstops, -⟩ := ih
    refine ⟨1 + w + k + 1, by rw [hwidth]; dsimp only; omega, ?_, ?_⟩
    · rw [List.drop_succ_cons, ← List.drop_drop]
      exact hstops
    · rw [hcomment.1]
      exact fun h => absurd h hslash
  | case5 done b rest _ _ hcomment body _ =>
    -- a comment that is never closed takes the whole text
    have hlen : rest.length = 1 + body.length := by
      have hpos : 0 < rest.length := List.length_pos_iff.mpr fun hnil => by simp [hnil] at hcomment
      have : body.length = rest.length - 1 := List.length_drop
      omega
    refine ⟨body.length + 1 + 1, by dsimp only; omega, ?_, ?_⟩
    · rw [List.drop_eq_nil_of_le (by rw [List.length_cons]; omega)]
      simp
    · rw [hcomment.1]
      exact fun h => absurd h hslash
  | case6 done b rest hblank _ _ =>
    refine ⟨0, rfl, ?_, by simp⟩
    intro c t ht
    obtain ⟨rfl, rfl⟩ := List.cons.inj ht
    exact hblank

/-- A gap covers the blanks and comments at the front. -/
theorem covers_read (s : Bytes) : (read s).Covers s := by
  obtain ⟨k, hwidth, hstops, hline⟩ := readFrom_spec {} s
  have hk : (read s).width = k := hwidth.trans (Nat.zero_add k)
  constructor
  · rw [hk]
    exact hstops
  · rw [hk]
    intro hall
    rw [show (read s).newline = (readFrom {} s).newline from rfl, hline hall]
    simp

/-- So does the gap at the start of a source. Behind a hash-bang line it goes on as anywhere else,
and that line starts with no blank. -/
theorem covers_readFirst (s : Bytes) : (readFirst s).Covers s := by
  unfold readFirst
  split
  · rename_i hash
    dsimp only
    obtain ⟨k, hwidth, hstops, -⟩ := readFrom_spec { width := Bytes.run (· != lineFeed) s }
      (s.drop (Bytes.run (· != lineFeed) s))
    constructor
    · rw [hwidth, ← List.drop_drop]
      exact hstops
    · -- the mark at the front is no blank
      intro hall
      obtain ⟨t, rfl⟩ : ∃ t, s = Byte.hash :: t := by
        cases s with
        | nil => exact absurd hash (by simp)
        | cons b t =>
          rw [List.take_succ_cons] at hash
          exact ⟨t, by rw [(List.cons.inj hash).1]⟩
      have hrun : Bytes.run (· != lineFeed) (Byte.hash :: t) = Bytes.run (· != lineFeed) t + 1 := by
        rw [Bytes.run, List.takeWhile_cons_of_pos (by decide), List.length_cons, Bytes.run]
      rw [hwidth, hrun] at hall
      dsimp only at hall
      rw [Nat.add_right_comm, List.take_succ_cons] at hall
      exact absurd (hall Byte.hash List.mem_cons_self) (by decide)
  · exact covers_read s

end Gap

/-! ## Texts of lexemes -/

/-- Every sign has a byte. -/
theorem Punct.text_ne_nil (p : Punct) : bytes p.text ≠ [] := by
  cases p <;> decide +kernel

namespace Lexeme

/-- The bytes of a punctuator are those of its sign. A slash is looked at by itself, and any other
sign is found in the table. -/
theorem text_of_punct {b : UInt8} {rest : Bytes} {p : Punct} (h : (punct b rest).kind = .punct p) :
    b :: rest.take (punct b rest).more = bytes p.text := by
  unfold punct at h ⊢
  by_cases hslash : b = slash
  · rw [if_pos hslash] at h ⊢
    rw [hslash]
    by_cases hequals : rest.head? = some equals
    · rw [if_pos hequals] at h ⊢
      obtain ⟨t, rfl⟩ := List.head?_eq_some_iff.mp hequals
      obtain rfl := TokenKind.punct.inj h
      show slash :: (equals :: t).take 1 = bytes Punct.slashAssign.text
      rw [List.take_succ_cons, List.take_zero]
      decide +kernel
    · rw [if_neg hequals] at h ⊢
      obtain rfl := TokenKind.punct.inj h
      show slash :: rest.take 0 = bytes Punct.slash.text
      rw [List.take_zero]
      decide +kernel
  · rw [if_neg hslash] at h ⊢
    cases hq : punct? (b :: rest) with
    | none =>
      rw [hq] at h
      exact absurd h (by simp)
    | some x =>
      rw [hq] at h
      obtain ⟨text, q⟩ := x
      obtain rfl := TokenKind.punct.inj h
      obtain ⟨⟨t, ht⟩, htext⟩ := prefix_of_punct? hq
      cases text with
      | nil => exact absurd htext.symm (Punct.text_ne_nil q)
      | cons c u =>
        obtain ⟨rfl, rfl⟩ := List.cons.inj ht
        rw [← htext]
        simp

/-- A punctuator is a sign that is known, or the one kind for all others. -/
theorem kind_punct (b : UInt8) (rest : Bytes) :
    (∃ p, (punct b rest).kind = .punct p) ∨ (punct b rest).kind = .unknownPunct := by
  unfold punct
  split
  · split <;> exact .inl ⟨_, rfl⟩
  · split
    · exact .inl ⟨_, rfl⟩
    · exact .inr rfl

/-- What is read is either no punctuator or read as one. Every other reader gives a token of another
kind, and a less sign that opens no markup is read as a punctuator. -/
theorem read_cases (dialect : Dialect) (operand : Bool) (b : UInt8) (rest : Bytes) :
    read dialect operand b rest = punct b rest ∨
      ((read dialect operand b rest).kind ≠ .eof ∧
        ∀ p, (read dialect operand b rest).kind ≠ .punct p) := by
  unfold read
  split
  · exact .inr ⟨by simp, by simp⟩
  split
  · exact .inr ⟨by simp [quoted], by simp [quoted]⟩
  split
  · right
    unfold template
    split <;> exact ⟨by simp, by simp⟩
  split
  · right
    unfold privateName
    split <;> exact ⟨by simp, by simp⟩
  split
  · right
    unfold word
    dsimp only
    split <;> exact ⟨by simp, by simp⟩
  split
  · exact .inr ⟨by simp [regex], by simp [regex]⟩
  split
  · rename_i hless
    unfold less
    split
    · exact .inr ⟨by simp, by simp⟩
    · exact .inl (by rw [hless])
  · exact .inl rfl

/-- The text of a punctuator is the one that it is known by. -/
theorem text_of_kind {dialect : Dialect} {operand : Bool} {b : UInt8} {rest : Bytes} {p : Punct}
    (h : (read dialect operand b rest).kind = .punct p) :
    b :: rest.take (read dialect operand b rest).more = bytes p.text := by
  rcases read_cases dialect operand b rest with hread | ⟨-, hnone⟩
  · rw [hread] at h ⊢
    exact text_of_punct h
  · exact absurd h (hnone p)

/-- No token with a byte is the end marker. -/
theorem kind_ne_eof (dialect : Dialect) (operand : Bool) (b : UInt8) (rest : Bytes) :
    (read dialect operand b rest).kind ≠ .eof := by
  rcases read_cases dialect operand b rest with hread | ⟨hne, -⟩
  · rw [hread]
    rcases kind_punct b rest with ⟨p, hp⟩ | hp <;> rw [hp] <;> simp
  · exact hne

end Lexeme

/-! ## Tokens of a source -/

/-- The gap behind the offset `pos`; at the front of the source it may start with a `#!` line. -/
def Gap.behind (source : Bytes) (pos : Nat) : Gap :=
  if pos = 0 then Gap.readFirst source else Gap.read (source.drop pos)

/-- The gap at an offset covers the blanks and comments there. -/
theorem Gap.covers_behind (source : Bytes) (pos : Nat) :
    (Gap.behind source pos).Covers (source.drop pos) := by
  unfold Gap.behind
  split
  · rename_i hpos
    rw [hpos, List.drop_zero]
    exact Gap.covers_readFirst source
  · exact Gap.covers_read _

/-- The token lies in the source behind the offset `pos` with its own text, and only a gap is before
it. -/
structure Token.Lies (source : Bytes) (pos : Nat) (t : Token) : Prop where
  lo : t.span.lo = pos + (Gap.behind source pos).width
  within : t.span.hi ≤ source.length
  text : source.slice t.span.lo t.span.hi = t.lexeme
  starts : ∃ b w, t.lexeme = b :: w ∧ isSpace b = false
  line : (∀ b ∈ source.slice pos t.span.lo, isSpace b = true) →
    (t.newlineBefore = true ↔ lineFeed ∈ source.slice pos t.span.lo)
  kind : t.kind ≠ .eof
  punct : ∀ p, t.kind = .punct p → t.lexeme = bytes p.text

/-- The tokens lie in the source one behind the other, from the offset `pos` on. -/
inductive Tiles (source : Bytes) : Nat → List Token → Prop
  | nil {pos : Nat} : Tiles source pos []
  | cons {pos : Nat} {t : Token} {ts : List Token} (ht : t.Lies source pos)
      (hts : Tiles source t.span.hi ts) : Tiles source pos (t :: ts)

variable {source : Bytes} {pos : Nat} {t u : Token} {ts us : List Token}

/-- A token lies behind its gap. -/
theorem Token.Lies.behind (h : t.Lies source pos) : pos ≤ t.span.lo := h.lo ▸ Nat.le_add_right _ _

/-- A token is not empty. -/
theorem Token.Lies.lt (h : t.Lies source pos) : t.span.lo < t.span.hi := by
  obtain ⟨b, w, hlexeme, -⟩ := h.starts
  rcases Nat.lt_or_ge t.span.lo t.span.hi with hlt | hle
  · exact hlt
  · have := h.text
    rw [Bytes.slice_of_hi_le hle, hlexeme] at this
    exact absurd this (by simp)

/-- A token is as long as its lexeme. -/
theorem Token.Lies.hi (h : t.Lies source pos) : t.span.hi = t.span.lo + t.lexeme.length := by
  have hlt := h.lt
  have hlen := congrArg List.length h.text
  rw [Bytes.slice_of_le (Nat.le_of_lt hlt) h.within, List.length_take, List.length_drop] at hlen
  have := h.within
  omega

namespace Tiles

/-- Each of the tokens lies behind some place. -/
theorem lies (h : Tiles source pos ts) (ht : t ∈ ts) : ∃ lo, pos ≤ lo ∧ t.Lies source lo := by
  induction h with
  | nil => exact absurd ht List.not_mem_nil
  | @cons pos u ts hu hts ih =>
    rcases List.mem_cons.mp ht with rfl | ht
    · exact ⟨pos, Nat.le_refl _, hu⟩
    · obtain ⟨lo, hlo, hlies⟩ := ih ht
      have := hu.behind
      have := hu.lt
      exact ⟨lo, by omega, hlies⟩

/-- The end marker is none of the tiles. -/
theorem kind_ne_eof (h : Tiles source pos ts) : ∀ t ∈ ts, t.kind ≠ .eof := fun _ ht => by
  obtain ⟨lo, -, hlies⟩ := h.lies ht
  exact hlies.kind

/-- The token at the place `k`. -/
theorem at_ {k : Nat} (h : Tiles source pos ts) (hu : ts[k]? = some u) :
    pos ≤ u.span.lo ∧ u.span.lo < u.span.hi ∧ u.span.hi ≤ source.length := by
  obtain ⟨lo, hlo, hlies⟩ := h.lies (List.mem_of_getElem? hu)
  exact ⟨Nat.le_trans hlo hlies.behind, hlies.lt, hlies.within⟩

/-- No token ends before the first one does. -/
theorem first_le {k : Nat} (h : Tiles source pos (t :: ts)) (hu : (t :: ts)[k]? = some u) :
    t.span.lo ≤ u.span.lo ∧ t.span.hi ≤ u.span.hi := by
  cases h with
  | cons ht hts =>
    cases k with
    | zero =>
      obtain rfl := Option.some.inj hu
      exact ⟨Nat.le_refl _, Nat.le_refl _⟩
    | succ k =>
      obtain ⟨hlo, hlt, -⟩ := hts.at_ hu
      have := ht.lt
      exact ⟨by omega, by omega⟩

/-- A token ends before a later one starts. -/
theorem hi_le {n k : Nat} (h : Tiles source pos ts) (ht : ts[n]? = some t) (hu : ts[k]? = some u)
    (hlt : n < k) : t.span.hi ≤ u.span.lo := by
  induction h generalizing n k with
  | nil => exact absurd ht (by simp)
  | @cons pos v ts hv hts ih =>
    cases k with
    | zero => exact absurd hlt (Nat.not_lt_zero n)
    | succ k =>
      cases n with
      | zero =>
        obtain rfl := Option.some.inj ht
        exact (hts.at_ hu).1
      | succ n => exact ih ht hu (Nat.lt_of_succ_lt_succ hlt)

/-- No two tokens start at the same offset. -/
theorem suffix_eq (h : Tiles source pos ts) {us vs : List Token} (ht : t :: us <:+ ts)
    (hu : u :: vs <:+ ts) (hlo : t.span.lo = u.span.lo) : t :: us = u :: vs := by
  have hplace : ∀ {a : Token} {l : List Token}, a :: l <:+ ts → ∃ n : Nat, a :: l = ts.drop n ∧
      ts[n]? = some a := by
    intro a l hl
    have hdrop := List.suffix_iff_eq_drop.mp hl
    refine ⟨_, hdrop, ?_⟩
    rw [← List.head?_drop, ← hdrop]
    rfl
  obtain ⟨n, hn, htn⟩ := hplace ht
  obtain ⟨m, hm, hum⟩ := hplace hu
  have hlt := (h.at_ htn).2.1
  have hlt' := (h.at_ hum).2.1
  rcases Nat.lt_trichotomy n m with hnm | rfl | hmn
  · have := h.hi_le htn hum hnm
    omega
  · rw [hn, hm]
  · have := h.hi_le hum htn hmn
    omega

/-- The tokens in front, and those behind them. -/
theorem of_append (h : Tiles source pos (us ++ ts)) :
    Tiles source pos us ∧ ∃ lo, pos ≤ lo ∧ Tiles source lo ts := by
  induction us generalizing pos with
  | nil => exact ⟨.nil, pos, Nat.le_refl _, h⟩
  | cons u us ih =>
    cases h with
    | cons hu hts =>
      obtain ⟨hus, lo, hlo, hlies⟩ := ih hts
      have := hu.behind
      have := hu.lt
      exact ⟨.cons hu hus, lo, by omega, hlies⟩

/-- The tokens behind one of them start where it ends. -/
theorem behind {t : Token} (h : Tiles source pos (us ++ t :: ts)) :
    Tiles source t.span.hi ts := by
  obtain ⟨-, lo, -, hlies⟩ := h.of_append
  cases hlies with
  | cons _ hts => exact hts

end Tiles

/-- The lexer tiles the source from a gap on, and closes with the end marker. By induction on the
lexer's own recursion, which adds one lexeme with the gap before it in each round. -/
theorem tiles_lexFrom {dialect : Dialect} {operand : Bool} {gap : Gap} {s : Bytes}
    (hs : source.drop pos = s) (hpos : pos ≤ source.length) (hgap : gap = Gap.behind source pos) :
    ∃ ts, (lexFrom dialect source.length operand pos gap s).tokens
        = ts ++ [Token.eofAt source.length] ∧ Tiles source pos ts := by
  fun_induction lexFrom dialect source.length operand pos gap s with
  | case1 => exact ⟨[], rfl, .nil⟩
  | case2 operand pos gap s b rest h l lo hi after ih =>
    have hcovers : gap.Covers s := hs ▸ hgap ▸ Gap.covers_behind source pos
    have hdrop : source.drop lo = b :: rest := by
      rw [← h, ← hs, List.drop_drop]
    have hlen : lo + 1 + rest.length = source.length := by
      have := congrArg List.length hdrop
      rw [List.length_drop, List.length_cons] at this
      omega
    have hmore : l.more ≤ rest.length := Lexeme.more_read_le dialect operand b rest
    have hhi : hi ≤ source.length := by omega
    have hslice : source.slice lo hi = b :: rest.take l.more := by
      rw [Bytes.slice_of_le (by omega) hhi, hdrop, show hi - lo = l.more + 1 by omega,
        List.take_succ_cons]
    have hblanks : source.slice pos lo = s.take gap.width := by
      rw [Bytes.slice_of_le (by omega) (by omega), hs, show lo - pos = gap.width by omega]
    have hafter : source.drop hi = after := by
      rw [show hi = lo + (l.more + 1) by omega, ← List.drop_drop, hdrop, List.drop_succ_cons]
    have hnext : Gap.read after = Gap.behind source hi := by
      rw [Gap.behind, if_neg (by omega), hafter]
    obtain ⟨ts, hts, htiles⟩ := ih hafter hhi hnext
    refine ⟨⟨l.kind, ⟨lo, hi⟩, b :: rest.take l.more, gap.newline⟩ :: ts,
      congrArg (List.cons _) hts, .cons ?_ htiles⟩
    refine ⟨by rw [← hgap], hhi, hslice, ⟨b, _, rfl, ?_⟩, ?_, ?_, ?_⟩
    · exact Gap.isSpace_of_blank? (hcovers.stops b rest h)
    · rw [hblanks]
      exact hcovers.line
    · exact Lexeme.kind_ne_eof dialect operand b rest
    · exact fun p hp => Lexeme.text_of_kind hp

/-- **Tokens tile their source.** -/
theorem tiles_lex (dialect : Dialect) (source : Bytes) :
    ∃ ts, (lex dialect source).tokens = ts ++ [Token.eofAt source.length] ∧ Tiles source 0 ts := by
  unfold lex
  split
  · exact ⟨[], rfl, .nil⟩
  · exact tiles_lexFrom rfl (Nat.zero_le _) rfl

/-! ## Offsets as words -/

/-- Words of 32 bits hold both offsets, so that they do not wrap. -/
structure Span.InWords (s : Span) : Prop where
  lo : s.lo < 2 ^ 32
  hi : s.hi < 2 ^ 32

/-- In a source of fewer than `2 ^ 32` bytes no offset of a token wraps. All spans of a parse are
made of these offsets. -/
theorem inWords_of_mem_lex {dialect : Dialect} (hsize : source.length < 2 ^ 32)
    (ht : t ∈ (lex dialect source).tokens) : t.span.InWords := by
  obtain ⟨ts, htokens, htiles⟩ := tiles_lex dialect source
  rw [htokens, List.mem_append, List.mem_singleton] at ht
  rcases ht with ht | rfl
  · obtain ⟨lo, -, hlies⟩ := htiles.lies ht
    have hhi : t.span.hi < 2 ^ 32 := Nat.lt_of_le_of_lt hlies.within hsize
    exact ⟨Nat.lt_trans hlies.lt hhi, hhi⟩
  · exact ⟨hsize, hsize⟩

end SignatureLedger
