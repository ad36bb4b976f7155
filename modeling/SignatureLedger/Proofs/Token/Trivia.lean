import SignatureLedger.Proofs.Text.Comment
import SignatureLedger.Proofs.Text.Utf8
import SignatureLedger.Proofs.Token.Tiles
import Mathlib.Data.List.TakeWhile

/-!
# What gaps are made of

A grammar of the text between two tokens, apart from the reader: blanks, comments and, at the front
of a source, a `#!` line. What the reader takes is a row of such pieces (`Gap.exists_row_behind`),
and of every such row it tells whether a line ends in it (`Gap.newline_behind`).
-/

namespace SignatureLedger

open Byte

/-- A piece of the text between two tokens. -/
inductive Trivia where
  | blank (c : Bytes)
  | lineComment (body : Bytes)
  | blockComment (body : Bytes)
  /-- A block comment that is never closed. -/
  | openComment (body : Bytes)
  /-- The line at the front of a source that names its interpreter. -/
  | hashBang (body : Bytes)
deriving DecidableEq

namespace Trivia

/-- The bytes of the piece. -/
def text : Trivia → Bytes
  | blank c => c
  | lineComment body => slash :: slash :: body
  | blockComment body => slash :: star :: (body ++ [star, slash])
  | openComment body => slash :: star :: body
  | hashBang body => Byte.hash :: bang :: body

/-- The line and the paragraph separator, U+2028 and U+2029. -/
def separators : List Bytes := [[0xE2, 0x80, 0xA8], [0xE2, 0x80, 0xA9]]

/-- The blanks: six bytes of ASCII, U+00A0, U+FEFF and the two separators. -/
def blanks : List Bytes :=
  [[0x20], [0x09], [0x0A], [0x0B], [0x0C], [0x0D], [0xC2, 0xA0], [0xEF, 0xBB, 0xBF]] ++ separators

/-- A line or the whole text is over. -/
def AtLineEnd (rest : Bytes) : Prop := ∀ b ∈ rest.head?, b = lineFeed

/-- The piece can be at the offset `pos` of a source, before the text `rest`. A block comment ends
at the first place where it can. -/
def Fits (pos : Nat) (rest : Bytes) : Trivia → Prop
  | blank c => c ∈ blanks
  | lineComment body => lineFeed ∉ body ∧ AtLineEnd rest
  | blockComment body => ¬ [star, slash] <:+: body
  | openComment body => ¬ [star, slash] <:+: body ∧ rest = []
  | hashBang body => pos = 0 ∧ lineFeed ∉ body ∧ AtLineEnd rest

/-- A line ends in the piece. The line feed behind a line comment is a blank. -/
def endsLine : Trivia → Bool
  | blank c => c = [lineFeed] ∨ c ∈ separators
  | blockComment body | openComment body => body.contains lineFeed
  | lineComment _ | hashBang _ => false

/-- The text of a row of pieces. -/
def row (ps : List Trivia) : Bytes := ps.flatMap text

/-- The pieces stand one behind the other from the offset `pos` on, before the text `rest`. -/
def Fill (pos : Nat) (rest : Bytes) : List Trivia → Prop
  | [] => True
  | p :: ps => p.Fits pos (row ps ++ rest) ∧ Fill (pos + p.text.length) rest ps

variable {pos : Nat} {p : Trivia} {ps : List Trivia} {c s t body : Bytes}

@[simp] theorem row_nil : row [] = [] := rfl

@[simp] theorem row_cons (p : Trivia) (ps : List Trivia) : row (p :: ps) = p.text ++ row ps := rfl

/-- A piece that fits has a byte. -/
theorem text_ne_nil (h : p.Fits pos t) : p.text ≠ [] := by
  cases p with
  | blank c =>
    have hnil : [] ∉ blanks := by decide
    exact fun hc : c = [] => hnil (hc ▸ h)
  | _ => exact List.cons_ne_nil _ _

/-- The four bytes around the body of a comment. -/
theorem length_text_blockComment (body : Bytes) :
    (blockComment body).text.length = body.length + 4 := by
  simp [text]

/-- A closed comment with what follows it. -/
theorem text_blockComment_append (body t : Bytes) :
    (blockComment body).text ++ t = slash :: star :: (body ++ star :: slash :: t) := by
  simp [text]

/-- What is left behind a block comment, its first byte apart. -/
theorem drop_blockComment (body t : Bytes) :
    (star :: (body ++ star :: slash :: t)).drop (1 + (body.length + 2)) = t := by
  rw [Nat.add_comm, List.drop_succ_cons, ← List.drop_drop, List.drop_left]
  rfl

/-- Only at the front of a source there is a `#!` line. -/
theorem Fill.not_mem_hashBang (h : Fill pos t ps) (hpos : 0 < pos) : hashBang body ∉ ps := by
  induction ps generalizing pos with
  | nil => exact List.not_mem_nil
  | cons p ps ih =>
    rintro (_ | ⟨_, hmem⟩)
    · exact absurd h.1.1 (by omega)
    · exact ih h.2 (by omega) hmem

/-- Of the text behind a piece only the first byte matters. -/
theorem Fits.congr (h : p.Fits pos t) (ht : s.head? = t.head?) : p.Fits pos s := by
  have hline : AtLineEnd t → AtLineEnd s := fun hend b hb => hend b (ht ▸ hb)
  cases p with
  | blank c => exact h
  | lineComment body => exact ⟨h.1, hline h.2⟩
  | blockComment body => exact h
  | openComment body =>
    obtain ⟨hbody, rfl⟩ := h
    exact ⟨hbody, List.head?_eq_none_iff.mp ht⟩
  | hashBang body => exact ⟨h.1, h.2.1, hline h.2.2⟩

/-- A row fits before another text that starts with the same byte. -/
theorem Fill.congr (h : Fill pos t ps) (ht : s.head? = t.head?) : Fill pos s ps := by
  induction ps generalizing pos with
  | nil => trivial
  | cons p ps ih =>
    refine ⟨h.1.congr ?_, ih h.2⟩
    rw [List.head?_append, List.head?_append, ht]

/-! ## Characters -/

/-- Every blank is one character. -/
theorem character_of_mem_blanks (h : c ∈ blanks) : Utf8.Character c := by
  simp only [blanks, separators, List.cons_append, List.nil_append, List.mem_cons,
    List.not_mem_nil, or_false] at h
  rcases h with rfl | rfl | rfl | rfl | rfl | rfl | rfl | rfl | rfl | rfl
  iterate 6 exact .ascii (by decide)
  · exact .two (by decide) (by decide)
  · exact .three (by decide) (by decide) (by decide)
  · exact .three (by decide) (by decide) (by decide)
  · exact .three (by decide) (by decide) (by decide)

/-- A line ends between characters. -/
theorem AtLineEnd.cutsAt (h : AtLineEnd t) : Utf8.CutsAt t 0 := by
  cases t with
  | nil => exact .atEnd (Nat.le_refl 0)
  | cons b t => exact .before (b := lineFeed) (congrArg some (h b rfl)) (by decide)

/-- **A piece ends between characters.** -/
theorem Fits.text_behind (h : p.Fits pos t) (hs : Utf8.Text (p.text ++ t)) : Utf8.Text t := by
  have hcut : Utf8.CutsAt (p.text ++ t) p.text.length → Utf8.Text t := by
    intro hcut
    have := (hcut.text hs).2
    rwa [List.drop_left] at this
  have hend : ∀ {x : Bytes}, Utf8.CutsAt t 0 → Utf8.CutsAt (x ++ t) x.length := by
    intro x ht
    refine .of_drop (i := x.length) (k := 0) ?_
    rwa [List.drop_left]
  cases p with
  | blank c => exact (Utf8.Text.of_character (character_of_mem_blanks h)).of_append hs
  | lineComment body => exact hcut (hend h.2.cutsAt)
  | blockComment body =>
    refine hcut (length_text_blockComment body ▸ .behind (b := slash) ?_ (by decide))
    simp [text]
  | openComment body => exact h.2 ▸ .nil
  | hashBang body => exact hcut (hend h.2.2.cutsAt)

/-- Behind a row of pieces the source is still text. -/
theorem Fill.text_behind (h : Fill pos t ps) (hs : Utf8.Text (row ps ++ t)) : Utf8.Text t := by
  induction ps generalizing pos with
  | nil => exact hs
  | cons p ps ih =>
    rw [row_cons, List.append_assoc] at hs
    exact ih h.2 (h.1.text_behind hs)

/-! ## Ends of lines -/

/-- A piece ends the line if it has a line feed, or if it is one of the two separators. -/
theorem Fits.endsLine_iff (h : p.Fits pos t) :
    p.endsLine = true ↔ lineFeed ∈ p.text ∨ ∃ c ∈ separators, p = blank c := by
  have hslash : lineFeed ≠ slash := by decide
  have hstar : lineFeed ≠ star := by decide
  have hhash : lineFeed ≠ Byte.hash := by decide
  have hbang : lineFeed ≠ bang := by decide
  cases p with
  | blank c =>
    have hone : ∀ c ∈ blanks, (lineFeed ∈ c ↔ c = [lineFeed]) := by decide
    have hc := hone c h
    simp only [endsLine, text, decide_eq_true_eq, hc, blank.injEq]
    simp
  | lineComment body => simp [endsLine, text, hslash, h.1]
  | blockComment body => simp [endsLine, text, hslash, hstar]
  | openComment body => simp [endsLine, text, hslash, hstar]
  | hashBang body => simp [endsLine, text, hhash, hbang, h.2.1]

/-- **A line ends where a line feed or a separator is.** Separators count outside comments only. -/
theorem Fill.any_endsLine (h : Fill pos t ps) :
    ps.any endsLine = true ↔ lineFeed ∈ row ps ∨ ∃ c ∈ separators, blank c ∈ ps := by
  induction ps generalizing pos with
  | nil => simp
  | cons p ps ih =>
    rw [List.any_cons, Bool.or_eq_true, ih h.2, h.1.endsLine_iff, row_cons, List.mem_append]
    simp only [List.mem_cons]
    constructor
    · rintro ((h | ⟨c, hc, rfl⟩) | (h | ⟨c, hc, h⟩))
      · exact .inl (.inl h)
      · exact .inr ⟨c, hc, .inl rfl⟩
      · exact .inl (.inr h)
      · exact .inr ⟨c, hc, .inr h⟩
    · rintro ((h | h) | ⟨c, hc, h | h⟩)
      · exact .inl (.inl h)
      · exact .inr (.inl h)
      · exact .inl (.inr ⟨c, hc, h.symm⟩)
      · exact .inr (.inr ⟨c, hc, h⟩)

end Trivia

/-! ## Reading a row -/

namespace Gap

open Trivia

variable {pos : Nat} {ps : List Trivia} {b : UInt8} {c s t body : Bytes} {done : Gap}

/-- A blank is read as one, with its width. -/
theorem blank?_of_mem (h : c ∈ blanks) (t : Bytes) :
    ∃ b w, c = b :: w ∧ blank? b (w ++ t) = some (w.length, (blank c).endsLine) := by
  simp only [blanks, separators, List.cons_append, List.nil_append, List.mem_cons,
    List.not_mem_nil, or_false] at h
  rcases h with rfl | rfl | rfl | rfl | rfl | rfl | rfl | rfl | rfl | rfl <;> exact ⟨_, _, rfl, rfl⟩

/-- The blanks of ASCII are among the blanks. -/
theorem mem_blanks_of_isSpace (h : isSpace b = true) : [b] ∈ blanks := by
  have hb : b = 0x20 ∨ b = 0x09 ∨ b = 0x0A ∨ b = 0x0B ∨ b = 0x0C ∨ b = 0x0D := by
    simp only [isSpace, Bool.or_eq_true, beq_iff_eq, Bool.and_eq_true, decide_eq_true_eq] at h
    grind
  rcases hb with rfl | rfl | rfl | rfl | rfl | rfl <;> decide

/-- What is read as a blank is one of the blanks. Those of more than one byte are told by the bytes
behind the first. -/
theorem mem_blanks_of_blank? {w : Nat} {newline : Bool} (h : blank? b s = some (w, newline)) :
    ∃ x t, s = x ++ t ∧ x.length = w ∧ b :: x ∈ blanks := by
  have htake : ∀ {k : Nat} {x : Bytes}, s.take k = x → s = x ++ s.drop k :=
    fun hx => hx ▸ (List.take_append_drop _ s).symm
  unfold blank? at h
  split at h
  · rename_i hb
    cases h
    exact ⟨[], s, rfl, rfl, hb ▸ by decide⟩
  split at h
  · rename_i hb
    cases h
    exact ⟨[], s, rfl, rfl, mem_blanks_of_isSpace hb⟩
  split at h
  · rename_i hb
    cases h
    exact ⟨_, _, htake hb.2, rfl, hb.1 ▸ by decide⟩
  split at h
  · rename_i hb
    cases h
    exact ⟨_, _, htake hb.2, rfl, hb.1 ▸ by decide⟩
  split at h
  · rename_i hb
    cases h
    rcases hb.2 with hx | hx
    · exact ⟨_, _, htake hx, rfl, hb.1 ▸ by decide⟩
    · exact ⟨_, _, htake hx, rfl, hb.1 ▸ by decide⟩
  · exact absurd h (by simp)

/-- A run up to the line feed ends where the line does. -/
theorem run_to_lineEnd (hbody : lineFeed ∉ body) (ht : AtLineEnd t) :
    Bytes.run (· != lineFeed) (body ++ t) = body.length := by
  have hall : ∀ b ∈ body, (b != lineFeed) = true :=
    fun b hb => bne_iff_ne.mpr fun h => hbody (h ▸ hb)
  have hstop : t.takeWhile (· != lineFeed) = [] := by
    cases t with
    | nil => rfl
    | cons b t => rw [List.takeWhile_cons_of_neg (by simp [ht b rfl])]
  rw [Bytes.run, List.takeWhile_append_of_pos hall, hstop, List.append_nil]

/-- Every text starts with the rest of a line. -/
theorem exists_run_to_lineEnd (s : Bytes) :
    ∃ body t, s = body ++ t ∧ Bytes.run (· != lineFeed) s = body.length ∧ lineFeed ∉ body ∧
      AtLineEnd t := by
  refine ⟨s.takeWhile (· != lineFeed), s.dropWhile (· != lineFeed),
    List.takeWhile_append_dropWhile.symm, rfl, ?_, ?_⟩
  · intro hmem
    exact absurd (List.mem_takeWhile_imp hmem) (by decide)
  · intro b hb
    have := List.head?_dropWhile_not (· != lineFeed) s
    rw [hb] at this
    simpa using this

/-- No blank starts with a slash. -/
theorem blank?_slash (rest : Bytes) : blank? slash rest = none := rfl

/-- One piece is read and the reader goes on behind it. As there is text behind it, it is no comment
that is left open, and a hash-bang line stands at the start of a source only. -/
theorem readFrom_text {p : Trivia} (hp : p.Fits pos t) (hfirst : ∀ body, p ≠ hashBang body)
    (ht : t ≠ []) (done : Gap) :
    readFrom done (p.text ++ t) =
      readFrom { done with
        width := done.width + p.text.length, newline := done.newline || p.endsLine } t := by
  cases p with
  | blank c =>
    obtain ⟨b, w, rfl, hblank⟩ := blank?_of_mem hp t
    rw [Trivia.text, List.cons_append, readFrom, hblank]
    dsimp only
    rw [List.drop_left, List.length_cons, Nat.add_assoc, Nat.add_comm 1]
  | lineComment body =>
    have hbody : lineFeed ∉ slash :: body := List.not_mem_cons_of_ne_of_not_mem (by decide) hp.1
    have hwidth : lineCommentWidth (slash :: body ++ t) = body.length + 1 :=
      run_to_lineEnd hbody hp.2
    have hdrop : (slash :: body ++ t).drop (body.length + 1) = t := List.drop_left
    rw [Trivia.text, List.cons_append, readFrom, blank?_slash]
    dsimp only
    rw [if_pos ⟨rfl, rfl⟩, hwidth, hdrop, endsLine, Bool.or_false, List.length_cons,
      List.length_cons, Nat.add_assoc, Nat.add_comm 1]
  | blockComment body =>
    have hwidth := commentWidth?_closed hp t
    have htake : (body ++ star :: slash :: t).take (body.length + 2) = body ++ [star, slash] := by
      rw [List.take_append, List.take_of_length_le (by omega)]
      simp
    have hline : (body ++ [star, slash]).contains lineFeed = body.contains lineFeed := by
      simp [show lineFeed ≠ star by decide, show lineFeed ≠ slash by decide]
    have hlen : done.width + 2 + (body.length + 2) =
        done.width + (Trivia.blockComment body).text.length := by
      rw [length_text_blockComment]
      omega
    rw [text_blockComment_append, readFrom, blank?_slash]
    dsimp only
    rw [if_neg (by rintro ⟨-, h⟩; exact absurd (Option.some.inj h) (by decide)),
      if_pos ⟨rfl, rfl⟩, List.drop_succ_cons, List.drop_zero, hwidth]
    dsimp only
    rw [htake, drop_blockComment, hline, hlen, endsLine]
  | openComment body => exact absurd hp.2 ht
  | hashBang body => exact absurd rfl (hfirst body)

/-- A row of pieces is read as a row. The reader takes all of it and goes on behind it. -/
theorem readFrom_row (h : Fill pos t ps) (hfirst : ∀ body, hashBang body ∉ ps) (ht : t ≠ [])
    (done : Gap) :
    readFrom done (row ps ++ t) =
      readFrom { done with
        width := done.width + (row ps).length, newline := done.newline || ps.any endsLine } t := by
  induction ps generalizing pos done with
  | nil => simp
  | cons p ps ih =>
    have hp : ∀ body, p ≠ hashBang body := fun body heq => hfirst body (heq ▸ List.mem_cons_self)
    have hps : ∀ body, hashBang body ∉ ps :=
      fun body hmem => hfirst body (List.mem_cons_of_mem p hmem)
    have hne : row ps ++ t ≠ [] := by simp [ht]
    rw [row_cons, List.append_assoc, readFrom_text h.1 hp hne, ih h.2 hps]
    simp [Nat.add_assoc, Bool.or_assoc]

/-- The text starts with no piece. -/
structure Stops (t : Bytes) : Prop where
  blank : ∀ b rest, t = b :: rest → blank? b rest = none
  comment : ¬ OpensComment t

/-- Where nothing is to be taken, the reader takes nothing. -/
theorem readFrom_of_stops (h : Stops t) (done : Gap) : readFrom done t = done := by
  cases t with
  | nil => rw [readFrom]
  | cons b rest =>
    have hcomment := h.comment
    rw [opensComment_cons] at hcomment
    rw [readFrom, h.blank b rest rfl]
    dsimp only
    rw [if_neg fun hline => hcomment ⟨hline.1, .inl hline.2⟩,
      if_neg fun hblock => hcomment ⟨hblock.1, .inr hblock.2⟩]

/-! ## The gaps of a source -/

/-- Only the piece for a first line starts with its mark. -/
theorem take_two_ne {p : Trivia} (hp : p.Fits pos t) (hfirst : ∀ body, p ≠ hashBang body)
    (s : Bytes) : (p.text ++ s).take 2 ≠ [Byte.hash, bang] := by
  intro h
  have hhead : p.text.head? = some Byte.hash := by
    obtain ⟨b, w, hbw⟩ := List.exists_cons_of_ne_nil (text_ne_nil hp)
    rw [hbw, List.cons_append, List.take_succ_cons] at h
    rw [hbw, (List.cons.inj h).1]
    rfl
  cases p with
  | blank c =>
    have hblank : ∀ c ∈ blanks, c.head? ≠ some Byte.hash := by decide
    exact hblank c hp hhead
  | hashBang body => exact hfirst body rfl
  | _ => exact absurd (Option.some.inj hhead) (by decide)

/-- A first line with the mark is not empty. -/
theorem run_pos_of_mark (h : s.take 2 = [Byte.hash, bang]) :
    0 < Bytes.run (· != lineFeed) s := by
  cases s with
  | nil => exact absurd h (by simp)
  | cons b s =>
    rw [List.take_succ_cons] at h
    rw [(List.cons.inj h).1, Bytes.run, List.takeWhile_cons_of_pos (by decide)]
    exact Nat.succ_pos _

/-- A first line is read as a whole. -/
theorem readFirst_hashBang (hbody : lineFeed ∉ body) (ht : AtLineEnd t) :
    readFirst ((hashBang body).text ++ t) =
      readFrom { width := (hashBang body).text.length } t := by
  have hmark : lineFeed ∉ (hashBang body).text :=
    List.not_mem_cons_of_ne_of_not_mem (by decide)
      (List.not_mem_cons_of_ne_of_not_mem (by decide) hbody)
  have htwo : ((hashBang body).text ++ t).take 2 = [Byte.hash, bang] := rfl
  rw [readFirst, if_pos htwo, run_to_lineEnd hmark ht]
  dsimp only
  rw [List.drop_left]

/-- The reader that has taken `done` takes a row of pieces from `s`, and stops before the text `t`
with the gap `g`. -/
structure Reads (done g : Gap) (s : Bytes) (ps : List Trivia) (t : Bytes) : Prop where
  text : s = row ps ++ t
  width : g.width = done.width + (row ps).length
  fill : ∀ pos, Fill pos t ps
  closed : g.unclosed? = none → ∀ body, openComment body ∉ ps
  stops : ¬ OpensComment t

/-- A piece in front of what is read. -/
theorem Reads.cons {p : Trivia} {done' g : Gap} (h : Reads done' g s ps t)
    (hwidth : done'.width = done.width + p.text.length) (hp : ∀ pos, p.Fits pos s)
    (hopen : ∀ body, p ≠ openComment body) : Reads done g (p.text ++ s) (p :: ps) t where
  text := by rw [h.text, row_cons, List.append_assoc]
  width := by rw [h.width, hwidth, row_cons, List.length_append, Nat.add_assoc]
  fill := fun pos => ⟨h.text ▸ hp pos, h.fill _⟩
  closed := by
    rintro hnone body (_ | ⟨_, hmem⟩)
    · exact hopen body rfl
    · exact h.closed hnone body hmem
  stops := h.stops

/-- **What the reader takes is a row of pieces.** By induction on the reader's own recursion. A
comment that is left open is the last piece. -/
theorem exists_reads (done : Gap) (s : Bytes) : ∃ ps t, Reads done (readFrom done s) s ps t := by
  fun_induction readFrom done s with
  | case1 done => exact ⟨[], [], rfl, rfl, fun _ => trivial, fun _ _ => List.not_mem_nil, by decide⟩
  | case2 done b rest w newline hblank ih =>
    obtain ⟨x, t, rfl, rfl, hmem⟩ := mem_blanks_of_blank? hblank
    rw [List.drop_left] at ih ⊢
    obtain ⟨ps, u, hread⟩ := ih
    refine ⟨.blank (b :: x) :: ps, u,
      hread.cons (p := .blank (b :: x)) ?_ (fun _ => hmem) (by simp)⟩
    rw [Trivia.text, List.length_cons]
    dsimp only
    omega
  | case3 done b rest hblank hcomment w ih =>
    obtain ⟨rfl, hslash⟩ := hcomment
    obtain ⟨rest, rfl⟩ := List.head?_eq_some_iff.mp hslash
    obtain ⟨body, t, rfl, hrun, hbody, ht⟩ := exists_run_to_lineEnd rest
    have hw : w = body.length + 1 := by
      rw [← hrun]
      exact congrArg List.length (List.takeWhile_cons_of_pos (by decide))
    rw [hw, List.drop_succ_cons, List.drop_left] at ih ⊢
    obtain ⟨ps, u, hread⟩ := ih
    refine ⟨.lineComment body :: ps, u,
      hread.cons (p := .lineComment body) ?_ (fun _ => ⟨hbody, ht⟩) (by simp)⟩
    rw [Trivia.text, List.length_cons, List.length_cons]
    dsimp only
    omega
  | case4 done b rest hblank _ hcomment body w hw ih =>
    obtain ⟨rfl, hstar⟩ := hcomment
    obtain ⟨rest, rfl⟩ := List.head?_eq_some_iff.mp hstar
    obtain ⟨c, t, hbody, rfl, hc⟩ := exists_of_commentWidth? hw
    obtain rfl : rest = c ++ star :: slash :: t := hbody
    rw [drop_blockComment] at ih ⊢
    obtain ⟨ps, u, hread⟩ := ih
    rw [← text_blockComment_append]
    refine ⟨.blockComment c :: ps, u, hread.cons (p := .blockComment c) ?_ (fun _ => hc) (by simp)⟩
    rw [length_text_blockComment]
    dsimp only
    omega
  | case5 done b rest hblank _ hcomment body hw =>
    obtain ⟨rfl, hstar⟩ := hcomment
    obtain ⟨rest, rfl⟩ := List.head?_eq_some_iff.mp hstar
    refine ⟨[.openComment rest], [], by simp [Trivia.text], ?_,
      fun _ => ⟨⟨not_infix_of_commentWidth? hw, rfl⟩, trivial⟩, by simp, by decide⟩
    simp [Trivia.text, body]
    omega
  | case6 done b rest hblank hline hblock =>
    refine ⟨[], b :: rest, rfl, rfl, fun _ => trivial, fun _ _ => List.not_mem_nil, ?_⟩
    rw [opensComment_cons]
    rintro ⟨hb, hslash | hstar⟩
    · exact hline ⟨hb, hslash⟩
    · exact hblock ⟨hb, hstar⟩

/-- Where the reader takes nothing, there is nothing to take. -/
theorem stops_of_width_eq (done : Gap) (h : (readFrom done t).width = done.width) : Stops t := by
  obtain ⟨k, hk, hblank, -⟩ := readFrom_spec done t
  obtain rfl : k = 0 := by omega
  obtain ⟨ps, u, hread⟩ := exists_reads done t
  have hrow : row ps = [] := List.length_eq_zero_iff.mp (by have := hread.width; omega)
  have htext : t = u := by rw [hread.text, hrow, List.nil_append]
  exact ⟨hblank, htext ▸ hread.stops⟩

/-- A row that the reader takes at once tells whether a line ends. -/
theorem newline_readFrom_row (done : Gap) (h : Fill pos t ps)
    (hfirst : ∀ body, hashBang body ∉ ps) (ht : t ≠ [])
    (hw : (readFrom done (row ps ++ t)).width = done.width + (row ps).length) :
    (readFrom done (row ps ++ t)).newline = (done.newline || ps.any endsLine) := by
  rw [readFrom_row h hfirst ht] at hw ⊢
  rw [readFrom_of_stops (stops_of_width_eq _ hw)]

/-- A gap of no width at the front of a source has no `#!` line in it. -/
theorem readFirst_of_width (h : (readFirst t).width = 0) : readFirst t = read t := by
  refine if_neg fun hmark => ?_
  rw [readFirst, if_pos hmark] at h
  obtain ⟨k, hk, -⟩ := readFrom_spec { width := Bytes.run (· != lineFeed) t }
    (t.drop (Bytes.run (· != lineFeed) t))
  have := run_pos_of_mark hmark
  rw [h] at hk
  dsimp only at hk
  omega

/-- The same of the row at the front of a source, which may start with a `#!` line. -/
theorem newline_readFirst_row (h : Fill 0 t ps) (ht : t ≠ [])
    (hw : (readFirst (row ps ++ t)).width = (row ps).length) :
    (readFirst (row ps ++ t)).newline = ps.any endsLine := by
  cases ps with
  | nil =>
    rw [row_nil, List.nil_append] at hw ⊢
    have hread := readFirst_of_width hw
    rw [hread] at hw ⊢
    rw [read, readFrom_of_stops (stops_of_width_eq _ hw)]
    rfl
  | cons p ps =>
    have hps : ∀ body, hashBang body ∉ ps := fun body =>
      h.2.not_mem_hashBang (by have := List.length_pos_iff.mpr (text_ne_nil h.1); omega)
    by_cases hp : ∃ body, p = hashBang body
    · obtain ⟨body, rfl⟩ := hp
      rw [row_cons, List.append_assoc, readFirst_hashBang h.1.2.1 h.1.2.2] at hw ⊢
      rw [List.length_append] at hw
      rw [newline_readFrom_row _ h.2 hps ht hw, List.any_cons]
      rfl
    · have hp' : ∀ body, p ≠ hashBang body := fun body heq => hp ⟨body, heq⟩
      have hread : readFirst (row (p :: ps) ++ t) = read (row (p :: ps) ++ t) := by
        rw [row_cons, List.append_assoc]
        exact if_neg (take_two_ne h.1 hp' _)
      rw [hread] at hw ⊢
      have hall : ∀ body, hashBang body ∉ p :: ps := fun body hmem =>
        (List.mem_cons.mp hmem).elim (fun heq => hp' body heq.symm) (hps body)
      have := newline_readFrom_row {} h hall ht (hw.trans (Nat.zero_add _).symm)
      rwa [Bool.false_or] at this

/-- **Every reading of a gap as a row of pieces tells whether a line ends in it.** -/
theorem newline_behind {source : Bytes} (h : source.drop pos = row ps ++ t) (hfill : Fill pos t ps)
    (ht : t ≠ []) (hwidth : (behind source pos).width = (row ps).length) :
    (behind source pos).newline = ps.any endsLine := by
  rcases Nat.eq_zero_or_pos pos with rfl | hpos
  · rw [behind, if_pos rfl] at hwidth ⊢
    rw [List.drop_zero] at h
    subst h
    exact newline_readFirst_row hfill ht hwidth
  · rw [behind, if_neg (by omega), h] at hwidth ⊢
    have := newline_readFrom_row {} hfill (fun body => hfill.not_mem_hashBang hpos) ht
      (hwidth.trans (Nat.zero_add _).symm)
    rwa [Bool.false_or] at this

/-- The gap at an offset is a row of pieces. At the start of a source a hash-bang line can be the
first piece. -/
theorem exists_row_behind (source : Bytes) (pos : Nat) :
    ∃ ps t, source.drop pos = row ps ++ t ∧ (behind source pos).width = (row ps).length ∧
      Fill pos t ps := by
  rcases Nat.eq_zero_or_pos pos with rfl | hpos
  · rw [behind, if_pos rfl, List.drop_zero]
    by_cases hmark : source.take 2 = [Byte.hash, bang]
    · obtain ⟨body, rest, hrest, -, hbody, hend⟩ := exists_run_to_lineEnd (source.drop 2)
      have hsource : source = (hashBang body).text ++ rest := by
        rw [← List.take_append_drop 2 source, hmark, hrest]
        rfl
      obtain ⟨ps, t, hread⟩ := exists_reads { width := (hashBang body).text.length } rest
      obtain rfl := hread.text
      refine ⟨hashBang body :: ps, t, by rw [hsource, row_cons, List.append_assoc], ?_,
        ⟨rfl, hbody, hend⟩, hread.fill _⟩
      rw [hsource, readFirst_hashBang hbody hend, hread.width, row_cons, List.length_append]
    · obtain ⟨ps, t, hread⟩ := exists_reads {} source
      have hwidth := hread.width
      rw [Nat.zero_add] at hwidth
      exact ⟨ps, t, hread.text, by rwa [readFirst, if_neg hmark], hread.fill 0⟩
  · obtain ⟨ps, t, hread⟩ := exists_reads {} (source.drop pos)
    have hwidth := hread.width
    rw [Nat.zero_add] at hwidth
    exact ⟨ps, t, hread.text, by rwa [behind, if_neg (by omega)], hread.fill pos⟩

end Gap

end SignatureLedger
