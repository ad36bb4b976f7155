import SignatureLedger.Diagnostic.Render
import SignatureLedger.Proofs.Text.Blocks

/-!
# Rendering with 32-bit words

Rendering works with offsets, the offsets at which lines start, and 32-bit words. Three things could
go wrong there: a stretch of the text that does not lie within the text, a place in a list that the
list does not have, and a difference below zero. Here every function of the rendering is written
down once more with these offsets, and it gives a value only if none of that happens. For files of
less than 2 ^ 31 bytes it always gives one, and that is the value of `Diagnostic.render` and
`Diagnostic.renderContext` (`render_total`).
-/

namespace SignatureLedger

open Byte

/-! ## Words -/

/-- The 32-bit word that a number is stored as. -/
def wordOf (n : Nat) : Nat := n % 2 ^ 32

/-- A number below `2 ^ 32` is its own word. -/
theorem wordOf_of_lt {n : Nat} (h : n < 2 ^ 32) : wordOf n = n := Nat.mod_eq_of_lt h

/-- A difference of words, where it does not wrap. -/
def difference? (a b : Nat) : Option Nat := if b ≤ a then some (a - b) else none

/-- A difference that is not negative is the difference of the numbers. -/
theorem difference?_of_le {a b : Nat} (h : b ≤ a) : difference? a b = some (a - b) := if_pos h

/-- `n` bytes of a text from a position on, where they lie within the text. -/
def stretch? (s : Bytes) (start n : Nat) : Option Bytes :=
  if start + n ≤ s.length then some ((s.drop start).take n) else none

/-- The columns of the characters that start between two positions. -/
def columnsBetween (s : Bytes) (lo hi : Nat) : Nat := wordOf (columns (hi - lo) (s.drop lo))

/-- No byte takes more than two columns. -/
theorem columns_le (budget : Nat) (s : Bytes) : columns budget s ≤ 2 * s.length := by
  have htwo : ∀ c, columnsOf c ≤ 2 := by
    intro c
    unfold columnsOf
    split
    · decide
    · split
      · decide
      · split <;> decide
  fun_induction columns budget s with
  | case1 => exact Nat.zero_le _
  | case2 => exact Nat.zero_le _
  | case3 budget b rest _ c ih =>
    have hc := htwo c.value
    simp only [List.length_drop, List.length_cons] at ih ⊢
    omega

/-- Short texts are so narrow that the number of their columns is a word, and so is the next one. -/
theorem columns_lt {s : Bytes} (h : s.length < 2 ^ 31) (budget : Nat) :
    columns budget s + 1 < 2 ^ 32 := by
  have := columns_le budget s
  omega

/-- In a short source the columns between two places are those of the text between them. -/
theorem columnsBetween_eq {s : Bytes} (h : s.length < 2 ^ 31) (lo hi : Nat) :
    columnsBetween s lo hi = columns (hi - lo) (s.drop lo) := by
  have hshort : (s.drop lo).length < 2 ^ 31 := by
    rw [List.length_drop]
    omega
  have := columns_lt hshort (hi - lo)
  exact wordOf_of_lt (by omega)

namespace SourceFile

/-! ## Where lines start -/

/-- The offsets behind the line feeds of a text that starts at offset `i`. -/
def startsFrom (i : Nat) : Bytes → List Nat
  | [] => []
  | b :: s => if b = lineFeed then wordOf (i + 1) :: startsFrom (i + 1) s else startsFrom (i + 1) s

/-- The offsets at which the lines of a text start. -/
def lineStarts (s : Bytes) : List Nat := 0 :: startsFrom 0 s

/-- The index of the line that an offset is in: the last one that does not start behind it. -/
def indexAt (starts : List Nat) (offset : Nat) : Nat :=
  wordOf (starts.findIdx (fun start => decide (offset < start)) - 1)

/-- The offset at which a line ends, without its line feed. -/
def lineEnd? (s : Bytes) (index : Nat) : Option Nat :=
  if wordOf (index + 1) < (lineStarts s).length then do
    let next ← (lineStarts s)[wordOf (index + 1)]?
    difference? next 1
  else some (wordOf s.length)

/-- As many lines start behind a line feed as there are line feeds. -/
theorem length_startsFrom (i : Nat) (s : Bytes) : (startsFrom i s).length = s.count lineFeed := by
  induction s generalizing i with
  | nil => rfl
  | cons b s ih =>
    rw [startsFrom]
    split
    · rename_i hb
      rw [hb, List.length_cons, ih, List.count_cons_self]
    · rename_i hb
      rw [ih, List.count_cons_of_ne hb]

/-- The starts of lines in two texts put together, the second ones shifted. -/
theorem startsFrom_append (i : Nat) (s t : Bytes) :
    startsFrom i (s ++ t) = startsFrom i s ++ startsFrom (i + s.length) t := by
  induction s generalizing i with
  | nil => rfl
  | cons b s ih =>
    rw [List.cons_append, startsFrom, startsFrom, ih, List.length_cons,
      show i + 1 + s.length = i + (s.length + 1) by omega]
    split <;> rfl

/-- Without line feeds no further line starts. -/
theorem startsFrom_of_not_mem {s : Bytes} (h : lineFeed ∉ s) (i : Nat) : startsFrom i s = [] := by
  apply List.eq_nil_of_length_eq_zero
  rw [length_startsFrom, List.count_eq_zero.mpr h]

/-- A line starts in the text or at its end, but not at the beginning. -/
theorem between_of_mem_startsFrom {i n : Nat} {s : Bytes} (hs : i + s.length < 2 ^ 32)
    (h : n ∈ startsFrom i s) : i < n ∧ n ≤ i + s.length := by
  induction s generalizing i with
  | nil => exact absurd h List.not_mem_nil
  | cons b s ih =>
    rw [List.length_cons] at hs ⊢
    rw [startsFrom] at h
    have hrest : n ∈ startsFrom (i + 1) s → i < n ∧ n ≤ i + (s.length + 1) := by
      intro hn
      have := ih (by omega) hn
      omega
    split at h
    · rcases List.mem_cons.mp h with rfl | hn
      · rw [wordOf_of_lt (by omega)]
        omega
      · exact hrest hn
    · exact hrest h

/-! ## Lines -/

/-- A line of a text with what stands before and behind it. -/
structure Line (s front line back : Bytes) : Prop where
  eq : s = front ++ line ++ back
  front : Bytes.EndsLine lineFeed front
  line : lineFeed ∉ line
  back : Bytes.StartsBreak lineFeed back

namespace Line

variable {s front line back : Bytes} {offset : Nat}

/-- A line and what stands before it are a part of the source. -/
theorem length_le (h : Line s front line back) : front.length + line.length ≤ s.length := by
  rw [h.eq, List.length_append, List.length_append]
  omega

/-- The line feeds before a text are not behind it. -/
theorem lineStarts_eq (h : Line s front line back) :
    lineStarts s = (0 :: startsFrom 0 front) ++ startsFrom (front.length + line.length) back := by
  rw [lineStarts, h.eq, startsFrom_append, startsFrom_append, startsFrom_of_not_mem h.line,
    List.append_nil, List.length_append, Nat.zero_add, List.cons_append]

/-- The lines that start up to a place are one more than the line feeds before it. -/
theorem length_front (front : Bytes) :
    (0 :: startsFrom 0 front).length = front.count lineFeed + 1 := by
  rw [List.length_cons, length_startsFrom]

/-- The last line that starts before the end of a text starts there. -/
theorem getElem?_front (hfront : Bytes.EndsLine lineFeed front) (hs : front.length < 2 ^ 32) :
    (0 :: startsFrom 0 front)[front.count lineFeed]? = some front.length := by
  rcases hfront with rfl | ⟨t, rfl⟩
  · rfl
  · rw [List.length_append, List.length_singleton] at hs ⊢
    rw [startsFrom_append, List.count_append, List.count_singleton_self, List.getElem?_cons_succ,
      List.getElem?_append_right (Nat.le_of_eq (length_startsFrom 0 t)), length_startsFrom,
      Nat.sub_self]
    show some (wordOf (0 + t.length + 1)) = _
    rw [Nat.zero_add, wordOf_of_lt hs]

/-- The start of a line stands in the table at the number of line feeds before it. -/
theorem getElem?_lineStarts (h : Line s front line back) (hs : s.length < 2 ^ 32) :
    (lineStarts s)[front.count lineFeed]? = some front.length := by
  have hlength := h.length_le
  rw [h.lineStarts_eq, List.getElem?_append_left (by rw [length_front]; omega)]
  exact getElem?_front h.front (by omega)

/-- There are at most as many line feeds as bytes before the line. -/
theorem count_le (h : Line s front line back) : front.count lineFeed ≤ s.length :=
  Nat.le_trans (List.count_le_length) (by have := h.length_le; omega)

/-- A line ends before its line feed, or with the text. The next line starts one byte further, and
all offsets fit into a word. -/
theorem lineEnd?_eq (h : Line s front line back) (hs : s.length < 2 ^ 31) :
    lineEnd? s (front.count lineFeed) = some (front.length + line.length) := by
  have hlength := h.length_le
  have hcount := h.count_le
  have hall := h.lineStarts_eq
  have hfront := length_front front
  rw [lineEnd?, wordOf_of_lt (by omega), wordOf_of_lt (by omega)]
  rcases h.back with hback | ⟨rest, hback⟩
  · -- the last line
    have hlast : (lineStarts s).length = front.count lineFeed + 1 := by
      rw [hall, hback, startsFrom, List.append_nil, hfront]
    rw [hlast, if_neg (Nat.lt_irrefl _), h.eq, hback, List.append_nil, List.length_append]
  · have hword : wordOf (front.length + line.length + 1) = front.length + line.length + 1 := by
      have := congrArg List.length h.eq
      rw [List.length_append, List.length_append, hback, List.length_cons] at this
      exact wordOf_of_lt (by omega)
    have hnext : lineStarts s = (0 :: startsFrom 0 front) ++ (front.length + line.length + 1) ::
        startsFrom (front.length + line.length + 1) rest := by
      rw [hall, hback, startsFrom, if_pos rfl, hword]
    rw [hnext, if_pos (by rw [List.length_append, hfront, List.length_cons]; omega),
      List.getElem?_append_right (Nat.le_of_eq hfront), hfront, Nat.sub_self]
    exact difference?_of_le (Nat.succ_pos _)

/-- What is cut out of a text from the start of a line to its end is the line. -/
theorem stretch?_eq (h : Line s front line back) :
    stretch? s front.length line.length = some line := by
  rw [stretch?, if_pos h.length_le, h.eq, List.append_assoc, List.drop_left, List.take_left]

/-- What is cut out up to an offset in the line is the part of the line before it. -/
theorem stretch?_part (h : Line s front line back) (hlo : front.length ≤ offset)
    (hhi : offset ≤ front.length + line.length) :
    stretch? s front.length (offset - front.length) = some (line.take (offset - front.length)) := by
  have hlength := h.length_le
  rw [stretch?, if_pos (by omega), h.eq, List.append_assoc, List.drop_left,
    List.take_append_of_le_length (by omega)]

/-- The lines before the line of an offset start at it or before it, and the next one behind it. -/
theorem indexAt_eq (h : Line s front line back) (hs : s.length < 2 ^ 31)
    (hlo : front.length ≤ offset) (hhi : offset ≤ front.length + line.length) :
    indexAt (lineStarts s) offset = front.count lineFeed := by
  have hlength := h.length_le
  have hcount := h.count_le
  have hbefore : ∀ n ∈ 0 :: startsFrom 0 front, decide (offset < n) = false := by
    intro n hn
    rcases List.mem_cons.mp hn with rfl | hn
    · exact decide_eq_false (Nat.not_lt_zero offset)
    · have := between_of_mem_startsFrom (by omega) hn
      exact decide_eq_false (by omega)
  have hbehind : (startsFrom (front.length + line.length) back).findIdx
      (fun n => decide (offset < n)) = 0 := by
    cases hstarts : startsFrom (front.length + line.length) back with
    | nil => rfl
    | cons n ns =>
      have hsize : front.length + line.length + back.length < 2 ^ 32 := by
        have := congrArg List.length h.eq
        rw [List.length_append, List.length_append] at this
        omega
      have := between_of_mem_startsFrom hsize (hstarts ▸ List.mem_cons_self)
      rw [List.findIdx_cons, decide_eq_true (by omega)]
      rfl
  have hfind : (lineStarts s).findIdx (fun n => decide (offset < n))
      = front.count lineFeed + 1 := by
    rw [h.lineStarts_eq, List.findIdx_append, List.findIdx_eq_length_of_false hbefore,
      if_neg (Nat.lt_irrefl _), hbehind, length_front, Nat.zero_add]
  rw [indexAt, hfind, Nat.add_sub_cancel]
  exact wordOf_of_lt (by omega)

end Line

/-! ### Lines of a file -/

variable {f : SourceFile} {front line back : Bytes} {offset : Nat}

/-- The line stands in the list of lines at the number of line feeds before it. -/
theorem Line.getElem?_lines (h : Line f.content front line back) :
    f.lines[front.count lineFeed]? = some line := by
  rw [lines, h.eq]
  exact Bytes.getElem?_splitOn h.front h.line h.back

/-- Up to a place on the line, the source is what stands before the line and a part of it. -/
theorem Line.take_eq (h : Line f.content front line back) (hlo : front.length ≤ offset)
    (hhi : offset ≤ front.length + line.length) :
    f.content.take offset = front ++ line.take (offset - front.length) := by
  rw [h.eq, List.append_assoc, List.take_append, List.take_of_length_le hlo,
    List.take_append_of_le_length (by omega)]

/-- The index of the line, looked up from any place on it. -/
theorem Line.lineIndex_eq (h : Line f.content front line back) (hlo : front.length ≤ offset)
    (hhi : offset ≤ front.length + line.length) : f.lineIndex offset = front.count lineFeed := by
  have hpart : lineFeed ∉ line.take (offset - front.length) :=
    fun hmem => h.line (List.mem_of_mem_take hmem)
  rw [lineIndex, h.take_eq hlo hhi, List.count_append, List.count_eq_zero.mpr hpart, Nat.add_zero]

/-- What stands before a place on its line. -/
theorem Line.lineBefore_eq (h : Line f.content front line back) (hlo : front.length ≤ offset)
    (hhi : offset ≤ front.length + line.length) :
    f.lineBefore offset = line.take (offset - front.length) := by
  have hpart : ∀ b ∈ (line.take (offset - front.length)).reverse, (b != lineFeed) = true := by
    intro b hb
    rw [List.mem_reverse] at hb
    exact bne_iff_ne.mpr fun heq => h.line (heq ▸ List.mem_of_mem_take hb)
  have hstop : front.reverse.takeWhile (· != lineFeed) = [] := by
    rcases h.front with rfl | ⟨t, rfl⟩
    · rfl
    · rw [List.reverse_append]
      rfl
  rw [lineBefore, h.take_eq hlo hhi, List.reverse_append, List.takeWhile_append_of_pos hpart, hstop,
    List.append_nil, List.reverse_reverse]

/-- Every offset is in a line or at the end of one. -/
theorem exists_line_of_offset (h : offset ≤ f.content.length) :
    ∃ front line back, Line f.content front line back ∧ front.length ≤ offset ∧
      offset ≤ front.length + line.length := by
  obtain ⟨line, -, front, back, heq, hfront, hline, hback, hlo, hhi⟩ := exists_lineAt h
  exact ⟨front, line, back, ⟨heq, hfront, hline, hback⟩, hlo, hhi⟩

/-- Every index of a line has its line. -/
theorem exists_line_of_index {index : Nat} (h : index < f.lines.length) :
    ∃ front line back, Line f.content front line back ∧ front.count lineFeed = index := by
  rw [lines, Bytes.length_splitOn] at h
  induction index with
  | zero =>
    obtain ⟨line, back, heq, hline, hback⟩ := Bytes.exists_firstLine lineFeed f.content
    exact ⟨[], line, back, ⟨heq, .inl rfl, hline, hback⟩, rfl⟩
  | succ index ih =>
    obtain ⟨front, line, back, hl, hcount⟩ := ih (by omega)
    rcases hl.back with hback | ⟨rest, hback⟩
    · -- behind the last line there is no index
      have hall : f.content.count lineFeed = index := by
        rw [hl.eq, hback, List.append_nil, List.count_append, List.count_eq_zero.mpr hl.line,
          hcount, Nat.add_zero]
      omega
    · obtain ⟨next, more, hrest, hnext, hmore⟩ := Bytes.exists_firstLine lineFeed rest
      refine ⟨front ++ line ++ [lineFeed], next, more, ⟨?_, .inr ⟨_, rfl⟩, hnext, hmore⟩, ?_⟩
      · rw [hl.eq, hback, hrest]
        simp only [List.append_assoc, List.cons_append, List.nil_append]
      · rw [List.count_append, List.count_append, List.count_eq_zero.mpr hl.line, hcount,
          List.count_singleton_self]

/-- There are as many starts of lines as lines. -/
theorem length_lineStarts (f : SourceFile) : (lineStarts f.content).length = f.lines.length := by
  rw [lineStarts, List.length_cons, length_startsFrom, lines, Bytes.length_splitOn]

/-- There is at most one line more than there are bytes. -/
theorem length_lines_le (f : SourceFile) : f.lines.length ≤ f.content.length + 1 := by
  rw [lines, Bytes.length_splitOn]
  exact Nat.succ_le_succ List.count_le_length

/-! ## Places and snippets -/

/-- The line and column of an offset; one behind the end counts as the end. -/
def lineColumn? (f : SourceFile) (offset : Nat) : Option LineColumn := do
  let offset := min offset (wordOf f.content.length)
  let index := indexAt (lineStarts f.content) offset
  let start ← (lineStarts f.content)[index]?
  let part ← stretch? f.content start (← difference? offset start)
  some ⟨wordOf (index + 1), wordOf (columnsBetween part 0 part.length + 1)⟩

/-- The line where a span starts, with the stretch of it to underline. It is `none` where a
difference would be negative. -/
def snippet? (f : SourceFile) (span : Span) : Option Snippet := do
  let size := wordOf f.content.length
  let lo := min span.lo size
  let hi := min (max span.hi lo) size
  let index := indexAt (lineStarts f.content) lo
  let start ← (lineStarts f.content)[index]?
  let stop ← lineEnd? f.content index
  let text ← stretch? f.content start (← difference? stop start)
  let place ← f.lineColumn? lo
  let before ← difference? lo start
  let behind ← difference? (min hi stop) start
  some {
    text
    line := wordOf (index + 1)
    column := place.column
    before := columnsBetween text 0 before
    width := max 1 (columnsBetween text before behind) }

/-- A place behind the end has the line and the column of the end. -/
theorem lineColumn_min (f : SourceFile) (offset : Nat) :
    f.lineColumn (min offset f.content.length) = f.lineColumn offset := by
  have htake : f.content.take (min offset f.content.length) = f.content.take offset := by
    rw [← List.take_take, List.take_of_length_le (Nat.le_refl _)]
  rw [lineColumn, lineColumn, lineIndex, lineIndex, lineBefore, lineBefore, htake]

/-- In a short source, line and column are computed without any overflow. -/
theorem lineColumn?_eq (hsize : f.content.length < 2 ^ 31) (offset : Nat) :
    f.lineColumn? offset = some (f.lineColumn offset) := by
  obtain ⟨front, line, back, hl, hlo, hhi⟩ :=
    exists_line_of_offset (f := f) (Nat.min_le_right offset f.content.length)
  have hcount := hl.count_le
  have hlength := hl.length_le
  have hpart : (line.take (min offset f.content.length - front.length)).length < 2 ^ 31 := by
    rw [List.length_take]
    omega
  have hcolumns := columns_lt hpart (line.take (min offset f.content.length - front.length)).length
  rw [← lineColumn_min, lineColumn, hl.lineIndex_eq hlo hhi, hl.lineBefore_eq hlo hhi, lineColumn?,
    wordOf_of_lt (n := f.content.length) (by omega), hl.indexAt_eq hsize hlo hhi,
    hl.getElem?_lineStarts (by omega)]
  simp only [Option.bind_eq_bind, Option.bind_some]
  rw [difference?_of_le hlo, Option.bind_some, hl.stretch?_part hlo hhi, Option.bind_some,
    columnsBetween_eq hpart, Nat.sub_zero, List.drop_zero, wordOf_of_lt hcolumns,
    wordOf_of_lt (by omega)]

/-- In a short source, so is the snippet of a span. No difference in it is negative, and every
offset fits into a word. -/
theorem snippet?_eq (hsize : f.content.length < 2 ^ 31) (span : Span) :
    f.snippet? span = some (f.snippet span) := by
  obtain ⟨front, line, back, hl, hlo, hhi⟩ :=
    exists_line_of_offset (f := f) (Nat.min_le_right span.lo f.content.length)
  have hplace := lineColumn?_eq hsize (min span.lo f.content.length)
  have hcount := hl.count_le
  have hlength := hl.length_le
  have hline : line.length < 2 ^ 31 := by omega
  have htext : f.lines.getD (front.count lineFeed) [] = line := by
    rw [List.getD_eq_getElem?_getD, hl.getElem?_lines]
    rfl
  have hbefore : (line.take (min span.lo f.content.length - front.length)).length
      = min span.lo f.content.length - front.length := by
    rw [List.length_take]
    omega
  rw [snippet, snippet?, wordOf_of_lt (n := f.content.length) (by omega),
    hl.indexAt_eq hsize hlo hhi, hl.getElem?_lineStarts (by omega), hl.lineEnd?_eq hsize,
    hl.lineIndex_eq hlo hhi, hl.lineBefore_eq hlo hhi, htext, hbefore, hplace]
  generalize min span.lo f.content.length = lo at hlo hhi
  generalize hhigh : min (max span.hi lo) f.content.length = hi
  -- the span ends behind its start, and what is underlined ends with the line
  have hspan : lo ≤ hi := by omega
  have hstop : min hi (front.length + line.length) - front.length
      = min (lo - front.length + (hi - lo)) line.length := by omega
  simp only [Option.bind_eq_bind, Option.bind_some]
  rw [difference?_of_le (Nat.le_add_right _ _), Nat.add_sub_cancel_left, Option.bind_some,
    hl.stretch?_eq, Option.bind_some, difference?_of_le hlo, Option.bind_some,
    difference?_of_le (by omega), Option.bind_some, hstop, columnsBetween_eq hline,
    columnsBetween_eq hline, wordOf_of_lt (by omega)]
  rfl

/-! ## Blocks -/

/-- The line with an index. -/
def line? (s : Bytes) (index : Nat) : Option Bytes := do
  let start ← (lineStarts s)[index]?
  let stop ← lineEnd? s index
  stretch? s start (← difference? stop start)

/-- The lines from one index on, up to and including the last one. -/
def linesTo? (s : Bytes) (last index : Nat) : Option (List Bytes) :=
  if index ≤ last then do
    let line ← line? s index
    let rest ← linesTo? s last (index + 1)
    some (line :: rest)
  else some []
termination_by last + 1 - index

/-- The index of the first line to show. -/
def firstShown? (caret context : Nat) : Option Nat :=
  if context < caret then difference? caret context else some 0

/-- The first line that is shown is computed without a negative difference. -/
theorem firstShown?_eq (caret context : Nat) :
    firstShown? caret context = some (caret - context) := by
  unfold firstShown?
  split
  · exact difference?_of_le (by omega)
  · rw [Nat.sub_eq_zero_of_le (by omega)]

/-- The line where a span starts and the lines around it. As for the snippet, it is `none` where a
difference would be negative. -/
def block? (f : SourceFile) (span : Span) (context : Nat) : Option SnippetBlock := do
  let s ← f.snippet? span
  let caret ← difference? s.line 1
  let lastLine ← difference? (lineStarts f.content).length 1
  let first ← firstShown? caret context
  let last := min (wordOf (caret + context)) (wordOf lastLine)
  let lines ← linesTo? f.content last first
  some {
    firstLine := wordOf (first + 1)
    lines
    caret := ← difference? caret first
    before := s.before
    width := s.width
    column := s.column }

/-- In a short source, the line of an index is cut out within bounds. -/
theorem line?_eq (hsize : f.content.length < 2 ^ 31) {index : Nat} (h : index < f.lines.length) :
    line? f.content index = some f.lines[index] := by
  obtain ⟨front, line, back, hl, rfl⟩ := exists_line_of_index h
  have htext : f.lines[front.count lineFeed] = line :=
    (List.getElem?_eq_some_iff.mp hl.getElem?_lines).2
  rw [line?, hl.getElem?_lineStarts (by omega), hl.lineEnd?_eq hsize, htext]
  simp only [Option.bind_eq_bind, Option.bind_some]
  rw [difference?_of_le (Nat.le_add_right _ _), Nat.add_sub_cancel_left]
  exact hl.stretch?_eq

/-- In a short source, so are the lines from one index to another. -/
theorem linesTo?_eq (hsize : f.content.length < 2 ^ 31) {last : Nat} (hlast : last < f.lines.length)
    (index : Nat) :
    linesTo? f.content last index = some ((f.lines.take (last + 1)).drop index) := by
  fun_induction linesTo? f.content last index with
  | case1 index hle ih =>
    have hindex : index < (f.lines.take (last + 1)).length := by
      rw [List.length_take]
      omega
    rw [line?_eq hsize (by omega), ih, List.drop_eq_getElem_cons hindex, List.getElem_take]
    rfl
  | case2 index hgt =>
    rw [List.drop_eq_nil_of_le (by rw [List.length_take]; omega)]

/-- In a short source, the block around a span is computed without any overflow. -/
theorem block?_eq (hsize : f.content.length < 2 ^ 31) (span : Span) (context : UInt32) :
    f.block? span context.toNat = some (f.block span context) := by
  have hlt := lineIndex_lt f (min span.lo f.content.length)
  have hlines := length_lines_le f
  have hcaret : (f.snippet span).line - 1 = f.lineIndex (min span.lo f.content.length) := rfl
  have hone : 1 ≤ (f.snippet span).line := Nat.succ_pos _
  rw [block, block?, snippet?_eq hsize, length_lineStarts]
  simp only [Option.bind_eq_bind, Option.bind_some]
  rw [difference?_of_le hone, Option.bind_some, difference?_of_le (by omega), Option.bind_some,
    hcaret]
  generalize f.lineIndex (min span.lo f.content.length) = caret at hlt
  have hsum : wordOf (caret + context.toNat) = (caret.toUInt32 + context).toNat := by
    rw [UInt32.toNat_add, Nat.toUInt32, UInt32.toNat_ofNat', wordOf]
    omega
  rw [firstShown?_eq, Option.bind_some, hsum, wordOf_of_lt (n := f.lines.length - 1) (by omega),
    linesTo?_eq hsize (by omega), Option.bind_some, difference?_of_le (Nat.sub_le _ _),
    Option.bind_some, wordOf_of_lt (by omega)]

end SourceFile

/-! ## Source maps -/

namespace SourceMap

/-- Line and column in one of the sources, with every step checked. -/
def lineColumn? (m : SourceMap) (file offset : Nat) : Option LineColumn :=
  match m[file]? with
  | some f => f.lineColumn? offset
  | none => some {}

/-- The snippet in one of the sources, with every step checked. -/
def snippet? (m : SourceMap) (file : Nat) (span : Span) : Option Snippet :=
  match m[file]? with
  | some f => f.snippet? span
  | none => some {}

/-- The block in one of the sources, with every step checked. -/
def block? (m : SourceMap) (file : Nat) (span : Span) (context : Nat) : Option SnippetBlock :=
  match m[file]? with
  | some f => f.block? span context
  | none => some {}

/-- Every file is shorter than 2 ^ 31 bytes. -/
def Short (m : SourceMap) : Prop := ∀ f ∈ m, f.content.length < 2 ^ 31

variable {m : SourceMap}

/-- In short sources the checked line and column are the ones of the model. -/
theorem Short.lineColumn?_eq (h : m.Short) (file offset : Nat) :
    m.lineColumn? file offset = some (m.lineColumn file offset) := by
  unfold lineColumn? lineColumn
  cases hf : m[file]? with
  | none => rfl
  | some f => exact SourceFile.lineColumn?_eq (h f (List.mem_of_getElem? hf)) offset

/-- In short sources the checked snippet is the one of the model. -/
theorem Short.snippet?_eq (h : m.Short) (file : Nat) (span : Span) :
    m.snippet? file span = some (m.snippet file span) := by
  unfold snippet? snippet
  cases hf : m[file]? with
  | none => rfl
  | some f => exact SourceFile.snippet?_eq (h f (List.mem_of_getElem? hf)) span

/-- In short sources the checked block is the one of the model. -/
theorem Short.block?_eq (h : m.Short) (file : Nat) (span : Span) (context : UInt32) :
    m.block? file span context.toNat = some (m.block file span context) := by
  unfold block? block
  cases hf : m[file]? with
  | none => rfl
  | some f => exact SourceFile.block?_eq (h f (List.mem_of_getElem? hf)) span context

end SourceMap

/-! ## Findings -/

/-- A greater number has at least as many digits. -/
theorem length_decimal_le {m n : Nat} (h : m ≤ n) : (decimal m).length ≤ (decimal n).length := by
  have hpos : 0 < (decimal n).length := List.length_pos_of_ne_nil (decimal_ne_nil n)
  have hlt := (length_decimal_le_iff hpos).mp (Nat.le_refl _)
  exact (length_decimal_le_iff hpos).mpr (by omega)

/-- How many digits a number has, by division. -/
def digitCount (n : Nat) : Nat := if n < 10 then 1 else digitCount (n / 10) + 1

/-- The digits counted by dividing are those of the number. -/
theorem digitCount_eq (n : Nat) : digitCount n = (decimal n).length := by
  fun_induction digitCount n with
  | case1 n h =>
    have hone := (length_decimal_le_iff (n := n) Nat.one_pos).mpr (by omega)
    have hpos := List.length_pos_of_ne_nil (decimal_ne_nil n)
    omega
  | case2 n h ih =>
    rw [ih, decimal, decimal, List.length_map, List.length_map,
      Nat.toDigits_eq_if (b := 10) (n := n) (by decide), if_neg h, List.length_append,
      List.length_singleton]

namespace Diagnostic

variable {m : SourceMap}

/-- The lines that both forms start with. -/
def headline? (l : Language) (m : SourceMap) (d : Diagnostic) : Option Bytes := do
  let place ← m.lineColumn? d.file d.span.lo
  some (bytes d.severity.name ++ bytes "[" ++ bytes d.code.name ++ bytes "]: " ++ d.message l
    ++ bytes "\n --> " ++ m.name d.file ++ bytes ":" ++ decimal place.line ++ bytes ":"
    ++ decimal place.column ++ bytes "\n  |\n")

/-- The finding with its source line. -/
def render? (l : Language) (m : SourceMap) (d : Diagnostic) : Option Bytes := do
  let headline ← d.headline? l m
  let s ← m.snippet? d.file d.span
  some (headline ++ decimal s.line ++ bytes " | " ++ s.text ++ bytes "\n  | "
    ++ underline s.before s.width)

/-- The numbered lines of a block from number `i` on, each number set right in its field. -/
def rows? (width : Nat) (b : SnippetBlock) (i : Nat) : List Bytes → Option Bytes
  | [] => some []
  | text :: texts => do
    let number := decimal (wordOf (b.firstLine + i))
    let padding ← difference? width number.length
    let rest ← rows? width b (i + 1) texts
    some (bytes "  " ++ (List.replicate padding Byte.space ++ number) ++ bytes " | " ++ text
      ++ bytes "\n" ++ (if i = b.caret then
          bytes "  " ++ List.replicate width Byte.space ++ bytes " | "
            ++ underline b.before b.width ++ bytes "\n"
        else []) ++ rest)

/-- The finding with the lines around its source line. -/
def renderContext? (l : Language) (m : SourceMap) (context : Nat) (d : Diagnostic) :
    Option Bytes := do
  let headline ← d.headline? l m
  let b ← m.block? d.file d.span context
  let lastLine ← difference? (wordOf (b.firstLine + wordOf b.lines.length)) 1
  let rows ← rows? (digitCount lastLine) b 0 b.lines
  some (headline ++ rows)

/-- Every number of a line fits into a field that is as wide as the last one. -/
theorem rows?_eq {b : SnippetBlock} {last : Nat} (hlast : last < 2 ^ 32) (i : Nat)
    (texts : List Bytes) (h : b.firstLine + i + texts.length ≤ last + 1) :
    rows? (decimal last).length b i texts =
      some ((texts.zipIdx i).flatMap fun (text, i) =>
        bytes "  " ++ padLeft (decimal last).length (decimal (b.firstLine + i)) ++ bytes " | "
          ++ text ++ bytes "\n" ++ (if i = b.caret then
            bytes "  " ++ List.replicate (decimal last).length Byte.space ++ bytes " | "
              ++ underline b.before b.width ++ bytes "\n"
          else [])) := by
  induction texts generalizing i with
  | nil => rfl
  | cons text texts ih =>
    rw [List.length_cons] at h
    have hfits : (decimal (b.firstLine + i)).length ≤ (decimal last).length :=
      length_decimal_le (by omega)
    rw [rows?, wordOf_of_lt (by omega), difference?_of_le hfits, ih (i + 1) (by omega)]
    rfl

/-- Where the lines of a block are numbered. -/
theorem lines_block_le (h : m.Short) (file : Nat) (span : Span) (context : UInt32) :
    1 ≤ (m.block file span context).firstLine ∧
      (m.block file span context).firstLine + (m.block file span context).lines.length
        ≤ 2 ^ 31 + 1 := by
  unfold SourceMap.block
  cases hf : m[file]? with
  | none =>
    show 1 ≤ 1 ∧ 1 + 1 ≤ 2 ^ 31 + 1
    decide
  | some f =>
    have hsize := h f (List.mem_of_getElem? hf)
    have hlines := f.length_lines_le
    have hlt := f.lineIndex_lt (f.shownOffset span)
    obtain ⟨hfirst, -, hblock⟩ := f.block_eq span context
    dsimp only
    rw [hfirst, hblock, List.length_drop, List.length_take]
    omega

/-- In short sources the checked headline is the one of the model. -/
theorem headline?_eq (h : m.Short) (l : Language) (d : Diagnostic) :
    d.headline? l m = some (d.headline l m) := by
  rw [headline?, h.lineColumn?_eq]
  rfl

/-- In short sources the checked line of a finding is the one of the model. -/
theorem render?_eq (h : m.Short) (l : Language) (d : Diagnostic) :
    d.render? l m = some (d.render l m) := by
  rw [render?, headline?_eq h, h.snippet?_eq]
  rfl

/-- In short sources the checked finding with its lines is the one of the model. -/
theorem renderContext?_eq (h : m.Short) (l : Language) (context : UInt32) (d : Diagnostic) :
    d.renderContext? l m context.toNat = some (d.renderContext l m context) := by
  obtain ⟨hone, hle⟩ := lines_block_le h d.file d.span context
  rw [renderContext?, headline?_eq h, h.block?_eq]
  simp only [Option.bind_eq_bind, Option.bind_some]
  rw [wordOf_of_lt (n := (m.block d.file d.span context).lines.length) (by omega),
    wordOf_of_lt (by omega), difference?_of_le (by omega), Option.bind_some, digitCount_eq,
    rows?_eq (by omega) 0 _ (by omega), Option.bind_some]
  rfl

end Diagnostic

open Diagnostic

/-- **Rendering is total.** For every source map with files of less than 2 ^ 31 bytes, every
finding, its file known or not and its offsets in the file or not, and every number of context
lines: no stretch of a text that is shown reaches out of the text, every line that is looked up has
a start, and no difference of offsets, of line numbers or of widths is below zero. What comes out is
what the findings are rendered as. -/
theorem render_total {m : SourceMap} (h : m.Short) :
    (∀ file offset, m.lineColumn? file offset = some (m.lineColumn file offset)) ∧
    (∀ file span, m.snippet? file span = some (m.snippet file span)) ∧
    (∀ file span (context : UInt32),
      m.block? file span context.toNat = some (m.block file span context)) ∧
    (∀ l d, Diagnostic.render? l m d = some (d.render l m)) ∧
    ∀ l (context : UInt32) d,
      Diagnostic.renderContext? l m context.toNat d = some (d.renderContext l m context) :=
  ⟨h.lineColumn?_eq, h.snippet?_eq, h.block?_eq, render?_eq h, renderContext?_eq h⟩

namespace RenderSample

/-- One file with two lines. -/
def sources : SourceMap := [⟨bytes "a.ts", bytes "a\nb"⟩]

/-- A finding that starts behind the end of the file and ends before it starts. -/
def finding : Diagnostic := { code := .unterminatedString, span := ⟨7, 2⟩ }

end RenderSample

open RenderSample

/-- With as many context lines as a word can count, the number of the last line wraps; the rendering
is short then, but it is there. -/
theorem render_total_sample :
    sources.Short ∧
      renderContext? .english sources 0xFFFFFFFF finding
        = some (renderContext .english sources 0xFFFFFFFF finding) ∧
      renderContext .english sources 0xFFFFFFFF finding
        = bytes "error[UnterminatedString]: unterminated string literal\n --> a.ts:2:2\n"
          ++ bytes "  |\n  1 | a\n" := by
  have hshort : sources.Short := by
    intro f hf
    rw [List.mem_singleton.mp hf]
    decide
  refine ⟨hshort, ?_, by decide +kernel⟩
  exact (render_total hshort).2.2.2.2 .english 0xFFFFFFFF finding

end SignatureLedger
