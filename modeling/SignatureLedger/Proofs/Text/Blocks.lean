import SignatureLedger.Proofs.Text.Display

/-!
# Blocks of lines

A block shows the line of an offset with lines around it. The number of its last line is a sum of
32-bit words: as long as the sum does not wrap, the line of the offset is among those shown, and
when it does wrap that line is not shown at all (`showsLine_block_iff`).
-/

namespace SignatureLedger

namespace Bytes

variable {sep : UInt8} {front line back : Bytes}

/-- `n` separators give `n + 1` parts. -/
theorem length_splitOn (sep : UInt8) (s : Bytes) : (splitOn sep s).length = s.count sep + 1 := by
  induction s with
  | nil => rfl
  | cons b s ih =>
    by_cases hb : b = sep
    · rw [hb, splitOn_cons_self, List.length_cons, ih, List.count_cons_self]
    · obtain ⟨p, ps, hs⟩ := List.exists_cons_of_ne_nil (splitOn_ne_nil sep s)
      rw [splitOn_cons_of_ne hb hs, List.length_cons, List.count_cons_of_ne hb, ← ih, hs,
        List.length_cons]

/-- The text is empty or starts with a separator. -/
def StartsBreak (sep : UInt8) (s : Bytes) : Prop := s = [] ∨ ∃ t, s = sep :: t

/-- What stands before the first separator, or all of the text. -/
theorem exists_firstLine (sep : UInt8) (s : Bytes) :
    ∃ tail back, s = tail ++ back ∧ sep ∉ tail ∧ StartsBreak sep back := by
  by_cases h : sep ∈ s
  · obtain ⟨tail, rest, hs, htail⟩ := List.eq_append_cons_of_mem h
    exact ⟨tail, sep :: rest, hs, htail, .inr ⟨rest, rfl⟩⟩
  · exact ⟨s, [], (List.append_nil s).symm, h, .inl rfl⟩

/-- A line is found by the number of separators before it. -/
theorem getElem?_splitOn (hfront : EndsLine sep front) (hline : sep ∉ line)
    (hback : StartsBreak sep back) :
    (splitOn sep (front ++ line ++ back))[front.count sep]? = some line := by
  have hhead : (splitOn sep (line ++ back))[0]? = some line := by
    rcases hback with rfl | ⟨rest, rfl⟩
    · rw [List.append_nil, splitOn_of_not_mem hline]
      rfl
    · rw [splitOn_append_cons hline]
      rfl
  rcases hfront with rfl | ⟨front, rfl⟩
  · exact hhead
  · have hdrop : (splitOn sep (front ++ sep :: (line ++ back))).drop (front.count sep + 1) = _ :=
      splitOn_append_separator front (line ++ back)
    rw [List.append_assoc, List.append_assoc, List.singleton_append, List.count_append,
      List.count_singleton_self, ← Nat.add_zero (List.count sep front + 1), ← List.getElem?_drop,
      hdrop, hhead]

end Bytes

namespace SourceFile

open Byte

/-- The line of a text that an offset is in or at the end of: the text starts there or a line feed
stands before it, the text ends there or a line feed stands behind it, and there is none in it. -/
def LineAt (content : Bytes) (offset : Nat) (line : Bytes) : Prop :=
  ∃ front back, content = front ++ line ++ back ∧ Bytes.EndsLine lineFeed front ∧
    lineFeed ∉ line ∧ Bytes.StartsBreak lineFeed back ∧
    front.length ≤ offset ∧ offset ≤ front.length + line.length

variable {f : SourceFile} {offset : Nat}

/-- The index of a line is that of one of the lines. -/
theorem lineIndex_lt (f : SourceFile) (offset : Nat) : f.lineIndex offset < f.lines.length := by
  rw [lines, Bytes.length_splitOn, lineIndex]
  exact Nat.lt_succ_of_le ((List.take_sublist offset f.content).count_le lineFeed)

/-- **The line of an offset** is the one whose index is the number of line feeds before the offset.
-/
theorem exists_lineAt (h : offset ≤ f.content.length) :
    ∃ line, f.lines[f.lineIndex offset]? = some line ∧ LineAt f.content offset line := by
  obtain ⟨front, htake, hfront, hpart⟩ := Bytes.exists_lastLine lineFeed (f.content.take offset)
  obtain ⟨tail, back, hdrop, htail, hback⟩ :=
    Bytes.exists_firstLine lineFeed (f.content.drop offset)
  generalize ((f.content.take offset).reverse.takeWhile (· != lineFeed)).reverse = part
    at htake hpart
  have hcontent : f.content = front ++ (part ++ tail) ++ back := by
    rw [← List.take_append_drop offset f.content, htake, hdrop]
    simp only [List.append_assoc]
  have hline : lineFeed ∉ part ++ tail := by simp [hpart, htail]
  have hindex : f.lineIndex offset = front.count lineFeed := by
    rw [lineIndex, htake, List.count_append, List.count_eq_zero.mpr hpart, Nat.add_zero]
  have hlength : front.length + part.length = offset := by
    rw [← List.length_append, ← htake, List.length_take, Nat.min_eq_left h]
  refine ⟨part ++ tail, ?_, front, back, hcontent, hfront, hline, hback, ?_, ?_⟩
  · rw [hindex, lines, hcontent]
    exact Bytes.getElem?_splitOn hfront hline hback
  · omega
  · rw [List.length_append]
    omega

/-! ## Blocks -/

/-- A block shows the line of an offset: it has consecutive lines of the file, the line at its mark
is that of the offset, and there are at most `context` lines before and behind it. -/
structure ShowsLine (f : SourceFile) (offset context : Nat) (b : SnippetBlock) : Prop where
  firstLine_pos : 0 < b.firstLine
  consecutive : b.lines = (f.lines.drop (b.firstLine - 1)).take b.lines.length
  caret_lt : b.caret < b.lines.length
  line : ∃ line, b.lines[b.caret]? = some line ∧ LineAt f.content offset line
  before : b.caret ≤ context
  behind : b.lines.length ≤ b.caret + 1 + context

/-- The offset that a span is shown at: one behind the end counts as the end. -/
def shownOffset (f : SourceFile) (span : Span) : Nat := min span.lo f.content.length

/-- The index of the last line that a block shows. -/
def lastShown (f : SourceFile) (span : Span) (context : UInt32) : Nat :=
  min ((f.lineIndex (f.shownOffset span)).toUInt32 + context).toNat (f.lines.length - 1)

variable {span : Span} {context : UInt32}

/-- The block that is shown: the lines from some above the caret's to some below, and the caret's
place among them. -/
theorem block_eq (f : SourceFile) (span : Span) (context : UInt32) :
    let index := f.lineIndex (f.shownOffset span)
    (f.block span context).firstLine = index - context.toNat + 1 ∧
      (f.block span context).caret = index - (index - context.toNat) ∧
      (f.block span context).lines =
        (f.lines.take (f.lastShown span context + 1)).drop (index - context.toNat) :=
  ⟨rfl, rfl, rfl⟩

/-- The sum that gives the last line reaches the line of the offset exactly if it does not wrap. -/
theorem lineIndex_le_sum_iff (index : Nat) (context : UInt32) :
    index ≤ (index.toUInt32 + context).toNat ↔ index + context.toNat < 2 ^ 32 := by
  have hcontext : context.toNat < 2 ^ 32 := context.toNat_lt
  rw [UInt32.toNat_add, Nat.toUInt32, UInt32.toNat_ofNat']
  omega

/-- In no case does it go beyond the lines that are asked for. -/
theorem sum_le (index : Nat) (context : UInt32) :
    (index.toUInt32 + context).toNat ≤ index + context.toNat := by
  rw [UInt32.toNat_add, Nat.toUInt32, UInt32.toNat_ofNat']
  omega

/-- **A block shows the line of its span exactly if the number of its last line does not wrap.** -/
theorem showsLine_iff (f : SourceFile) (span : Span) (context : UInt32) :
    ShowsLine f (f.shownOffset span) context.toNat (f.block span context) ↔
      f.lineIndex (f.shownOffset span) + context.toNat < 2 ^ 32 := by
  obtain ⟨hfirst, hcaret, hlines⟩ := block_eq f span context
  have hlt := lineIndex_lt f (f.shownOffset span)
  have hsum := lineIndex_le_sum_iff (f.lineIndex (f.shownOffset span)) context
  have hle := sum_le (f.lineIndex (f.shownOffset span)) context
  have hsize : f.shownOffset span ≤ f.content.length := Nat.min_le_right _ _
  obtain ⟨line, hline, hat⟩ := exists_lineAt hsize
  have hlast : f.lastShown span context = min _ (f.lines.length - 1) := rfl
  generalize f.lineIndex (f.shownOffset span) = index at *
  generalize f.lastShown span context = last at *
  have hlength : (f.block span context).lines.length = last + 1 - (index - context.toNat) := by
    rw [hlines, List.length_drop, List.length_take, Nat.min_eq_left (by omega)]
  constructor
  · intro h
    have hmark := h.caret_lt
    rw [hcaret, hlength] at hmark
    exact hsum.mp (by omega)
  · intro h
    have hreach := hsum.mpr h
    -- the line of the offset is neither cut off in front nor behind
    have hmark : (f.block span context).lines[(f.block span context).caret]? = some line := by
      rw [hcaret, hlines, List.getElem?_drop, List.getElem?_take_of_lt (by omega),
        Nat.add_sub_of_le (Nat.sub_le _ _), hline]
    exact {
      firstLine_pos := hfirst ▸ Nat.succ_pos _
      consecutive := by rw [hlength, hlines, List.drop_take, hfirst, Nat.add_sub_cancel]
      caret_lt := (List.getElem?_eq_some_iff.mp hmark).1
      line := ⟨line, hmark, hat⟩
      before := by omega
      behind := by omega }

end SourceFile

open SourceFile

/-- **The reported line is shown exactly if the number of the last line does not wrap.** For every
file of a source map, every span, its offsets in the file or not, and every number of context lines:
the block has consecutive lines of the file with the line that contains the start of the span, or
the end of the file if the span starts behind it, at its mark, and at most as many lines before and
behind as are asked for, if and only if the index of that line and the number of context lines sum
up to less than `2 ^ 32`. -/
theorem showsLine_block_iff {m : SourceMap} {file : Nat} {f : SourceFile} (h : m[file]? = some f)
    (span : Span) (context : UInt32) :
    ShowsLine f (min span.lo f.content.length) context.toNat (m.block file span context) ↔
      f.lineIndex (min span.lo f.content.length) + context.toNat < 2 ^ 32 := by
  have hblock : m.block file span context = f.block span context := by rw [SourceMap.block, h]
  rw [hblock]
  exact showsLine_iff f span context

namespace BlockSample

/-- A file with two lines. -/
def file : SourceFile := ⟨bytes "a.ts", bytes "a\nb"⟩

end BlockSample

open BlockSample

/-- A span that starts behind the end is shown with the last line, also with as many context lines
as there can be without a sum that wraps. -/
theorem showsLine_block_iff_end :
    [file][0]? = some file ∧
      ShowsLine file 3 0xFFFFFFFE (SourceMap.block [file] 0 ⟨7, 9⟩ 0xFFFFFFFE) :=
  ⟨rfl, (showsLine_block_iff rfl ⟨7, 9⟩ 0xFFFFFFFE).mpr (by decide +kernel)⟩

/-- With one context line more the mark is behind the lines that are shown. -/
theorem not_showsLine_wrapped :
    (SourceMap.block [file] 0 ⟨2, 3⟩ 0xFFFFFFFF).lines = [bytes "a"] ∧
      (SourceMap.block [file] 0 ⟨2, 3⟩ 0xFFFFFFFF).caret = 1 ∧
      ¬ ShowsLine file 2 0xFFFFFFFF (SourceMap.block [file] 0 ⟨2, 3⟩ 0xFFFFFFFF) := by
  refine ⟨by decide +kernel, by decide +kernel, fun h => ?_⟩
  have hmark := h.caret_lt
  revert hmark
  decide +kernel

end SignatureLedger
