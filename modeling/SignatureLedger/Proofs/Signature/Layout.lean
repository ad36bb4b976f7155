import SignatureLedger.Signature.Normal
import Mathlib.Data.List.TakeWhile

/-!
# What layout keeps of a text

The layout passes look at two things only: the bytes that are no blanks, and between which of them
blanks stand. `cells` is this view of a text. The main statement, `layout_eq`, gives the laid out
text as a function of the view: a gap survives unless a tight punctuator touches it, and a colon, a
comma or a semicolon makes one of its own.
-/

namespace SignatureLedger.Normal

open Byte

/-- The three layout passes: collapsed blanks, tidy punctuation, trimmed ends. -/
def layout (s : Bytes) : Bytes := (tidyPunctuation (collapseBlanks s)).trim

/-- A text is normalized by stripping first and laying out the rest. -/
theorem normalize_eq (s : Bytes) : normalize s = layout (strip s) := rfl

/-! ## Cells -/

/-- A byte that is no blank, and whether blanks stand before it. -/
structure Cell where
  gap : Bool
  byte : UInt8
deriving DecidableEq, Repr

/-- The cells of a text; `gap` says whether blanks stand before the text. -/
def cellsFrom (gap : Bool) : Bytes → List Cell
  | [] => []
  | b :: s => if isSpace b then cellsFrom true s else ⟨gap, b⟩ :: cellsFrom false s

/-- The cells of a text: its bytes of ink, each with a mark for the blanks before it. -/
def cells (s : Bytes) : List Cell := cellsFrom false s

/-- The text with the given cells and one space for each gap. -/
def render : List Cell → Bytes
  | [] => []
  | c :: cs => (if c.gap then [space] else []) ++ c.byte :: render cs

theorem isSpace_space : isSpace space = true := by decide

/-- A blank sets the mark of the next cell. -/
theorem cellsFrom_of_isSpace {b : UInt8} (hb : isSpace b = true) (gap : Bool) (s : Bytes) :
    cellsFrom gap (b :: s) = cellsFrom true s := by
  rw [cellsFrom, if_pos hb]

/-- A byte of ink is a cell, and behind it no blank has been seen yet. -/
theorem cellsFrom_of_not_isSpace {b : UInt8} (hb : isSpace b = false) (gap : Bool) (s : Bytes) :
    cellsFrom gap (b :: s) = ⟨gap, b⟩ :: cellsFrom false s := by
  rw [cellsFrom, if_neg (by simp [hb])]

/-- No cell holds a blank. -/
theorem isSpace_of_mem_cellsFrom {gap : Bool} {s : Bytes} {c : Cell} (hc : c ∈ cellsFrom gap s) :
    isSpace c.byte = false := by
  induction s generalizing gap with
  | nil => simp [cellsFrom] at hc
  | cons b s ih =>
    cases hb : isSpace b with
    | true =>
      rw [cellsFrom_of_isSpace hb] at hc
      exact ih hc
    | false =>
      rw [cellsFrom_of_not_isSpace hb, List.mem_cons] at hc
      rcases hc with rfl | hc
      · exact hb
      · exact ih hc

/-- Reading back what was rendered gives the cells again, but for a gap at the front. -/
theorem cellsFrom_render {gap : Bool} {c : Cell} {cs : List Cell}
    (h : ∀ d ∈ c :: cs, isSpace d.byte = false) :
    cellsFrom gap (render (c :: cs)) = ⟨gap || c.gap, c.byte⟩ :: cs := by
  induction cs generalizing gap c with
  | nil =>
    have hc := h c (by simp)
    cases hg : c.gap
    · simp [render, hg, cellsFrom_of_not_isSpace hc, cellsFrom]
    · simp [render, hg, cellsFrom_of_isSpace isSpace_space, cellsFrom, hc]
  | cons d cs ih =>
    have hc := h c (by simp)
    have hrest : cellsFrom false (render (d :: cs)) = d :: cs := by
      rw [ih (fun e he => h e (by simp [List.mem_cons.mp he]))]
      simp
    rw [render]
    cases hg : c.gap
    · simp [cellsFrom_of_not_isSpace hc, hrest]
    · simp [cellsFrom_of_isSpace isSpace_space, cellsFrom_of_not_isSpace hc, hrest]

/-! ## The bytes that are no blanks -/

/-- The bytes of a text that are no blanks. -/
def ink (s : Bytes) : Bytes := s.filter (!isSpace ·)

/-- The ink of a text is made of its bytes. -/
theorem mem_of_mem_ink {b : UInt8} {s : Bytes} (h : b ∈ ink s) : b ∈ s := (List.mem_filter.mp h).1

/-- The ink of two texts put together is their ink put together. -/
theorem ink_append (s t : Bytes) : ink (s ++ t) = ink s ++ ink t := List.filter_append s t

/-- The bytes of the cells are the ink of the text. -/
theorem map_byte_cellsFrom (gap : Bool) (s : Bytes) : (cellsFrom gap s).map (·.byte) = ink s := by
  induction s generalizing gap with
  | nil => rfl
  | cons b s ih =>
    cases hb : isSpace b with
    | true => rw [cellsFrom_of_isSpace hb, ih, ink, ink, List.filter_cons_of_neg (by simp [hb])]
    | false =>
      rw [cellsFrom_of_not_isSpace hb, List.map_cons, ih, ink, ink,
        List.filter_cons_of_pos (by simp [hb])]

/-! ## Settled cells -/

/-- Layout leaves a space between the byte `a` and the cell after it. -/
def keepsGap (a : UInt8) (c : Cell) : Bool :=
  takesSpace a || (c.gap && !isTight a && !isTight c.byte)

/-- The cells with the gaps that layout leaves; `previous?` is the byte before them. Nothing is left
before the first cell of a text. -/
def settleFrom (previous? : Option UInt8) : List Cell → List Cell
  | [] => []
  | c :: cs => ⟨previous?.any (keepsGap · c), c.byte⟩ :: settleFrom (some c.byte) cs

/-- The cells with the marks that survive the tidying of blanks. -/
def settle (cs : List Cell) : List Cell := settleFrom none cs

/-- A punctuator that takes a space is set tight. -/
theorem isTight_of_takesSpace {b : UInt8} (h : takesSpace b = true) : isTight b = true := by
  simp only [takesSpace, Bool.or_eq_true, beq_iff_eq] at h
  rcases h with (rfl | rfl) | rfl <;> rfl

/-- Settling changes no byte. -/
theorem map_byte_settleFrom (p : Option UInt8) (cs : List Cell) :
    (settleFrom p cs).map (·.byte) = cs.map (·.byte) := by
  induction cs generalizing p with
  | nil => rfl
  | cons c cs ih => rw [settleFrom, List.map_cons, List.map_cons, ih]

/-- A gap that was kept is kept again. -/
theorem keepsGap_keepsGap (a : UInt8) (c : Cell) :
    keepsGap a ⟨keepsGap a c, c.byte⟩ = keepsGap a c := by
  cases ha : takesSpace a with
  | true => simp [keepsGap, ha]
  | false =>
    simp only [keepsGap, ha, Bool.false_or]
    cases c.gap <;> cases isTight a <;> cases isTight c.byte <;> rfl

/-- Cells that are settled stay as they are. -/
theorem settleFrom_settleFrom (p : Option UInt8) (cs : List Cell) :
    settleFrom p (settleFrom p cs) = settleFrom p cs := by
  induction cs generalizing p with
  | nil => rfl
  | cons c cs ih =>
    rw [settleFrom, settleFrom, ih]
    cases p with
    | none => rfl
    | some a => simp [keepsGap_keepsGap]

/-- No cell of a settled text holds a blank, if none did before. -/
theorem isSpace_of_mem_settleFrom {p : Option UInt8} {cs : List Cell}
    (h : ∀ c ∈ cs, isSpace c.byte = false) :
    ∀ c ∈ settleFrom p cs, isSpace c.byte = false := by
  intro c hc
  have hmem : c.byte ∈ (settleFrom p cs).map (·.byte) := List.mem_map_of_mem hc
  rw [map_byte_settleFrom, List.mem_map] at hmem
  obtain ⟨d, hd, hdc⟩ := hmem
  rw [← hdc]
  exact h d hd

/-! ## Collapsing blanks -/

/-- What is left of the blanks at the end of a text. -/
def lastGap (gap : Bool) : Bytes → Bytes
  | [] => if gap then [space] else []
  | b :: s => lastGap (isSpace b) s

/-- Collapsing blanks keeps the cells and at most one space at the end. -/
theorem collapseFrom_eq (gap : Bool) (s : Bytes) :
    (if gap then [space] else []) ++ collapseFrom gap s
      = render (cellsFrom gap s) ++ lastGap gap s := by
  -- the blanks read so far are written already, so the left side carries their space
  induction s generalizing gap with
  | nil => simp [collapseFrom, cellsFrom, render, lastGap]
  | cons b s ih =>
    cases hb : isSpace b with
    | true =>
      rw [cellsFrom_of_isSpace hb, lastGap, hb, ← ih true]
      cases gap <;> simp [collapseFrom, hb]
    | false =>
      rw [cellsFrom_of_not_isSpace hb, lastGap, hb, render]
      have := ih false
      simp only [Bool.false_eq_true, if_false, List.nil_append] at this
      simp [collapseFrom, hb, this]

/-- What is left of the blanks at the end is nothing or one space. -/
theorem lastGap_eq (gap : Bool) (s : Bytes) : lastGap gap s = [] ∨ lastGap gap s = [space] := by
  induction s generalizing gap with
  | nil => cases gap <;> simp [lastGap]
  | cons b s ih => exact ih (isSpace b)

/-- Collapsing the blanks of a text writes out its cells, and one space for blanks at the end. -/
theorem collapseBlanks_eq (s : Bytes) :
    collapseBlanks s = render (cells s) ++ lastGap false s := by
  simpa [collapseBlanks, cells] using collapseFrom_eq false s

/-! ## Tidy punctuation -/

/-- The space that a punctuator puts behind itself. -/
def ownSpace (a : UInt8) : Bytes := if takesSpace a then [space] else []

/-- A byte that is no space is written as it is, with its own space. -/
theorem tidyFrom_of_ne {b : UInt8} (hb : b ≠ space) (p : Option UInt8) (s : Bytes) :
    tidyFrom p (b :: s) = b :: (ownSpace b ++ tidyFrom (some b) s) := by
  rw [tidyFrom, if_neg hb, ownSpace]
  split <;> simp

/-- A space stays exactly if neither neighbour is tight. -/
theorem tidyFrom_space (p : Option UInt8) (s : Bytes) :
    tidyFrom p (space :: s) =
      (if p.any isTight || s.head?.any isTight then [] else [space])
        ++ tidyFrom (some space) s := by
  rw [tidyFrom, if_pos rfl]
  split <;> simp

/-- Ink is no space. -/
theorem ne_space_of_isSpace {b : UInt8} (hb : isSpace b = false) : b ≠ space := by
  rintro rfl
  exact absurd hb (by decide)

/-- Tidying at a gap: one space stays if layout keeps the gap, counting the own space of the byte
before. -/
theorem tidyFrom_gap {a : UInt8} {c : Cell} (hc : isSpace c.byte = false) (s : Bytes) :
    ownSpace a ++ tidyFrom (some a) ((if c.gap then [space] else []) ++ c.byte :: s) =
      (if keepsGap a c then [space] else []) ++
        c.byte :: (ownSpace c.byte ++ tidyFrom (some c.byte) s) := by
  have hne := ne_space_of_isSpace hc
  cases hg : c.gap with
  | false =>
    simp only [Bool.false_eq_true, if_false, List.nil_append, tidyFrom_of_ne hne, ownSpace,
      keepsGap, hg, Bool.false_and, Bool.or_false]
  | true =>
    simp only [if_true, List.singleton_append, tidyFrom_space, tidyFrom_of_ne hne, keepsGap, hg]
    -- a byte with a space of its own is tight, and so takes the place of the gap
    cases ha : takesSpace a with
    | true => simp [ownSpace, ha, isTight_of_takesSpace ha]
    | false =>
      simp only [ownSpace, ha]
      cases hta : isTight a <;> cases htc : isTight c.byte <;> simp [hta, htc]

/-- Tidying behind a byte `a` settles the cells; at most one space is left over at the end. -/
theorem tidyFrom_render {cs : List Cell} (h : ∀ c ∈ cs, isSpace c.byte = false) (a : UInt8)
    {t : Bytes} (ht : t = [] ∨ t = [space]) :
    ∃ t', (t' = [] ∨ t' = [space]) ∧
      ownSpace a ++ tidyFrom (some a) (render cs ++ t) = render (settleFrom (some a) cs) ++ t' := by
  induction cs generalizing a with
  | nil =>
    rcases ht with rfl | rfl
    · exact ⟨ownSpace a, by unfold ownSpace; split <;> simp, by simp [render, settleFrom, tidyFrom]⟩
    · refine ⟨ownSpace a ++ tidyFrom (some a) [space], ?_, by simp [render, settleFrom]⟩
      rw [tidyFrom_space]
      cases ha : takesSpace a with
      | true => simp [ownSpace, ha, isTight_of_takesSpace ha, tidyFrom]
      | false => cases hta : isTight a <;> simp [ownSpace, ha, tidyFrom, hta]
  | cons c cs ih =>
    obtain ⟨t', ht', heq⟩ := ih (fun d hd => h d (List.mem_cons_of_mem c hd)) c.byte
    refine ⟨t', ht', ?_⟩
    rw [render, List.append_assoc, List.cons_append, tidyFrom_gap (h c (by simp)), heq, settleFrom,
      render]
    simp

/-- Tidying a text settles its cells; at most one space is left over at each end. -/
theorem tidyPunctuation_render {cs : List Cell} (h : ∀ c ∈ cs, isSpace c.byte = false)
    {t : Bytes} (ht : t = [] ∨ t = [space]) :
    ∃ l r, (l = [] ∨ l = [space]) ∧ (r = [] ∨ r = [space]) ∧
      tidyPunctuation (render cs ++ t) = l ++ render (settle cs) ++ r := by
  cases cs with
  | nil =>
    refine ⟨[], tidyPunctuation t, Or.inl rfl, ?_, by simp [render, settle, settleFrom]⟩
    rcases ht with rfl | rfl
    · exact Or.inl rfl
    · exact Or.inr rfl
  | cons c cs =>
    have hne := ne_space_of_isSpace (h c (by simp))
    obtain ⟨r, hr, heq⟩ := tidyFrom_render (fun d hd => h d (List.mem_cons_of_mem c hd)) c.byte ht
    refine ⟨if c.gap && !isTight c.byte then [space] else [], r, ?_, hr, ?_⟩
    · cases c.gap <;> cases isTight c.byte <;> simp
    · rw [tidyPunctuation, settle, settleFrom, render, render, List.append_assoc, List.cons_append]
      cases hg : c.gap with
      | false => simp [tidyFrom_of_ne hne, heq]
      | true =>
        simp only [if_true, List.singleton_append, tidyFrom_space, tidyFrom_of_ne hne, heq]
        cases htc : isTight c.byte <;> simp [htc]

/-! ## Trimming -/

/-- Trimming takes blanks away at both ends of a text that neither starts nor ends with one. -/
theorem trim_append {l m r : Bytes} (hl : ∀ b ∈ l, isSpace b = true)
    (hr : ∀ b ∈ r, isSpace b = true) (hhead : ∀ b ∈ m.head?, isSpace b = false)
    (hlast : ∀ b ∈ m.getLast?, isSpace b = false) : Bytes.trim (l ++ m ++ r) = m := by
  rw [Bytes.trim, List.append_assoc, List.dropWhile_append_of_pos hl]
  cases m with
  | nil =>
    have : r.dropWhile isSpace = [] := List.dropWhile_eq_nil_iff.mpr hr
    simp [this]
  | cons b m =>
    have hb : isSpace b = false := hhead b (by simp)
    rw [List.cons_append, List.dropWhile_cons_of_neg (by simp [hb]), ← List.cons_append,
      List.reverse_append, List.dropWhile_append_of_pos (by simpa using hr)]
    -- the last byte stops the trimming from the right
    have hrev : ((b :: m).reverse.dropWhile isSpace) = (b :: m).reverse := by
      rw [List.dropWhile_eq_self_iff]
      intro hlen
      have hmem : (b :: m).reverse[0] ∈ (b :: m).getLast? := by
        rw [List.getElem_reverse, List.getLast?_eq_getElem?]
        simp
      exact Bool.eq_false_iff.mp (hlast _ hmem)
    rw [hrev, List.reverse_reverse]

/-- Settling keeps the first byte. -/
theorem head?_render_settle (cs : List Cell) :
    (render (settle cs)).head? = cs.head?.map (·.byte) := by
  cases cs <;> simp [settle, settleFrom, render]

/-- The last byte written is that of the last cell. -/
theorem getLast?_render (cs : List Cell) :
    (render cs).getLast? = cs.getLast?.map (·.byte) := by
  induction cs with
  | nil => rfl
  | cons c cs ih =>
    rw [render, List.getLast?_append, Option.or_of_isSome (by simp)]
    cases cs with
    | nil => simp [render]
    | cons d cs =>
      have hne : render (d :: cs) ≠ [] := by simp [render]
      rw [List.getLast?_cons_of_ne_nil hne, ih, List.getLast?_cons_cons]

/-! ## The closed form of layout -/

/-- **Layout in closed form.** The laid out text has the bytes of the text that are no blanks, and
one space for each gap that survives settling. -/
theorem layout_eq (s : Bytes) : layout s = render (settle (cells s)) := by
  have hcells : ∀ c ∈ cells s, isSpace c.byte = false := fun c hc => isSpace_of_mem_cellsFrom hc
  have hblank : ∀ t : Bytes, t = [] ∨ t = [space] → ∀ b ∈ t, isSpace b = true := by
    rintro t (rfl | rfl) b hb
    · simp at hb
    · obtain rfl := List.mem_singleton.mp hb
      decide
  -- collapsing and tidying leave the settled cells between two ends that trimming takes away
  obtain ⟨l, r, hl, hr, heq⟩ := tidyPunctuation_render hcells (lastGap_eq false s)
  rw [layout, collapseBlanks_eq, heq]
  apply trim_append (hblank l hl) (hblank r hr)
  · intro b hb
    rw [head?_render_settle, Option.mem_def, Option.map_eq_some_iff] at hb
    obtain ⟨c, hc, rfl⟩ := hb
    exact hcells c (List.mem_of_mem_head? hc)
  · intro b hb
    rw [getLast?_render, Option.mem_def, Option.map_eq_some_iff] at hb
    obtain ⟨c, hc, rfl⟩ := hb
    exact isSpace_of_mem_settleFrom hcells c (List.mem_of_mem_getLast? hc)

/-- Every byte written is a space or the byte of a cell. -/
theorem mem_render {cs : List Cell} {b : UInt8} (h : b ∈ render cs) :
    b = space ∨ ∃ c ∈ cs, c.byte = b := by
  induction cs with
  | nil => exact absurd h List.not_mem_nil
  | cons c cs ih =>
    rw [render, List.mem_append, List.mem_cons] at h
    rcases h with h | rfl | h
    · left
      split at h
      · exact List.mem_singleton.mp h
      · exact absurd h List.not_mem_nil
    · exact .inr ⟨c, List.mem_cons_self, rfl⟩
    · exact (ih h).imp_right fun ⟨d, hd, hb⟩ => ⟨d, List.mem_cons_of_mem c hd, hb⟩

/-- The space is the only blank in a laid out text. -/
theorem mem_layout {s : Bytes} {b : UInt8} (h : b ∈ layout s) : b = space ∨ isSpace b = false := by
  rw [layout_eq] at h
  refine (mem_render h).imp_right fun ⟨c, hc, hb⟩ => ?_
  rw [← hb]
  exact isSpace_of_mem_settleFrom (fun d hd => isSpace_of_mem_cellsFrom hd) c hc

/-- A laid out text does not end with a blank. -/
theorem isSpace_of_getLast?_layout {s : Bytes} {b : UInt8} (h : (layout s).getLast? = some b) :
    isSpace b = false := by
  rw [layout_eq, getLast?_render, Option.map_eq_some_iff] at h
  obtain ⟨c, hc, rfl⟩ := h
  exact isSpace_of_mem_settleFrom (fun d hd => isSpace_of_mem_cellsFrom hd) c
    (List.mem_of_getLast? hc)

/-- A laid out text has settled cells. -/
theorem cells_layout (s : Bytes) : cells (layout s) = settle (cells s) := by
  rw [layout_eq]
  cases hs : cells s with
  | nil => rfl
  | cons c cs =>
    have hcells : ∀ d ∈ settle (c :: cs), isSpace d.byte = false :=
      isSpace_of_mem_settleFrom fun d hd => isSpace_of_mem_cellsFrom (hs ▸ hd)
    rw [settle, settleFrom] at hcells ⊢
    rw [cells, cellsFrom_render hcells]
    simp

/-- Laying out twice is laying out once. -/
theorem layout_layout (s : Bytes) : layout (layout s) = layout s := by
  rw [layout_eq (layout s), cells_layout, settle, settle, settleFrom_settleFrom, ← settle,
    ← layout_eq]

end SignatureLedger.Normal
