import SignatureLedger.Proofs.Signature.Layout
import SignatureLedger.Proofs.Signature.Stripping

/-!
# Normalizing twice

Layout brings no comment and no import together: the bytes of a comment mark and of the word
`import` take no space and are not tight, so layout neither joins nor parts them, and what follows
the word is recognized whatever blanks are in it. Hence layout keeps a clean text clean
(`clean_layout`), and `normalize` is idempotent (`normalize_normalize`).
-/

namespace SignatureLedger.Normal

open Byte

/-! ## Inline imports without their blanks -/

/-- Dropping the run at the front leaves the text from its first other byte on. -/
theorem drop_run (p : UInt8 → Bool) (s : Bytes) : s.drop (Bytes.run p s) = s.dropWhile p := by
  have h : (s.takeWhile p ++ s.dropWhile p).drop (s.takeWhile p).length = s.dropWhile p :=
    List.drop_left
  rwa [List.takeWhile_append_dropWhile] at h

/-- Ink at the front of a text is ink of the text. -/
theorem ink_cons {b : UInt8} (hb : isSpace b = false) (s : Bytes) : ink (b :: s) = b :: ink s := by
  rw [ink, List.filter_cons_of_pos (by simp [hb]), ink]

/-- A blank at the front adds no ink. -/
theorem ink_cons_of_isSpace {b : UInt8} (hb : isSpace b = true) (s : Bytes) :
    ink (b :: s) = ink s := by
  rw [ink, List.filter_cons_of_neg (by simp [hb]), ink]

/-- The blanks at the front add no ink. -/
theorem ink_dropWhile (s : Bytes) : ink (s.dropWhile isSpace) = ink s := by
  induction s with
  | nil => rfl
  | cons b s ih =>
    cases hb : isSpace b with
    | true => rw [List.dropWhile_cons_of_pos hb, ih, ink_cons_of_isSpace hb]
    | false => rw [List.dropWhile_cons_of_neg (by simp [hb])]

/-- What is behind the blanks at the front starts with no blank. -/
theorem isSpace_of_dropWhile_eq_cons {s rest : Bytes} {b : UInt8}
    (h : s.dropWhile isSpace = b :: rest) : isSpace b = false := by
  have := List.head?_dropWhile_not isSpace s
  rwa [h] at this

/-- The first byte behind the blanks at the front. -/
theorem head?_dropWhile_isSpace (s : Bytes) : (s.dropWhile isSpace).head? = (ink s).head? := by
  rw [← ink_dropWhile s]
  cases hs : s.dropWhile isSpace with
  | nil => rfl
  | cons b rest => rw [ink_cons (isSpace_of_dropWhile_eq_cons hs), List.head?_cons, List.head?_cons]

/-- The tail of a module call is there exactly if the ink goes on with a parenthesis and a dot. -/
theorem isSome_importTail?_iff (s : Bytes) :
    (importTail? s).isSome ↔ [closeParen, dot] <+: ink s := by
  rw [importTail?, drop_run, ← ink_dropWhile s]
  cases hs : s.dropWhile isSpace with
  | nil => simp [ink]
  | cons b rest =>
    rw [ink_cons (isSpace_of_dropWhile_eq_cons hs), prefix_pair_iff]
    dsimp only
    rw [drop_run, head?_dropWhile_isSpace]
    split <;> simp_all

/-- The end of an inline import is the nearest quote, bracket and dot, whatever blanks are between
them. -/
theorem isSome_importEnd?_iff {q : UInt8} (hq : isSpace q = false) (s : Bytes) :
    (importEnd? q s).isSome ↔ [q, closeParen, dot] <:+: ink s := by
  induction s with
  | nil => simp [importEnd?, ink]
  | cons b s ih =>
    have hsome : (importEnd? q (b :: s)).isSome ↔
        (b = q ∧ [closeParen, dot] <+: ink s) ∨ (importEnd? q s).isSome := by
      rw [importEnd?, ← isSome_importTail?_iff]
      by_cases hb : b = q
      · cases importTail? s <;> simp [hb]
      · simp [hb]
    rw [hsome, ih]
    cases hb : isSpace b with
    | true =>
      have hne : b ≠ q := by
        rintro rfl
        simp [hb] at hq
      rw [ink_cons_of_isSpace hb]
      simp [hne]
    | false => rw [ink_cons hb, List.infix_cons_iff, List.cons_prefix_cons, eq_comm (a := q)]

/-- The word that an inline import starts with. -/
def importWord : Bytes := [0x69, 0x6D, 0x70, 0x6F, 0x72, 0x74]

/-- The keyword `import` in bytes. -/
theorem bytes_import : bytes "import" = importWord := by decide

/-- The bytes after the word of an inline import, without their blanks. -/
def IsModuleCall (l : Bytes) : Prop :=
  ∃ q r, (q = doubleQuote ∨ q = singleQuote) ∧ l = openParen :: q :: r ∧ [q, closeParen, dot] <:+: r

/-- Neither of the two quotes is a blank. -/
theorem isSpace_of_isQuote {q : UInt8} (hq : q = doubleQuote ∨ q = singleQuote) :
    isSpace q = false := by
  rcases hq with rfl | rfl <;> rfl

/-- A module call, read off its first byte: an opening parenthesis, then a quotation that closes
with a parenthesis and a dot behind it. -/
theorem isModuleCall_cons_iff {b : UInt8} {l : Bytes} :
    IsModuleCall (b :: l) ↔ b = openParen ∧
      ∃ q r, (q = doubleQuote ∨ q = singleQuote) ∧ l = q :: r ∧ [q, closeParen, dot] <:+: r := by
  constructor
  · rintro ⟨q, r, hq, h, hr⟩
    obtain ⟨rfl, rfl⟩ := List.cons.inj h
    exact ⟨rfl, q, r, hq, rfl, hr⟩
  · rintro ⟨rfl, q, r, hq, rfl, hr⟩
    exact ⟨q, r, hq, rfl, hr⟩

/-- An inline import is recognized by its word and by the bytes after it that are no blanks. -/
theorem isSome_importNoise?_append_iff (t : Bytes) :
    (importNoise? (importWord ++ t)).isSome ↔ IsModuleCall (ink t) := by
  have hword : ∀ k, (importWord ++ t).drop (6 + k) = t.drop k := fun k => by
    rw [← List.drop_drop]
    rfl
  have hpre : (bytes "import").isPrefixOf (importWord ++ t) = true := by simp [bytes_import]
  have hnext : t.drop (Bytes.run isSpace t + 1) = (t.dropWhile isSpace).tail := by
    rw [← List.drop_drop, drop_run, List.drop_one]
  simp only [importNoise?, hpre, if_true]
  -- the offsets that are counted from the word become the text behind the blanks
  rw [show (importWord ++ t).drop 6 = t from rfl, Nat.add_assoc 6, hword, hword, drop_run, hnext,
    Nat.add_assoc 6, hword, ← List.drop_drop, hnext, drop_run, ← ink_dropWhile t]
  cases hu : t.dropWhile isSpace with
  | nil => simp [ink, IsModuleCall]
  | cons b v =>
    rw [ink_cons (isSpace_of_dropWhile_eq_cons hu), isModuleCall_cons_iff, List.tail_cons,
      ← ink_dropWhile v]
    by_cases hb : b = openParen
    · rw [if_pos (by rw [hb, List.head?_cons])]
      cases hv : v.dropWhile isSpace with
      | nil => simp [ink]
      | cons q rest =>
        rw [ink_cons (isSpace_of_dropWhile_eq_cons hv)]
        dsimp only
        split
        · rename_i hq
          rw [Option.isSome_map, isSome_importEnd?_iff (isSpace_of_isQuote hq)]
          constructor
          · exact fun h => ⟨hb, q, ink rest, hq, rfl, h⟩
          · rintro ⟨-, q', r, -, heq, h⟩
            obtain ⟨rfl, rfl⟩ := List.cons.inj heq
            exact h
        · rename_i hq
          -- the byte behind the bracket is no quote
          refine iff_of_false (by simp) ?_
          rintro ⟨-, q', r, hq', heq, -⟩
          obtain ⟨rfl, -⟩ := List.cons.inj heq
          exact hq hq'
    · simp [hb]

/-- Noise of an import is found exactly if the word stands there and its ink goes on as a module
call. -/
theorem isSome_importNoise?_iff (s : Bytes) :
    (importNoise? s).isSome ↔ ∃ t, s = importWord ++ t ∧ IsModuleCall (ink t) := by
  by_cases hw : importWord <+: s
  · obtain ⟨t, rfl⟩ := hw
    rw [isSome_importNoise?_append_iff]
    constructor
    · exact fun h => ⟨t, rfl, h⟩
    · rintro ⟨t', ht, h⟩
      rwa [List.append_cancel_left ht]
  · refine iff_of_false ?_ ?_
    · rw [importNoise?, if_neg (by rwa [bytes_import, List.isPrefixOf_iff_prefix])]
      simp
    · rintro ⟨t, rfl, -⟩
      exact hw (List.prefix_append _ _)

/-! ## Words in cells -/

/-- The cells of a word that no blank parts; `gap` says whether blanks stand before it. -/
def spell (gap : Bool) : Bytes → List Cell
  | [] => []
  | b :: w => ⟨gap, b⟩ :: spell false w

/-- The cells start with a word that no blank parts, and the bytes after it satisfy `P`. -/
def Spells (w : Bytes) (P : Bytes → Prop) (cs : List Cell) : Prop :=
  ∃ gap r, cs = spell gap w ++ r ∧ P (r.map (·.byte))

/-- The first cell after blanks has a gap. -/
theorem gap_of_cellsFrom_true {s : Bytes} {c : Cell} {cs : List Cell}
    (h : cellsFrom true s = c :: cs) : c.gap = true := by
  induction s with
  | nil => simp [cellsFrom] at h
  | cons b s ih =>
    cases hb : isSpace b with
    | true => exact ih (cellsFrom_of_isSpace hb true s ▸ h)
    | false =>
      rw [cellsFrom_of_not_isSpace hb] at h
      rw [← (List.cons.inj h).1]

/-- Where a word without blanks starts a text, its cells start the cells of the text. -/
theorem cellsFrom_append_of_word {a : UInt8} {w : Bytes} (hw : ∀ d ∈ a :: w, isSpace d = false)
    (gap : Bool) (s : Bytes) :
    cellsFrom gap (a :: w ++ s) = spell gap (a :: w) ++ cellsFrom false s := by
  induction w generalizing a gap with
  | nil => exact cellsFrom_of_not_isSpace (hw a (by simp)) gap s
  | cons b w ih =>
    rw [List.cons_append, cellsFrom_of_not_isSpace (hw a (by simp)),
      ih (fun d hd => hw d (List.mem_cons_of_mem a hd))]
    rfl

/-- Where the cells of a word start the cells of a text, the word starts the text. -/
theorem exists_of_cellsFrom_eq_spell {a b : UInt8} {w s : Bytes} {gap g : Bool} {r : List Cell}
    (hb : isSpace b = false) (h : cellsFrom gap (b :: s) = spell g (a :: w) ++ r) :
    ∃ t, b :: s = a :: w ++ t ∧ cellsFrom false t = r := by
  induction w generalizing a b s gap g with
  | nil =>
    rw [cellsFrom_of_not_isSpace hb] at h
    obtain ⟨h₁, h₂⟩ := List.cons.inj h
    exact ⟨s, by rw [(Cell.mk.inj h₁).2]; rfl, h₂⟩
  | cons c w ih =>
    rw [cellsFrom_of_not_isSpace hb] at h
    obtain ⟨h₁, h₂⟩ := List.cons.inj h
    obtain rfl : b = a := (Cell.mk.inj h₁).2
    cases s with
    | nil => simp [cellsFrom, spell] at h₂
    | cons d s =>
      cases hd : isSpace d with
      | true =>
        -- a blank inside the word would leave a gap in its cells
        rw [cellsFrom_of_isSpace hd] at h₂
        exact absurd (gap_of_cellsFrom_true h₂) (by simp)
      | false =>
        obtain ⟨t, ht, hr⟩ := ih hd h₂
        exact ⟨t, by rw [ht]; rfl, hr⟩

/-- The cells of a text tell whether it starts with a word, and what follows the word but for its
blanks. -/
theorem spells_cellsFrom_iff {a b : UInt8} {w s : Bytes} {P : Bytes → Prop} {gap : Bool}
    (hw : ∀ d ∈ a :: w, isSpace d = false) (hb : isSpace b = false) :
    Spells (a :: w) P (cellsFrom gap (b :: s)) ↔ ∃ t, b :: s = a :: w ++ t ∧ P (ink t) := by
  constructor
  · rintro ⟨g, r, h, hP⟩
    obtain ⟨t, ht, rfl⟩ := exists_of_cellsFrom_eq_spell hb h
    exact ⟨t, ht, by rwa [map_byte_cellsFrom] at hP⟩
  · rintro ⟨t, ht, hP⟩
    rw [ht, cellsFrom_append_of_word hw]
    exact ⟨gap, cellsFrom false t, rfl, by rwa [map_byte_cellsFrom]⟩

/-- Layout keeps a gap between two bytes that are not tight, and makes none. -/
theorem keepsGap_of_not_isTight {a : UInt8} {c : Cell} (ha : isTight a = false)
    (hc : isTight c.byte = false) : keepsGap a c = c.gap := by
  have hs : takesSpace a = false := by
    cases h : takesSpace a with
    | false => rfl
    | true => exact absurd (isTight_of_takesSpace h) (by simp [ha])
  simp [keepsGap, hs, ha, hc]

/-- Settled cells that start with a word did so before, if no byte of the word and not the byte
before it is tight. -/
theorem exists_of_settleFrom_eq_spell {a : UInt8} {w : Bytes} {cs r : List Cell}
    (ha : isTight a = false) (hw : ∀ b ∈ w, isTight b = false)
    (h : settleFrom (some a) cs = spell false w ++ r) :
    ∃ r' p, cs = spell false w ++ r' ∧ r = settleFrom p r' := by
  induction w generalizing a cs with
  | nil => exact ⟨cs, some a, rfl, h.symm⟩
  | cons b w ih =>
    cases cs with
    | nil => simp [settleFrom, spell] at h
    | cons c cs =>
      obtain ⟨h₁, h₂⟩ := List.cons.inj h
      obtain ⟨hg, hb⟩ := Cell.mk.inj h₁
      have hlb : isTight c.byte = false := hb ▸ hw b (by simp)
      rw [Option.any_some, keepsGap_of_not_isTight ha hlb] at hg
      obtain ⟨r', p, rfl, hr⟩ := ih hlb (fun d hd => hw d (List.mem_cons_of_mem b hd)) h₂
      refine ⟨r', p, ?_, hr⟩
      rw [spell, List.cons_append, ← hg, ← hb]

/-- Layout brings no word together that has no tight byte. -/
theorem Spells.of_settleFrom {p : Option UInt8} {a : UInt8} {w : Bytes} {P : Bytes → Prop}
    {cs : List Cell} (hw : ∀ b ∈ a :: w, isTight b = false)
    (h : Spells (a :: w) P (settleFrom p cs)) :
    Spells (a :: w) P cs := by
  obtain ⟨g, r, h, hP⟩ := h
  cases cs with
  | nil => simp [settleFrom, spell] at h
  | cons c cs =>
    obtain ⟨h₁, h₂⟩ := List.cons.inj h
    have hc : c.byte = a := (Cell.mk.inj h₁).2
    rw [hc] at h₂
    obtain ⟨r', q, rfl, rfl⟩ := exists_of_settleFrom_eq_spell (hw a (by simp))
      (fun b hb => hw b (List.mem_cons_of_mem a hb)) h₂
    refine ⟨c.gap, r', ?_, ?_⟩
    · rw [spell, List.cons_append, ← hc]
    · rwa [map_byte_settleFrom] at hP

/-! ## Clean cells -/

/-- A comment or an inline import starts at the first of these cells. -/
def StartsNoiseCells (cs : List Cell) : Prop :=
  Spells [slash, star] (fun _ => True) cs ∨ Spells [slash, slash] (fun _ => True) cs ∨
    Spells importWord IsModuleCall cs

/-- No suffix of the cells starts with noise. -/
def CleanCells (cs : List Cell) : Prop := ∀ ds, ds <:+ cs → ¬ StartsNoiseCells ds

/-- A text starts with noise exactly if its cells do, behind whatever gap. -/
theorem startsNoiseCells_cellsFrom_iff {b : UInt8} {s : Bytes} (hb : isSpace b = false)
    (gap : Bool) :
    StartsNoiseCells (cellsFrom gap (b :: s)) ↔ StartsNoise (b :: s) := by
  rw [StartsNoiseCells, StartsNoise, isSome_importNoise?_iff,
    spells_cellsFrom_iff (by decide +kernel) hb, spells_cellsFrom_iff (by decide +kernel) hb,
    importWord, spells_cellsFrom_iff (by decide +kernel) hb]
  simp only [and_true, List.IsPrefix, eq_comm]

/-- No noise starts with a blank. -/
theorem not_startsNoise_of_isSpace {b : UInt8} (hb : isSpace b = true) (s : Bytes) :
    ¬ StartsNoise (b :: s) := by
  rintro (h | h | h)
  · rw [(prefix_pair_iff.mp h).1] at hb
    exact absurd hb (by decide)
  · rw [(prefix_pair_iff.mp h).1] at hb
    exact absurd hb (by decide)
  · obtain ⟨t, ht, -⟩ := (isSome_importNoise?_iff _).mp h
    rw [(List.cons.inj ht).1] at hb
    exact absurd hb (by decide)

/-- A text is clean when its cells are. -/
theorem cleanCells_cellsFrom_iff (gap : Bool) (s : Bytes) :
    CleanCells (cellsFrom gap s) ↔ Clean s := by
  induction s generalizing gap with
  | nil =>
    refine iff_of_true ?_ ?_
    · rintro ds hds (⟨g, r, rfl, -⟩ | ⟨g, r, rfl, -⟩ | ⟨g, r, rfl, -⟩) <;>
        simp [cellsFrom, spell, importWord] at hds
    · intro u hu
      obtain rfl := List.suffix_nil.mp hu
      simp [StartsNoise, importNoise?_nil]
  | cons b s ih =>
    rw [Clean, forall_suffix_cons_iff, ← Clean]
    -- no noise starts at a blank; elsewhere it starts in the text where it starts in the cells
    cases hb : isSpace b with
    | true =>
      rw [cellsFrom_of_isSpace hb, ih, and_iff_right (not_startsNoise_of_isSpace hb s)]
    | false =>
      rw [← ih false, ← startsNoiseCells_cellsFrom_iff hb gap, cellsFrom_of_not_isSpace hb]
      exact forall_suffix_cons_iff

/-- Every suffix of the settled cells is what a suffix of the cells settles to. -/
theorem suffix_settleFrom {p : Option UInt8} {ds cs : List Cell} (h : ds <:+ settleFrom p cs) :
    ∃ q es, es <:+ cs ∧ ds = settleFrom q es := by
  induction cs generalizing p with
  | nil => exact ⟨p, [], List.suffix_refl _, List.suffix_nil.mp h⟩
  | cons c cs ih =>
    rcases List.suffix_cons_iff.mp h with rfl | h
    · exact ⟨p, c :: cs, List.suffix_refl _, rfl⟩
    · obtain ⟨q, es, hes, rfl⟩ := ih h
      exact ⟨q, es, hes.trans (List.suffix_cons c cs), rfl⟩

/-- Settling the cells of a clean text makes no noise. -/
theorem CleanCells.settleFrom {cs : List Cell} (h : CleanCells cs) (p : Option UInt8) :
    CleanCells (settleFrom p cs) := by
  intro ds hds hnoise
  obtain ⟨q, es, hes, rfl⟩ := suffix_settleFrom hds
  refine h es hes ?_
  rcases hnoise with hn | hn | hn
  · exact Or.inl (hn.of_settleFrom (by decide +kernel))
  · exact Or.inr (Or.inl (hn.of_settleFrom (by decide +kernel)))
  · exact Or.inr (Or.inr (hn.of_settleFrom (by decide +kernel)))

/-! ## The main result -/

/-- **Layout keeps a clean text clean.** -/
theorem clean_layout {s : Bytes} (h : Clean s) : Clean (layout s) := by
  rw [← cleanCells_cellsFrom_iff false, ← cells, cells_layout, settle]
  exact ((cleanCells_cellsFrom_iff false s).mpr h).settleFrom none

/-- **Normalizing is idempotent.** What the phases leave is clean, laying it out keeps it clean, and the
layout of a layout is the layout itself; so a second round finds nothing to do. -/
theorem normalize_normalize (s : Bytes) : normalize (normalize s) = normalize s := by
  rw [normalize_eq s, normalize_eq, strip_of_clean (clean_layout (clean_strip s)), layout_layout]

end SignatureLedger.Normal
