import SignatureLedger.Proofs.Signature.Idempotence

/-!
# Texts that differ in their blanks only

`Alike` says of two texts that they have the same bytes but for blanks, that lines end in both at
the same places, and that blanks part the same bytes in both; how many blanks there are, and which,
is left open, and beside a tight punctuator also whether there are any. Layout does not tell such
texts apart (`Alike.layout_eq`). The relation is kept when the text behind a place is exchanged
(`Alike.behind`), which is what stripping does.
-/

namespace SignatureLedger.Normal

open Byte

/-! ## Runs of blanks -/

/-- Two runs of blanks such that a line ends in both of them or in neither. -/
structure SameRun (r r' : Bytes) : Prop where
  blank : ∀ b ∈ r, isSpace b = true
  blank' : ∀ b ∈ r', isSpace b = true
  line : lineFeed ∈ r ↔ lineFeed ∈ r'

namespace SameRun

variable {r r' u u' : Bytes}

/-- Being the same run does not depend on which run is the first. -/
theorem symm (h : SameRun r r') : SameRun r' r := ⟨h.blank', h.blank, h.line.symm⟩

/-- Runs that are the same stay the same when the same runs are put behind them. -/
theorem append (h : SameRun r r') (h' : SameRun u u') : SameRun (r ++ u) (r' ++ u') where
  blank := fun b hb => (List.mem_append.mp hb).elim (h.blank b) (h'.blank b)
  blank' := fun b hb => (List.mem_append.mp hb).elim (h.blank' b) (h'.blank' b)
  line := by rw [List.mem_append, List.mem_append, h.line, h'.line]

end SameRun

/-- The runs `r` and `r'` part the byte before them from `b`, or both do not; next to a tight
punctuator and at the start of a text this does not matter. -/
def SameGap (p : Option UInt8) (b : UInt8) (r r' : Bytes) : Prop :=
  ∀ a ∈ p, isTight a = false → isTight b = false → (r = [] ↔ r' = [])

/-! ## The relation -/

/-- The texts have the same bytes but for blanks, and the blanks between them differ in nothing that
matters; `p` is the byte before the texts, or none at the start. -/
inductive Alike : Option UInt8 → Bytes → Bytes → Prop
  | done {p : Option UInt8} {r r' : Bytes} (hrun : SameRun r r') : Alike p r r'
  | byte {p : Option UInt8} {r r' s t : Bytes} {b : UInt8} (hrun : SameRun r r')
      (hgap : SameGap p b r r') (hb : isSpace b = false) (hrest : Alike (some b) s t) :
      Alike p (r ++ b :: s) (r' ++ b :: t)

variable {p : Option UInt8} {a b c : UInt8} {r r' s t u v : Bytes}

/-- The same gap is the same gap the other way round. -/
theorem SameGap.symm (h : SameGap p b r r') : SameGap p b r' r :=
  fun a ha hta htb => (h a ha hta htb).symm

/-- Being alike does not depend on which text is the first. -/
theorem Alike.symm (h : Alike p s t) : Alike p t s := by
  induction h with
  | done hrun => exact .done hrun.symm
  | byte hrun hgap hb hrest ih => exact .byte hrun.symm hgap.symm hb ih

/-- No blanks stand before a text that starts with another byte. -/
theorem eq_nil_of_append_eq_cons {w : Bytes} (hr : ∀ b ∈ r, isSpace b = true)
    (hc : isSpace c = false) (h : r ++ w = c :: s) : r = [] := by
  cases r with
  | nil => rfl
  | cons d r =>
    obtain ⟨rfl, -⟩ := List.cons.inj h
    rw [hr d List.mem_cons_self] at hc
    exact absurd hc (by simp)

/-- Behind a byte that is not tight the next one comes at once in both texts, or in neither. -/
theorem Alike.next (h : Alike (some a) s t) (ha : isTight a = false) (htc : isTight c = false)
    (hc : isSpace c = false) (hs : s.head? = some c) :
    t.head? = some c ∧ Alike (some c) s.tail t.tail := by
  cases h with
  | done hrun =>
    have hblank := hrun.blank c (List.mem_of_mem_head? hs)
    rw [hc] at hblank
    exact absurd hblank (by simp)
  | @byte _ r r' s t b hrun hgap hb hrest =>
    obtain ⟨w, hw⟩ := List.head?_eq_some_iff.mp hs
    obtain rfl := eq_nil_of_append_eq_cons hrun.blank hc hw
    obtain ⟨rfl, rfl⟩ := List.cons.inj hw
    obtain rfl : r' = [] := (hgap a rfl ha htc).mp rfl
    exact ⟨rfl, hrest⟩

/-- Where no byte of the pair is tight, texts that are alike start with the same byte of ink. -/
theorem Alike.head?_iff (h : Alike (some a) s t) (ha : isTight a = false) (htc : isTight c = false)
    (hc : isSpace c = false) : s.head? = some c ↔ t.head? = some c :=
  ⟨fun hs => (h.next ha htc hc hs).1, fun ht => (h.symm.next ha htc hc ht).1⟩

/-- A word that no blank parts stands in both texts, or in neither. -/
theorem Alike.word {w : Bytes} (h : Alike (some a) s t) (ha : isTight a = false)
    (hw : ∀ c ∈ w, isTight c = false ∧ isSpace c = false) (hs : w <+: s) :
    w <+: t ∧ ∃ c, isTight c = false ∧ Alike (some c) (s.drop w.length) (t.drop w.length) := by
  induction w generalizing a s t with
  | nil => exact ⟨List.nil_prefix, a, ha, h⟩
  | cons c w ih =>
    obtain ⟨htc, hc⟩ := hw c List.mem_cons_self
    obtain ⟨x, rfl⟩ := hs
    obtain ⟨ht, hrest⟩ := h.next ha htc hc rfl
    obtain ⟨y, rfl⟩ := List.head?_eq_some_iff.mp ht
    obtain ⟨hwt, hbehind⟩ := ih hrest htc (fun d hd => hw d (List.mem_cons_of_mem c hd))
      (List.prefix_append w x)
    exact ⟨List.cons_prefix_cons.mpr ⟨rfl, hwt⟩, hbehind⟩

/-- Behind the blanks at the front the same byte comes next, or both texts are at their ends. -/
theorem Alike.dropBlanks (h : Alike p s t) :
    (s.dropWhile isSpace = [] ∧ t.dropWhile isSpace = []) ∨
      ∃ b s' t', s.dropWhile isSpace = b :: s' ∧ t.dropWhile isSpace = b :: t' ∧
        isSpace b = false ∧ Alike (some b) s' t' := by
  cases h with
  | done hrun =>
    exact .inl ⟨List.dropWhile_eq_nil_iff.mpr hrun.blank, List.dropWhile_eq_nil_iff.mpr hrun.blank'⟩
  | @byte _ r r' s t b hrun hgap hb hrest =>
    refine .inr ⟨b, s, t, ?_, ?_, hb, hrest⟩
    · rw [List.dropWhile_append_of_pos hrun.blank, List.dropWhile_cons_of_neg (by simp [hb])]
    · rw [List.dropWhile_append_of_pos hrun.blank', List.dropWhile_cons_of_neg (by simp [hb])]

/-- **The text behind a place.** If what stood between was held by bytes that are not tight, the
blanks before it and those behind it run together. -/
theorem Alike.behind (h : Alike (some a) u v) (ha : isTight a = false) (hrun : SameRun r r')
    (hgap : ∀ d ∈ p, isTight d = false → (r = [] ↔ r' = [])) : Alike p (r ++ u) (r' ++ v) := by
  cases h with
  | done hrun' => exact .done (hrun.append hrun')
  | @byte _ w w' s t b hrun' hgap' hb hrest =>
    have hboth : SameGap p b (r ++ w) (r' ++ w') := by
      intro d hd htd htb
      rw [List.append_eq_nil_iff, List.append_eq_nil_iff, hgap d hd htd, hgap' a rfl ha htb]
    rw [← List.append_assoc, ← List.append_assoc]
    exact .byte (hrun.append hrun') hboth hb hrest

/-! ## Layout -/

/-- Blanks at the front of a text only set the mark that a gap precedes its first cell. -/
theorem cellsFrom_append_of_blank (hr : ∀ b ∈ r, isSpace b = true) (gap : Bool) (s : Bytes) :
    cellsFrom gap (r ++ s) = cellsFrom (gap || !r.isEmpty) s := by
  induction r generalizing gap with
  | nil => simp
  | cons b r ih =>
    rw [List.cons_append, cellsFrom_of_isSpace (hr b List.mem_cons_self),
      ih fun c hc => hr c (List.mem_cons_of_mem b hc)]
    simp

/-- Settled cells know of a gap only between bytes that are not tight. By induction on the texts,
where a gap counts only if neither byte beside it is tight, and there both texts have one or
neither. -/
theorem Alike.settleFrom_eq (h : Alike p s t) :
    settleFrom p (cellsFrom false s) = settleFrom p (cellsFrom false t) := by
  induction h with
  | @done p r r' hrun =>
    rw [← List.append_nil r, ← List.append_nil r', cellsFrom_append_of_blank hrun.blank,
      cellsFrom_append_of_blank hrun.blank']
    rfl
  | @byte p r r' s t b hrun hgap hb hrest ih =>
    rw [cellsFrom_append_of_blank hrun.blank, cellsFrom_append_of_blank hrun.blank',
      cellsFrom_of_not_isSpace hb, cellsFrom_of_not_isSpace hb, settleFrom, settleFrom, ih]
    have hkeep : p.any (keepsGap · ⟨false || !r.isEmpty, b⟩) =
        p.any (keepsGap · ⟨false || !r'.isEmpty, b⟩) := by
      cases p with
      | none => rfl
      | some a =>
        simp only [Option.any_some, keepsGap, Bool.false_or]
        cases hta : isTight a with
        | true => simp
        | false =>
          cases htb : isTight b with
          | true => simp
          | false =>
            have hempty : r.isEmpty = r'.isEmpty := by
              rw [Bool.eq_iff_iff, List.isEmpty_iff, List.isEmpty_iff]
              exact hgap a rfl hta htb
            rw [hempty]
    rw [hkeep]

/-- **Layout does not tell alike texts apart.** -/
theorem Alike.layout_eq (h : Alike none s t) : layout s = layout t := by
  rw [Normal.layout_eq, Normal.layout_eq, settle, settle, cells, cells, h.settleFrom_eq]

end SignatureLedger.Normal
