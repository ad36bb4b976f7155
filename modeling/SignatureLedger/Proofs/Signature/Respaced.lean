import SignatureLedger.Proofs.Signature.Reformatted

/-!
# What layout forgets

Layout can be read back: from a laid out text its settled cells are recovered, and these know every
byte that is no blank and every gap between bytes that are not tight. So two texts are laid out the
same exactly if they are respaced (`layout_eq_iff`), and a text without comments and inline imports
loses nothing but its layout when it is normalized (`normalize_eq_iff_of_unstripped`).
-/

namespace SignatureLedger.Normal

open Byte

/-- The texts have the same bytes but for blanks, and between two bytes that are not tight both
texts have blanks or neither has. -/
structure Respaced (s t : Bytes) : Prop where
  ink : ink s = ink t
  gaps : ∀ i < (Normal.ink s).length, bothLoose (Normal.ink s) i = true →
    (runAt s (i + 1) = [] ↔ runAt t (i + 1) = [])

instance (s t : Bytes) : Decidable (Respaced s t) :=
  decidable_of_iff
    (ink s = ink t ∧
      ∀ i < (ink s).length, bothLoose (ink s) i = true →
        (runAt s (i + 1) = [] ↔ runAt t (i + 1) = []))
    ⟨fun ⟨hink, hgaps⟩ => ⟨hink, hgaps⟩, fun ⟨hink, hgaps⟩ => ⟨hink, hgaps⟩⟩

variable {p : Option UInt8} {a b c : UInt8} {r r' s s' t t' : Bytes}

/-! ## Gaps that settling keeps -/

/-- Of two cells with the same byte, settling tells the gaps apart if neither this byte nor the one
before it is tight. -/
theorem keepsGap_eq_iff (a b : UInt8) (g g' : Bool) :
    keepsGap a ⟨g, b⟩ = keepsGap a ⟨g', b⟩ ↔ (isTight a = false → isTight b = false → g = g') := by
  cases hs : takesSpace a with
  | true => simp [keepsGap, hs, isTight_of_takesSpace hs]
  | false => cases ha : isTight a <;> cases hb : isTight b <;> simp [keepsGap, hs, ha, hb]

/-- Settled cells agree if the first ones do and those behind them do. -/
theorem settleFrom_cons_eq_iff {g g' : Bool} {cs ds : List Cell} :
    settleFrom p (⟨g, b⟩ :: cs) = settleFrom p (⟨g', c⟩ :: ds) ↔
      b = c ∧ (∀ a ∈ p, isTight a = false → isTight b = false → g = g') ∧
        settleFrom (some b) cs = settleFrom (some b) ds := by
  rw [settleFrom, settleFrom, List.cons.injEq, Cell.mk.injEq]
  constructor
  · rintro ⟨⟨hgap, rfl⟩, hrest⟩
    refine ⟨rfl, ?_, hrest⟩
    rintro a rfl
    exact (keepsGap_eq_iff a b g g').mp hgap
  · rintro ⟨rfl, hgap, hrest⟩
    refine ⟨⟨?_, rfl⟩, hrest⟩
    cases p with
    | none => rfl
    | some a => exact (keepsGap_eq_iff a b g g').mpr (hgap a rfl)

/-! ## Runs and cells -/

/-- A text of blanks has no cells. -/
theorem cellsFrom_of_blank (hs : ∀ b ∈ s, isSpace b = true) (gap : Bool) :
    cellsFrom gap s = [] := by
  rw [← List.append_nil s, cellsFrom_append_of_blank hs]
  rfl

/-- The first cell behind a run of blanks. -/
theorem cellsFrom_run (hr : ∀ b ∈ r, isSpace b = true) (hb : isSpace b = false) (s : Bytes) :
    cellsFrom false (r ++ b :: s) = ⟨!r.isEmpty, b⟩ :: cellsFrom false s := by
  rw [cellsFrom_append_of_blank hr, cellsFrom_of_not_isSpace hb, Bool.false_or]

/-- Respaced texts start with the same byte, and what is behind it is respaced. The gap behind that
byte counts only where neither byte beside it is tight. -/
theorem respaced_cons_iff (hs : runs s = r :: runs s') (ht : runs t = r' :: runs t')
    (his : ink s = b :: ink s') (hit : ink t = c :: ink t') :
    Respaced s t ↔ b = c ∧ Respaced s' t' ∧
      ∀ d ∈ (ink s').head?, SameGap (some b) d (runAt s' 0) (runAt t' 0) := by
  have hrun : ∀ i, runAt s (i + 1) = runAt s' i := Reformatted.runAt_succ hs
  have hrun' : ∀ i, runAt t (i + 1) = runAt t' i := Reformatted.runAt_succ ht
  constructor
  · intro h
    obtain ⟨hbc, hink⟩ := List.cons.inj (his.symm.trans (h.ink.trans hit))
    refine ⟨hbc, ⟨hink, fun i hi hloose => ?_⟩, fun d hd a ha hta htd => ?_⟩
    · rw [← hrun, ← hrun']
      refine h.gaps (i + 1) (by rw [his, List.length_cons]; omega) ?_
      rwa [his, bothLoose_cons_succ]
    · obtain rfl := Option.some.inj ha
      rw [← hrun, ← hrun']
      refine h.gaps 0 (by rw [his]; simp) ?_
      rw [his]
      exact bothLoose_zero hta htd hd
  · rintro ⟨rfl, h, hfirst⟩
    refine ⟨by rw [his, hit, h.ink], fun i hi hloose => ?_⟩
    rw [hrun, hrun']
    rw [his] at hi hloose
    -- the first gap is behind the first byte, and the others are gaps of the rest
    cases i with
    | zero =>
      simp only [bothLoose, Bool.and_eq_true, List.getElem?_cons_zero, List.getElem?_cons_succ,
        Option.any_some, Option.any_eq_true, Bool.not_eq_true'] at hloose
      obtain ⟨hb, d, hd, htd⟩ := hloose
      exact hfirst d (by rw [List.head?_eq_getElem?]; exact hd) b rfl hb htd
    | succ i =>
      rw [bothLoose_cons_succ] at hloose
      exact h.gaps i (by rw [List.length_cons] at hi; omega) hloose

/-! ## Layout -/

/-- Settled cells tell respaced texts from all others; the gap before the texts is compared if there
is a byte before it. -/
theorem settleFrom_eq_iff : settleFrom p (cellsFrom false s) = settleFrom p (cellsFrom false t) ↔
    Respaced s t ∧ ∀ b ∈ (ink s).head?, SameGap p b (runAt s 0) (runAt t 0) := by
  -- byte by byte, where the gap before a byte is compared with the byte
  induction hw : ink s generalizing p s t with
  | nil =>
    rcases runs_cases s with ⟨hs, -, -⟩ | ⟨-, b, s', -, -, -, -, his⟩
    · rcases runs_cases t with ⟨ht, -, hit⟩ | ⟨r', c, t', hr', hc, ht, -, hit⟩
      · rw [cellsFrom_of_blank hs, cellsFrom_of_blank ht]
        refine iff_of_true rfl ⟨⟨hw.trans hit.symm, fun i hi => ?_⟩, by simp⟩
        exact absurd hi (by simp [hw])
      · rw [cellsFrom_of_blank hs, ht, cellsFrom_run hr' hc]
        refine iff_of_false (by simp [settleFrom]) fun h => ?_
        exact absurd (hw.symm.trans (h.1.ink.trans (ht ▸ hit))) (by simp)
    · exact absurd (his.symm.trans hw) (by simp)
  | cons b w ih =>
    rcases runs_cases s with ⟨-, -, hink⟩ | ⟨r, b', s', hr, hb, hs, hruns, his⟩
    · exact absurd (hink.symm.trans hw) (by simp)
    · obtain ⟨rfl, rfl⟩ := List.cons.inj (his.symm.trans hw)
      rcases runs_cases t with ⟨ht, -, hit⟩ | ⟨r', c, t', hr', hc, ht, hrunt, hit⟩
      · rw [cellsFrom_of_blank ht, hs, cellsFrom_run hr hb]
        refine iff_of_false (by simp [settleFrom]) fun h => ?_
        exact absurd (his.symm.trans ((hs ▸ h.1.ink).trans hit)) (by simp)
      · have hgap : (∀ a ∈ p, isTight a = false → isTight b' = false →
            (!r.isEmpty) = !r'.isEmpty) ↔ SameGap p b' (runAt s 0) (runAt t 0) := by
          have hempty : ((!r.isEmpty) = !r'.isEmpty) ↔ (r = [] ↔ r' = []) := by
            cases r <;> cases r' <;> simp
          rw [Reformatted.runAt_zero hruns, Reformatted.runAt_zero hrunt, SameGap, hempty]
        rw [respaced_cons_iff hruns hrunt his hit, hs, ht, cellsFrom_run hr hb,
          cellsFrom_run hr' hc, settleFrom_cons_eq_iff, ih rfl, ← hs, ← ht, hgap]
        simp only [List.head?_cons, Option.mem_some_iff, forall_eq']
        tauto

/-- Two texts settle to the same cells exactly if they differ in their blanks only as allowed. -/
theorem settle_cells_eq_iff : settle (cells s) = settle (cells t) ↔ Respaced s t := by
  have hfirst : ∀ b ∈ (ink s).head?, SameGap none b (runAt s 0) (runAt t 0) :=
    fun _ _ _ ha => absurd ha (by simp)
  rw [settle, settle, cells, cells, settleFrom_eq_iff, and_iff_left hfirst]

/-- **What layout forgets.** Two texts are laid out the same exactly if they are respaced. -/
theorem layout_eq_iff : layout s = layout t ↔ Respaced s t := by
  rw [← settle_cells_eq_iff]
  constructor
  · intro h
    rw [← cells_layout, h, cells_layout]
  · intro h
    rw [layout_eq, layout_eq, h]

/-- Two texts have one normal form exactly if what stripping leaves of them is respaced. -/
theorem normalize_eq_iff : normalize s = normalize t ↔ Respaced (strip s) (strip t) := by
  rw [normalize_eq, normalize_eq, layout_eq_iff]

/-! ## Parts of a text -/

/-- What stands before a byte that is no blank is settled without regard to what stands behind. -/
theorem settleFrom_cellsFrom_append (hb : isSpace b = false) (gap : Bool) (s t : Bytes) :
    settleFrom p (cellsFrom gap (s ++ b :: t)) =
      settleFrom p (cellsFrom gap (s ++ [b])) ++ settleFrom (some b) (cellsFrom false t) := by
  induction s generalizing p gap with
  | nil =>
    rw [List.nil_append, List.nil_append, cellsFrom_of_not_isSpace hb, cellsFrom_of_not_isSpace hb]
    rfl
  | cons c s ih =>
    rw [List.cons_append, List.cons_append]
    cases hc : isSpace c with
    | true => rw [cellsFrom_of_isSpace hc, cellsFrom_of_isSpace hc, ih]
    | false =>
      rw [cellsFrom_of_not_isSpace hc, cellsFrom_of_not_isSpace hc, settleFrom, settleFrom, ih,
        List.cons_append]

/-- A common end that starts with no blank may be left out but for its first byte. -/
theorem respaced_append_right_iff (hb : isSpace b = false) (r : Bytes) :
    Respaced (s ++ b :: r) (t ++ b :: r) ↔ Respaced (s ++ [b]) (t ++ [b]) := by
  rw [← settle_cells_eq_iff, ← settle_cells_eq_iff, settle, settle, cells, cells,
    settleFrom_cellsFrom_append hb false s, settleFrom_cellsFrom_append hb false t,
    List.append_cancel_right_eq]
  rfl

/-- A common start that ends with no blank may be left out but for its last byte. -/
theorem respaced_append_left_iff (hb : isSpace b = false) (r : Bytes) :
    Respaced (r ++ b :: s) (r ++ b :: t) ↔ Respaced (b :: s) (b :: t) := by
  have hbehind : ∀ r : Bytes, Respaced (r ++ b :: s) (r ++ b :: t) ↔
      settleFrom (some b) (cellsFrom false s) = settleFrom (some b) (cellsFrom false t) := by
    intro r
    rw [← settle_cells_eq_iff, settle, settle, cells, cells,
      settleFrom_cellsFrom_append hb false r s, settleFrom_cellsFrom_append hb false r t,
      List.append_cancel_left_eq]
  exact (hbehind r).trans (hbehind []).symm

/-! ## Texts that stripping does not change -/

/-- **Normalizing forgets only formatting.** Two texts that none of the stripping passes changes
have one normal form exactly if they have the same bytes but for blanks, and between two bytes that
are not tight both have blanks or neither has. -/
theorem normalize_eq_iff_of_unstripped
    (hs : stripBlockComments s = s ∧ stripLineComments s = s ∧ stripImports s = s)
    (ht : stripBlockComments t = t ∧ stripLineComments t = t ∧ stripImports t = t) :
    normalize s = normalize t ↔
      ink s = ink t ∧
        ∀ i < (ink s).length, bothLoose (ink s) i = true →
          (runAt s (i + 1) = [] ↔ runAt t (i + 1) = []) := by
  have hclean : ∀ {u : Bytes}, stripBlockComments u = u ∧ stripLineComments u = u ∧
      stripImports u = u → strip u = u := fun {u} hu =>
    strip_of_clean ((stripOnce_eq_self_iff u).mp ((stripOnce_eq_self_iff_passes u).mpr hu))
  rw [normalize_eq_iff, hclean hs, hclean ht]
  exact ⟨fun h => ⟨h.ink, h.gaps⟩, fun ⟨hink, hgaps⟩ => ⟨hink, hgaps⟩⟩

namespace RespacedSample

/-- A sample signature with many blanks. -/
def wide : Bytes := bytes "f ( x :\ta b )/ 2;"

/-- The same signature with others. -/
def narrow : Bytes := bytes " f(x:a  b)/\n2 ;\n"

end RespacedSample

open RespacedSample in
/-- Blanks beside punctuators and at the ends are forgotten; how long the blank in `a b` is, too,
but not that there is one. -/
theorem normalize_eq_iff_of_unstripped_sample :
    (stripBlockComments wide = wide ∧ stripLineComments wide = wide ∧ stripImports wide = wide) ∧
      (stripBlockComments narrow = narrow ∧ stripLineComments narrow = narrow ∧
        stripImports narrow = narrow) ∧
      normalize wide = normalize narrow ∧ ink wide = ink narrow ∧
        ∀ i < (ink wide).length, bothLoose (ink wide) i = true →
          (runAt wide (i + 1) = [] ↔ runAt narrow (i + 1) = []) := by
  have hs : stripBlockComments wide = wide ∧ stripLineComments wide = wide ∧
      stripImports wide = wide := by
    decide +kernel
  have ht : stripBlockComments narrow = narrow ∧ stripLineComments narrow = narrow ∧
      stripImports narrow = narrow := by
    decide +kernel
  have h : normalize wide = normalize narrow := by decide +kernel
  exact ⟨hs, ht, h, (normalize_eq_iff_of_unstripped hs ht).mp h⟩

end SignatureLedger.Normal
