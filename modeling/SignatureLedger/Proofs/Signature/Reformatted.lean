import SignatureLedger.Proofs.Signature.Formatting

/-!
# Reformatted texts

A text is cut into the bytes that are no blanks and the runs of blanks around them (`runs`). Of two
texts with the same bytes the normal forms are equal, if lines end in the same runs and if between
bytes that are not tight the same runs are empty (`normalize_eq_of_reformatted`).
-/

namespace SignatureLedger.Normal

open Byte

/-- The maximal runs of blanks, empty ones among them: one before every byte that is no blank, and
one behind the last of these bytes. -/
def runs : Bytes → List Bytes
  | [] => [[]]
  | b :: s =>
    if isSpace b then
      match runs s with
      | r :: rs => (b :: r) :: rs
      | [] => [[b]]
    else [] :: runs s

/-- The run number `i`, the one at the start of the text first. -/
def runAt (s : Bytes) (i : Nat) : Bytes := (runs s).getD i []

/-- A text is one run of blanks, or it has a first run, then a byte, and then the text behind it. -/
theorem runs_cases (s : Bytes) :
    ((∀ b ∈ s, isSpace b = true) ∧ runs s = [s] ∧ ink s = []) ∨
      ∃ r b s', (∀ c ∈ r, isSpace c = true) ∧ isSpace b = false ∧ s = r ++ b :: s' ∧
        runs s = r :: runs s' ∧ ink s = b :: ink s' := by
  induction s with
  | nil => exact .inl ⟨by simp, rfl, rfl⟩
  | cons b s ih =>
    cases hb : isSpace b with
    | false => exact .inr ⟨[], b, s, by simp, hb, rfl, by simp [runs, hb], ink_cons hb s⟩
    | true =>
      rcases ih with ⟨hs, hruns, hink⟩ | ⟨r, c, s', hr, hc, rfl, hruns, hink⟩
      · left
        refine ⟨?_, by simp [runs, hb, hruns], by rw [ink_cons_of_isSpace hb, hink]⟩
        intro c hc
        rcases List.mem_cons.mp hc with rfl | hc
        · exact hb
        · exact hs c hc
      · right
        refine ⟨b :: r, c, s', ?_, hc, rfl, by simp [runs, hb, hruns],
          by rw [ink_cons_of_isSpace hb, hink]⟩
        intro d hd
        rcases List.mem_cons.mp hd with rfl | hd
        · exact hb
        · exact hr d hd

/-- The bytes number `i` and `i + 1` are both there, and neither is tight. -/
def bothLoose (w : Bytes) (i : Nat) : Bool := w[i]?.any (!isTight ·) && w[i + 1]?.any (!isTight ·)

/-- The byte in front only shifts the places between bytes. -/
theorem bothLoose_cons_succ (b : UInt8) (w : Bytes) (i : Nat) :
    bothLoose (b :: w) (i + 1) = bothLoose w i := by
  simp only [bothLoose, List.getElem?_cons_succ]

/-- Between two bytes that are not tight lies a loose place. -/
theorem bothLoose_zero {a b : UInt8} {w : Bytes} (ha : isTight a = false) (hb : isTight b = false)
    (hw : w.head? = some b) : bothLoose (a :: w) 0 = true := by
  simp [bothLoose, ← List.head?_eq_getElem?, hw, ha, hb]

/-- The texts have the same bytes but for blanks, lines end in the same runs of blanks, and between
two bytes that are not tight both texts have blanks or neither has. -/
structure Reformatted (s t : Bytes) : Prop where
  ink : ink s = ink t
  lines : ∀ i ≤ (Normal.ink s).length, (lineFeed ∈ runAt s i ↔ lineFeed ∈ runAt t i)
  gaps : ∀ i < (Normal.ink s).length, bothLoose (Normal.ink s) i = true →
    (runAt s (i + 1) = [] ↔ runAt t (i + 1) = [])

instance (s t : Bytes) : Decidable (Reformatted s t) :=
  decidable_of_iff
    (ink s = ink t ∧
      (∀ i ≤ (ink s).length, (lineFeed ∈ runAt s i ↔ lineFeed ∈ runAt t i)) ∧
      ∀ i < (ink s).length, bothLoose (ink s) i = true →
        (runAt s (i + 1) = [] ↔ runAt t (i + 1) = []))
    ⟨fun ⟨hink, hlines, hgaps⟩ => ⟨hink, hlines, hgaps⟩,
      fun ⟨hink, hlines, hgaps⟩ => ⟨hink, hlines, hgaps⟩⟩

namespace Reformatted

variable {p : Option UInt8} {b : UInt8} {r r' s s' t t' : Bytes}

/-- The first run of the text is the one before its first byte of ink. -/
theorem runAt_zero (h : runs s = r :: runs t) : runAt s 0 = r := by
  rw [runAt, h, List.getD_cons_zero]

/-- Every later run is a run of the rest. -/
theorem runAt_succ (h : runs s = r :: runs t) (i : Nat) : runAt s (i + 1) = runAt t i := by
  rw [runAt, h, List.getD_cons_succ, runAt]

/-- Behind the first byte. -/
theorem tail (h : Reformatted s t) (hs : runs s = r :: runs s') (ht : runs t = r' :: runs t')
    (his : Normal.ink s = b :: Normal.ink s') (hit : Normal.ink t = b :: Normal.ink t') :
    Reformatted s' t' where
  ink := (List.cons.inj (his.symm.trans (h.ink.trans hit))).2
  lines := by
    intro i hi
    have := h.lines (i + 1) (by rw [his, List.length_cons]; omega)
    rwa [runAt_succ hs, runAt_succ ht] at this
  gaps := by
    intro i hi hloose
    have := h.gaps (i + 1) (by rw [his, List.length_cons]; omega)
      (by rwa [his, bothLoose_cons_succ])
    rwa [runAt_succ hs, runAt_succ ht] at this

/-- The gap behind the first byte. -/
theorem sameGap (h : Reformatted s t) (hs : runs s = r :: runs s') (ht : runs t = r' :: runs t')
    (his : Normal.ink s = b :: Normal.ink s') :
    ∀ c ∈ (Normal.ink s').head?, SameGap (some b) c (runAt s' 0) (runAt t' 0) := by
  intro c hc a ha hta htc
  obtain rfl := Option.some.inj ha
  have := h.gaps 0 (by rw [his]; simp) (by rw [his]; exact bothLoose_zero hta htc hc)
  rwa [runAt_succ hs, runAt_succ ht] at this

/-- Reformatted texts are alike: the induction goes byte by byte, and a byte's gap is known before
its turn comes. -/
theorem alike (h : Reformatted s t)
    (hfirst : ∀ b ∈ (Normal.ink s).head?, SameGap p b (runAt s 0) (runAt t 0)) : Alike p s t := by
  induction hw : Normal.ink s generalizing p s t with
  | nil =>
    rcases runs_cases s with ⟨hs, hruns, -⟩ | ⟨-, b, s', -, -, -, -, hink⟩
    · rcases runs_cases t with ⟨ht, hrunt, -⟩ | ⟨-, c, t', -, -, -, -, hink⟩
      · have hline := h.lines 0 (Nat.zero_le _)
        simp only [runAt, hruns, hrunt, List.getD_cons_zero] at hline
        exact .done ⟨hs, ht, hline⟩
      · exact absurd (hink.symm.trans (h.ink.symm.trans hw)) (by simp)
    · exact absurd (hink.symm.trans hw) (by simp)
  | cons b w ih =>
    rcases runs_cases s with ⟨-, -, hink⟩ | ⟨r, b', s', hr, hb, hs, hruns, his⟩
    · exact absurd (hink.symm.trans hw) (by simp)
    · obtain ⟨rfl, rfl⟩ := List.cons.inj (his.symm.trans hw)
      rcases runs_cases t with ⟨-, -, hink⟩ | ⟨r', c, t', hr', -, ht, hrunt, hit⟩
      · exact absurd (hink.symm.trans (h.ink.symm.trans hw)) (by simp)
      · obtain ⟨rfl, -⟩ := List.cons.inj (hit.symm.trans (h.ink.symm.trans his))
        have hline := h.lines 0 (Nat.zero_le _)
        have hgap := hfirst c (by rw [his]; rfl)
        rw [runAt_zero hruns, runAt_zero hrunt] at hline hgap
        rw [hs, ht]
        exact .byte ⟨hr, hr', hline⟩ hgap hb
          (ih (h.tail hruns hrunt his hit) (h.sameGap hruns hrunt his) rfl)

end Reformatted

/-- **Formatting does not matter.** Reformatted texts have one normal form: their phases cut the same
noise, and what is left differs in its runs of blanks only, none of which is there in one text and
missing in the other between two bytes that are not tight. -/
theorem normalize_eq_of_reformatted {s t : Bytes} (h : Reformatted s t) :
    normalize s = normalize t :=
  (h.alike fun _ _ _ ha => absurd ha (by simp)).normalize_eq

/-- Blanks in comments, in an import and around both. -/
theorem normalize_eq_of_reformatted_sample :
    Reformatted (bytes "a /* x y */ :import('./m').T // e\nb [ ]")
        (bytes "\ta\t/*  x y\t*/: import ( './m' ) .T  // e \r\n b[]  ") ∧
      normalize (bytes "a /* x y */ :import('./m').T // e\nb [ ]") =
        normalize (bytes "\ta\t/*  x y\t*/: import ( './m' ) .T  // e \r\n b[]  ") := by
  have h : Reformatted (bytes "a /* x y */ :import('./m').T // e\nb [ ]")
      (bytes "\ta\t/*  x y\t*/: import ( './m' ) .T  // e \r\n b[]  ") := by
    decide +kernel
  exact ⟨h, normalize_eq_of_reformatted h⟩

end SignatureLedger.Normal
