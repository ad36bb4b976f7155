import SignatureLedger.Proofs.Signature.Alike

/-!
# Texts that can be exchanged

A signature text is put together from stretches of the source. Two stretches are akin if one can
stand for the other before any texts that are alike (`Akin`); such stretches can be joined, and what
is joined from akin parts is akin. A stretch that ends before a tight punctuator may have blanks at
its end (`NearlyAkin`), which matter as little.
-/

namespace SignatureLedger.Normal

open Byte

variable {p : Option UInt8} {a b c : UInt8} {g g' r r' s t u v w x y : Bytes}

/-! ## One more byte in front -/

/-- A run of blanks is the same run as itself. -/
theorem SameRun.refl (hr : ∀ b ∈ r, isSpace b = true) : SameRun r r := ⟨hr, hr, Iff.rfl⟩

theorem SameRun.nil : SameRun [] [] := ⟨by simp, by simp, Iff.rfl⟩

/-- The texts are alike whatever stands before them. -/
def AlikeAnywhere (u v : Bytes) : Prop := ∀ p, Alike p u v

/-- Two texts that are alike behind a byte of ink are alike with it in front, whatever stands
before. -/
theorem Alike.cons (hb : isSpace b = false) (h : Alike (some b) u v) :
    Alike p (b :: u) (b :: v) := by
  show Alike p ([] ++ b :: u) ([] ++ b :: v)
  exact .byte .nil (fun _ _ _ _ => Iff.rfl) hb h

/-- Behind blanks in both texts the byte before does not matter. -/
theorem Alike.append_blanks {q : Option UInt8} (hrun : SameRun g g') (hne : g ≠ []) (hne' : g' ≠ [])
    (h : Alike q u v) : Alike p (g ++ u) (g' ++ v) := by
  cases h with
  | done hrun' => exact .done (hrun.append hrun')
  | byte hrun' hgap hb hrest =>
    rw [← List.append_assoc, ← List.append_assoc]
    exact .byte (hrun.append hrun') (fun _ _ _ _ => by simp [hne, hne']) hb hrest

/-! ## Akin texts -/

/-- Before texts that are alike one can stand for the other. -/
def Akin (s t : Bytes) : Prop := ∀ u v, AlikeAnywhere u v → AlikeAnywhere (s ++ u) (t ++ v)

/-- The empty text is alike to itself in every place. -/
theorem AlikeAnywhere.nil : AlikeAnywhere [] [] := fun _ => .done .nil

/-- A byte in front of both texts keeps them alike in every place. -/
theorem AlikeAnywhere.cons (h : AlikeAnywhere u v) (b : UInt8) :
    AlikeAnywhere (b :: u) (b :: v) := by
  intro p
  cases hb : isSpace b with
  | true =>
    have hrun : SameRun [b] [b] := .refl fun c hc => by rwa [List.mem_singleton.mp hc]
    exact (h p).append_blanks hrun (by simp) (by simp)
  | false => exact (h (some b)).cons hb

namespace Akin

/-- Every text is akin to itself. -/
theorem refl (s : Bytes) : Akin s s := by
  intro u v h
  induction s with
  | nil => exact h
  | cons b s ih => exact ih.cons b

/-- Texts put together from akin parts are akin: the blanks at the seam only add to the runs. -/
theorem append (h : Akin s t) (h' : Akin x y) : Akin (s ++ x) (t ++ y) := by
  intro u v huv
  rw [List.append_assoc, List.append_assoc]
  exact h _ _ (h' u v huv)

/-- Akin texts are alike by themselves. -/
theorem alikeAnywhere (h : Akin s t) : AlikeAnywhere s t := by
  have := h [] [] .nil
  rwa [List.append_nil, List.append_nil] at this

end Akin

/-! ## Blanks at the end -/

/-- Akin but for blanks at the end. -/
def NearlyAkin (s t : Bytes) : Prop :=
  ∃ c c' g g', s = c ++ g ∧ t = c' ++ g' ∧ Akin c c' ∧ SameRun g g'

/-- Texts that are akin are nearly akin: no run of blanks is missing on one side. -/
theorem Akin.nearly (h : Akin s t) : NearlyAkin s t :=
  ⟨s, t, [], [], by simp, by simp, h, .nil⟩

namespace NearlyAkin

/-- Texts that are nearly akin are alike behind every byte. -/
theorem alikeAnywhere (h : NearlyAkin s t) : AlikeAnywhere s t := by
  obtain ⟨c, c', g, g', rfl, rfl, hc, hg⟩ := h
  exact hc g g' fun _ => .done hg

/-- Behind the blanks a tight punctuator comes next, perhaps after one more run of blanks. -/
theorem before (h : NearlyAkin s t) (hw : ∀ c ∈ w, isSpace c = true) (ht : isTight b = true)
    (hb : isSpace b = false) (huv : AlikeAnywhere u v) :
    AlikeAnywhere (s ++ (w ++ b :: u)) (t ++ (w ++ b :: v)) := by
  obtain ⟨c, c', g, g', rfl, rfl, hc, hg⟩ := h
  rw [List.append_assoc, List.append_assoc]
  refine hc _ _ fun p => ?_
  rw [← List.append_assoc, ← List.append_assoc]
  refine .byte (hg.append (.refl hw)) ?_ hb (huv (some b))
  intro a _ _ htb
  rw [ht] at htb
  exact absurd htb (by simp)

end NearlyAkin

/-! ## Joined texts -/

/-- The closing brace of a class stands behind its members. -/
theorem AlikeAnywhere.members {xs ys : List Bytes} (h : List.Forall₂ NearlyAkin xs ys) :
    AlikeAnywhere (Bytes.join (bytes "; ") xs ++ bytes " \x7d")
      (Bytes.join (bytes "; ") ys ++ bytes " \x7d") := by
  have hend : AlikeAnywhere (bytes " \x7d") (bytes " \x7d") := (Akin.refl _).alikeAnywhere
  have hclose : ∀ {x y : Bytes}, NearlyAkin x y →
      AlikeAnywhere (x ++ bytes " \x7d") (y ++ bytes " \x7d") := fun hxy =>
    hxy.before (w := [space]) (b := closeBrace) (u := []) (v := [])
      (fun c hc => by rw [List.mem_singleton.mp hc]; rfl) rfl rfl .nil
  induction h with
  | nil => exact hend
  | @cons x y xs ys hxy hrest ih =>
    cases hrest with
    | nil => exact hclose hxy
    | @cons x' y' xs ys hxy' hrest =>
      have hjoin : ∀ (a b : Bytes) (l : List Bytes), Bytes.join (bytes "; ") (a :: b :: l)
          = a ++ bytes "; " ++ Bytes.join (bytes "; ") (b :: l) := fun _ _ _ => rfl
      -- the semicolon behind a member is tight
      rw [hjoin, hjoin, List.append_assoc, List.append_assoc, List.append_assoc, List.append_assoc]
      exact hxy.before (w := []) (b := semicolon) (by simp) rfl rfl (ih.cons space)

end SignatureLedger.Normal
