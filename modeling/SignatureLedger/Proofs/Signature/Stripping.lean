import SignatureLedger.Proofs.Text.Comment
import SignatureLedger.Signature.Normal
import Mathlib.Data.List.Infix

/-!
# What stripping leaves

A text is clean when no comment and no inline import starts anywhere in it. The stripping passes
change exactly the texts that are not clean (`stripOnce_eq_self_iff`), so what `strip` leaves is
clean (`clean_strip`).
-/

namespace SignatureLedger.Normal

open Byte

/-! ## Clean texts -/

/-- A comment of either kind or an inline import starts the text. -/
def StartsNoise (s : Bytes) : Prop :=
  [slash, star] <+: s ∨ [slash, slash] <+: s ∨ (importNoise? s).isSome

/-- No comment and no inline import starts anywhere in the text. -/
def Clean (s : Bytes) : Prop := ∀ u, u <:+ s → ¬ StartsNoise u

/-- A property of all suffixes, read off the first element and the rest. -/
theorem forall_suffix_cons_iff {α : Type} {P : List α → Prop} {b : α} {s : List α} :
    (∀ u, u <:+ b :: s → P u) ↔ P (b :: s) ∧ ∀ u, u <:+ s → P u := by
  simp [List.suffix_cons_iff, or_imp, forall_and]

/-! ## Passes that change nothing -/

/-- Removing from a longer text can not give the text back. -/
theorem ne_of_sublist_of_length_lt {s t u : Bytes} (h : u.Sublist t) (hlt : t.length < s.length) :
    u ≠ s := by
  rintro rfl
  exact absurd h.length_le (by omega)

/-- The block comment phase leaves a text alone exactly if no block comment opens in it. -/
theorem stripBlockComments_eq_self_iff (s : Bytes) :
    stripBlockComments s = s ↔ ∀ u, u <:+ s → ¬ [slash, star] <+: u := by
  -- where a comment starts both sides fail, the left one since the text gets shorter
  fun_induction stripBlockComments s with
  | case1 => simp
  | case2 b rest hb _ =>
    refine iff_of_false (by simp) fun h => ?_
    exact h _ (List.suffix_refl _) (prefix_pair_iff.mpr hb)
  | case3 b rest hb w _ _ =>
    refine iff_of_false ?_ fun h => h _ (List.suffix_refl _) (prefix_pair_iff.mpr hb)
    refine ne_of_sublist_of_length_lt
      ((stripBlockComments_sublist _).trans (List.drop_sublist w _)) ?_
    rw [List.length_tail, List.length_cons]
    omega
  | case4 b rest hb ih =>
    rw [List.cons_inj_right, ih, forall_suffix_cons_iff, prefix_pair_iff, and_iff_right hb]

/-- The line comment phase leaves a text alone exactly if no line comment opens in it. -/
theorem stripLineComments_eq_self_iff (s : Bytes) :
    stripLineComments s = s ↔ ∀ u, u <:+ s → ¬ [slash, slash] <+: u := by
  fun_induction stripLineComments s with
  | case1 => simp
  | case2 b rest hb _ =>
    refine iff_of_false ?_ fun h => h _ (List.suffix_refl _) (prefix_pair_iff.mpr hb)
    refine ne_of_sublist_of_length_lt
      ((stripLineComments_sublist _).trans (List.dropWhile_sublist _)) ?_
    rw [List.length_tail, List.length_cons]
    omega
  | case3 b rest hb ih =>
    rw [List.cons_inj_right, ih, forall_suffix_cons_iff, prefix_pair_iff, and_iff_right hb]

theorem importNoise?_nil : importNoise? [] = none := by decide

/-- The import phase leaves a text alone exactly if it holds no module call. -/
theorem stripImports_eq_self_iff (s : Bytes) :
    stripImports s = s ↔ ∀ u, u <:+ s → importNoise? u = none := by
  fun_induction stripImports s with
  | case1 => simp [importNoise?_nil]
  | case2 b rest n hn _ =>
    refine iff_of_false ?_ fun h => ?_
    · refine ne_of_sublist_of_length_lt
        ((stripImports_sublist _).trans (List.drop_sublist _ rest)) ?_
      rw [List.length_cons]
      omega
    · rw [h _ (List.suffix_refl _)] at hn
      exact absurd hn (by simp)
  | case3 b rest hn ih =>
    rw [List.cons_inj_right, ih, forall_suffix_cons_iff, and_iff_right hn]

/-! ## The round and its fixpoint -/

/-- A round changes nothing exactly when each of its passes changes nothing: what one pass removes
no later one puts back. -/
theorem stripOnce_eq_self_iff_passes (s : Bytes) :
    stripOnce s = s ↔
      stripBlockComments s = s ∧ stripLineComments s = s ∧ stripImports s = s := by
  constructor
  · intro h
    -- the whole round keeps the length, so each pass does, and a sublist of full length is all
    have h₁ := stripBlockComments_sublist s
    have h₂ := stripLineComments_sublist (stripBlockComments s)
    have h₃ := stripImports_sublist (stripLineComments (stripBlockComments s))
    have hlen : s.length ≤ (stripImports (stripLineComments (stripBlockComments s))).length :=
      Nat.le_of_eq (congrArg List.length h.symm)
    have hblock : stripBlockComments s = s :=
      h₁.eq_of_length_le (hlen.trans (h₃.length_le.trans h₂.length_le))
    rw [hblock] at h₂ h₃ hlen
    have hline : stripLineComments s = s := h₂.eq_of_length_le (hlen.trans h₃.length_le)
    rw [hline] at h₃ hlen
    exact ⟨hblock, hline, h₃.eq_of_length_le hlen⟩
  · rintro ⟨hblock, hline, himports⟩
    rw [stripOnce, hblock, hline, himports]

/-- **A round changes exactly the texts that are not clean.** -/
theorem stripOnce_eq_self_iff (s : Bytes) : stripOnce s = s ↔ Clean s := by
  rw [stripOnce_eq_self_iff_passes, stripBlockComments_eq_self_iff, stripLineComments_eq_self_iff,
    stripImports_eq_self_iff]
  constructor
  · rintro ⟨hblock, hline, himports⟩ u hu (h | h | h)
    · exact hblock u hu h
    · exact hline u hu h
    · simp [himports u hu] at h
  · intro h
    refine ⟨fun u hu hb => h u hu (Or.inl hb), fun u hu hl => h u hu (Or.inr (Or.inl hl)), ?_⟩
    intro u hu
    rw [← Option.not_isSome_iff_eq_none]
    exact fun hi => h u hu (Or.inr (Or.inr hi))

/-- One round more or less before the repetition makes no difference. -/
theorem strip_stripOnce (s : Bytes) : strip (stripOnce s) = strip s := by
  conv_rhs => rw [strip]
  split
  · rename_i h
    rw [h]
    conv_lhs => rw [strip, dif_pos h]
  · rfl

/-- The repetition ends at a text that a further round leaves alone. -/
theorem stripOnce_strip (s : Bytes) : stripOnce (strip s) = strip s := by
  fun_induction strip s with
  | case1 s h => exact h
  | case2 s _ ih => exact ih

/-- What is left of a text is a part of it, in order. -/
theorem strip_sublist (s : Bytes) : (strip s).Sublist s := by
  fun_induction strip s with
  | case1 => exact List.Sublist.refl _
  | case2 s _ ih => exact ih.trans (stripOnce_sublist s)

/-- **What is left after stripping is clean.** -/
theorem clean_strip (s : Bytes) : Clean (strip s) :=
  (stripOnce_eq_self_iff _).mp (stripOnce_strip s)

/-- Stripping leaves a clean text as it is. -/
theorem strip_of_clean {s : Bytes} (h : Clean s) : strip s = s := by
  rw [strip, dif_pos ((stripOnce_eq_self_iff s).mpr h)]

end SignatureLedger.Normal
