import SignatureLedger.Proofs.Signature.Stripping

/-!
# The rounds of stripping

A stripping pass leaves a sublist of its text, which is shorter unless it is the whole text. So the
repetition of the three passes makes at most one round more than the text has bytes
(`exists_repeats`), and the text at which it ends has no mark of a comment and no inline import
anywhere (`strip_settles`).
-/

namespace SignatureLedger.Normal

open Byte

/-! ## Passes that shorten -/

/-- What the pass leaves of the text is a sublist of it, and a shorter one if it is not all of it.
-/
structure Shortens (pass : Bytes → Bytes) (s : Bytes) : Prop where
  sublist : (pass s).Sublist s
  length_lt : pass s ≠ s → (pass s).length < s.length

/-- A phase that leaves a part of the text shortens it, unless it leaves all of it. -/
theorem Shortens.of_sublist {pass : Bytes → Bytes} {s : Bytes} (h : (pass s).Sublist s) :
    Shortens pass s := by
  constructor
  · exact h
  · intro hne
    apply Nat.lt_of_not_le
    intro hle
    exact hne (h.eq_of_length_le hle)

/-! ## Rounds -/

/-- From `s` the repetition comes to its end at `t` in `n` rounds: the last one leaves the text as
it is, and every other one changes it. -/
inductive Repeats : Nat → Bytes → Bytes → Prop
  | last {s : Bytes} (h : stripOnce s = s) : Repeats 1 s s
  | round {n : Nat} {s t : Bytes} (h : stripOnce s ≠ s) (hrest : Repeats n (stripOnce s) t) :
      Repeats (n + 1) s t

/-- **The repetition ends**, after one round more than there are bytes at the latest. -/
theorem exists_repeats (s : Bytes) : ∃ n, n ≤ s.length + 1 ∧ Repeats n s (strip s) := by
  fun_induction strip s with
  | case1 s h => exact ⟨1, Nat.le_add_left 1 _, .last h⟩
  | case2 s h ih =>
    -- the round takes a byte, which pays for it
    obtain ⟨n, hn, hrest⟩ := ih
    have hlt := length_stripOnce_lt h
    exact ⟨n + 1, by omega, .round h hrest⟩

/-! ## The text at the end -/

variable {s : Bytes}

/-- A clean text holds no mark with which noise starts. -/
theorem Clean.not_infix {mark : Bytes} (h : Clean s)
    (hmark : ∀ u, mark <+: u → StartsNoise u) : ¬ mark <:+: s := by
  intro hinfix
  obtain ⟨u, hprefix, hsuffix⟩ := List.infix_iff_prefix_suffix.mp hinfix
  exact h u hsuffix (hmark u hprefix)

/-- Nowhere in a clean text is a module call. -/
theorem Clean.importNoise?_drop (h : Clean s) (i : Nat) : importNoise? (s.drop i) = none := by
  rw [← Option.not_isSome_iff_eq_none]
  intro hsome
  exact h _ (List.drop_suffix i s) (.inr (.inr hsome))

/-- **Stripping comes to an end at a clean text.** Each of the three passes leaves a sublist of its
text that is shorter unless it is the text itself; the repetition ends after at most as many rounds
as the text has bytes, and one more; and what is left then has no opening mark of a comment in it
and no place where an inline import stands. -/
theorem strip_settles (s : Bytes) :
    (Shortens stripBlockComments s ∧ Shortens stripLineComments s ∧ Shortens stripImports s) ∧
      (∃ n, n ≤ s.length + 1 ∧ Repeats n s (strip s)) ∧
      ¬ [slash, star] <:+: strip s ∧ ¬ [slash, slash] <:+: strip s ∧
      ∀ i, importNoise? ((strip s).drop i) = none := by
  have hclean := clean_strip s
  refine ⟨⟨?_, ?_, ?_⟩, exists_repeats s, ?_, ?_, ?_⟩
  · exact .of_sublist (stripBlockComments_sublist s)
  · exact .of_sublist (stripLineComments_sublist s)
  · exact .of_sublist (stripImports_sublist s)
  · exact hclean.not_infix fun u hu => .inl hu
  · exact hclean.not_infix fun u hu => .inr (.inl hu)
  · exact hclean.importNoise?_drop

/-- One round is not always enough: without the import between them two bytes open a comment. -/
example : stripOnce (bytes "a/import('m').*b") = bytes "a/*b" := by cbv

end SignatureLedger.Normal
