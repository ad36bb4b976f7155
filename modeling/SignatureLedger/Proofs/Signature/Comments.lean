import SignatureLedger.Proofs.Signature.Stripping

/-!
# Comments say nothing

A block comment leaves no trace in the normal form, and a line comment leaves only the line feed
that ends it (`normalize_comment`). Block comments are removed before line comments are looked for,
so the body of a line comment may hold block comments only if it closes them: an open one takes the
following lines along (`normalize_open_in_line_comment`).
-/

namespace SignatureLedger.Normal

open Byte

/-- Texts that agree after one round have the same normal form. -/
theorem normalize_eq_of_stripOnce_eq {s t : Bytes} (h : stripOnce s = stripOnce t) :
    normalize s = normalize t := by
  rw [normalize, ← strip_stripOnce, h, strip_stripOnce, ← normalize]

/-! ## Texts without a slash -/

/-- A text without a slash stands unchanged in front of what the block comment phase leaves. -/
theorem stripBlockComments_append {a : Bytes} (ha : slash ∉ a) (s : Bytes) :
    stripBlockComments (a ++ s) = a ++ stripBlockComments s := by
  induction a with
  | nil => rfl
  | cons b a ih =>
    have hb : b ≠ slash := fun h => ha (by simp [h])
    rw [List.cons_append, stripBlockComments, if_neg (fun h => hb h.1),
      ih (fun h => ha (List.mem_cons_of_mem b h)), List.cons_append]

/-- A text without a slash stands unchanged in front of what the line comment phase leaves. -/
theorem stripLineComments_append {a : Bytes} (ha : slash ∉ a) (s : Bytes) :
    stripLineComments (a ++ s) = a ++ stripLineComments s := by
  induction a with
  | nil => rfl
  | cons b a ih =>
    have hb : b ≠ slash := fun h => ha (by simp [h])
    rw [List.cons_append, stripLineComments, if_neg (fun h => hb h.1),
      ih (fun h => ha (List.mem_cons_of_mem b h)), List.cons_append]

/-- Where no slash is, the block comment phase takes nothing. -/
theorem stripBlockComments_of_slash_not_mem {t : Bytes} (ht : slash ∉ t) :
    stripBlockComments t = t := by
  rw [← List.append_nil t, stripBlockComments_append ht, stripBlockComments]

/-- Where no slash is, the line comment phase takes nothing. -/
theorem stripLineComments_of_slash_not_mem {t : Bytes} (ht : slash ∉ t) :
    stripLineComments t = t := by
  rw [← List.append_nil t, stripLineComments_append ht, stripLineComments]

theorem slash_not_mem_lineFeed : slash ∉ [lineFeed] := by decide

/-- The block comment phase keeps a line feed. -/
theorem stripBlockComments_lineFeed (s : Bytes) :
    stripBlockComments (lineFeed :: s) = lineFeed :: stripBlockComments s :=
  stripBlockComments_append slash_not_mem_lineFeed s

/-- The line comment phase keeps a line feed. -/
theorem stripLineComments_lineFeed (s : Bytes) :
    stripLineComments (lineFeed :: s) = lineFeed :: stripLineComments s :=
  stripLineComments_append slash_not_mem_lineFeed s

/-! ## One comment -/

/-- A closed block comment leaves no trace of its own. -/
theorem stripBlockComments_comment {c : Bytes} (hc : ¬ [star, slash] <:+: c) (s : Bytes) :
    stripBlockComments (slash :: star :: (c ++ star :: slash :: s)) = stripBlockComments s := by
  rw [stripBlockComments, if_pos ⟨rfl, rfl⟩, List.tail_cons, commentWidth?_closed hc]
  dsimp only
  rw [← List.drop_drop, List.drop_left]
  rfl

/-- A line comment leaves its line feed. -/
theorem stripLineComments_comment {c : Bytes} (hc : lineFeed ∉ c) (s : Bytes) :
    stripLineComments (slash :: slash :: (c ++ lineFeed :: s)) =
      lineFeed :: stripLineComments s := by
  have hend : fromLineEnd (c ++ lineFeed :: s) = lineFeed :: s := by
    rw [fromLineEnd, List.dropWhile_append_of_pos]
    · rfl
    · intro b hb
      simpa using fun h : b = lineFeed => hc (h ▸ hb)
  rw [stripLineComments, if_pos ⟨rfl, rfl⟩, List.tail_cons, hend, stripLineComments_lineFeed]

/-! ## Closed block comments -/

/-- `s` is the text `r` with block comments put in, all of them closed. -/
inductive WithComments : Bytes → Bytes → Prop
  | nil : WithComments [] []
  | byte {b : UInt8} {s r : Bytes} (hb : ¬ [slash, star] <+: b :: s) (h : WithComments s r) :
      WithComments (b :: s) (b :: r)
  | comment {c s r : Bytes} (hc : ¬ [star, slash] <:+: c) (h : WithComments s r) :
      WithComments (slash :: star :: (c ++ star :: slash :: s)) r

/-- Closed block comments are removed and what follows is read from its start, if it does not start
with a star. -/
theorem WithComments.stripBlockComments_append {s r : Bytes} (h : WithComments s r) {t : Bytes}
    (ht : t.head? ≠ some star) :
    stripBlockComments (s ++ t) = r ++ stripBlockComments t := by
  induction h with
  | nil => rfl
  | @byte b s r hb _ ih =>
    -- a slash at the end opens nothing, for no star follows
    have hb' : ¬ (b = slash ∧ (s ++ t).head? = some star) := by
      rw [prefix_pair_iff] at hb
      rintro ⟨hslash, hhead⟩
      cases s with
      | nil => exact ht hhead
      | cons d s => exact hb ⟨hslash, hhead⟩
    rw [List.cons_append, stripBlockComments, if_neg hb', ih, List.cons_append]
  | comment hc _ ih =>
    rw [List.cons_append, List.cons_append, List.append_assoc, List.cons_append, List.cons_append,
      stripBlockComments_comment hc, ih]

/-- Comments are only taken away. -/
theorem WithComments.sublist {s r : Bytes} (h : WithComments s r) : r.Sublist s := by
  induction h with
  | nil => exact List.Sublist.refl _
  | @byte b s r _ _ ih => exact ih.cons_cons b
  | @comment c s r _ _ ih =>
    refine ih.trans (List.IsSuffix.sublist ⟨slash :: star :: (c ++ [star, slash]), ?_⟩)
    simp

/-! ## An open block comment -/

/-- The block comments of a text are closed, or one of them is the last and stays open. -/
theorem withComments_or_open (s : Bytes) :
    (∃ r, WithComments s r) ∨
      ∃ u r c, s = u ++ slash :: star :: c ∧ WithComments u r ∧ ¬ [star, slash] <:+: c := by
  fun_induction stripBlockComments s with
  | case1 => exact .inl ⟨[], .nil⟩
  | case2 b rest hb hnone =>
    obtain ⟨c, rfl⟩ := List.head?_eq_some_iff.mp hb.2
    rw [hb.1]
    exact .inr ⟨[], [], c, rfl, .nil, not_infix_of_commentWidth? hnone⟩
  | case3 b rest hb n hn ih =>
    obtain ⟨d, rfl⟩ := List.head?_eq_some_iff.mp hb.2
    obtain ⟨c, t, rfl, rfl, hc⟩ := exists_of_commentWidth? hn
    rw [List.tail_cons, ← List.drop_drop, List.drop_left] at ih
    rw [hb.1]
    rcases ih with ⟨r, h⟩ | ⟨u, r, d, ht, h, hd⟩
    · exact .inl ⟨r, .comment hc h⟩
    · obtain rfl : t = u ++ slash :: star :: d := ht
      exact .inr ⟨slash :: star :: (c ++ star :: slash :: u), r, d, by simp, .comment hc h, hd⟩
  | case4 b rest hb ih =>
    rcases ih with ⟨r, h⟩ | ⟨u, r, c, rfl, h, hc⟩
    · exact .inl ⟨b :: r, .byte (by rwa [prefix_pair_iff]) h⟩
    · refine .inr ⟨b :: u, b :: r, c, rfl, .byte ?_ h, hc⟩
      rw [prefix_pair_iff]
      rintro ⟨hslash, hhead⟩
      obtain ⟨u, rfl⟩ := List.head?_eq_some_iff.mp hhead
      exact hb ⟨hslash, rfl⟩

/-- Behind an opener that finds no end in the rest, the phase takes everything. -/
theorem stripBlockComments_append_of_open {u r c t : Bytes} (h : WithComments u r)
    (hc : ¬ [star, slash] <:+: c) (ht : slash ∉ t) :
    stripBlockComments (u ++ slash :: star :: c ++ t) = r := by
  have hopen : ¬ [star, slash] <:+: c ++ t := by
    rw [pair_infix_append_iff fun hhead => ht (List.mem_of_mem_head? hhead), not_or]
    exact ⟨hc, fun hin => ht (hin.subset (by simp))⟩
  have hhead : (slash :: star :: (c ++ t)).head? ≠ some star :=
    fun h => absurd (Option.some.inj h) (by decide)
  rw [List.append_assoc, List.cons_append, List.cons_append, h.stripBlockComments_append hhead,
    stripBlockComments, if_pos ⟨rfl, rfl⟩, List.tail_cons, commentWidth?_eq_none hopen,
    List.append_nil]

/-! ## The main result -/

/-- One round over the phases does not see a closed block comment between two texts. -/
theorem stripOnce_block_comment {a c : Bytes} (ha : slash ∉ a) (hc : ¬ [star, slash] <:+: c)
    (b : Bytes) :
    stripOnce (a ++ slash :: star :: (c ++ star :: slash :: b)) = stripOnce (a ++ b) := by
  rw [stripOnce, stripOnce, stripBlockComments_append ha, stripBlockComments_append ha,
    stripBlockComments_comment hc]

/-- One round over the phases does not see a line comment, up to its line feed. -/
theorem stripOnce_line_comment {a c r : Bytes} (ha : slash ∉ a) (hc : lineFeed ∉ c)
    (hr : WithComments (slash :: slash :: c) (slash :: slash :: r)) (b : Bytes) :
    stripOnce (a ++ slash :: slash :: (c ++ lineFeed :: b)) = stripOnce (a ++ lineFeed :: b) := by
  -- the line comment that is left ends at the same line feed
  have hrest : lineFeed ∉ r := by
    intro h
    have hmem : lineFeed ∈ slash :: slash :: c := hr.sublist.mem (by simp [h])
    simp only [List.mem_cons, hc, or_false] at hmem
    exact absurd hmem (by decide)
  have hblock : stripBlockComments (slash :: slash :: (c ++ lineFeed :: b)) =
      slash :: slash :: (r ++ stripBlockComments (lineFeed :: b)) := by
    refine hr.stripBlockComments_append fun h => ?_
    exact absurd (Option.some.inj h) (by decide)
  rw [stripOnce, stripOnce, stripBlockComments_append ha, stripBlockComments_append ha, hblock,
    stripBlockComments_lineFeed, stripLineComments_append ha, stripLineComments_append ha,
    stripLineComments_comment hrest, stripLineComments_lineFeed]

/-- **Comments are invisible.** Behind a text without a slash, a block comment may be left out, and
so may a line comment in whose body all block comments are closed, up to its line feed. -/
theorem normalize_comment {a : Bytes} (ha : slash ∉ a) (b c : Bytes) :
    (¬ [star, slash] <:+: c →
      normalize (a ++ [slash, star] ++ c ++ [star, slash] ++ b) = normalize (a ++ b)) ∧
    (∀ r, lineFeed ∉ c → WithComments ([slash, slash] ++ c) ([slash, slash] ++ r) →
      normalize (a ++ [slash, slash] ++ c ++ [lineFeed] ++ b) =
        normalize (a ++ [lineFeed] ++ b)) := by
  simp only [List.append_assoc, List.cons_append, List.nil_append]
  constructor
  · intro hc
    exact normalize_eq_of_stripOnce_eq (stripOnce_block_comment ha hc b)
  · intro r hc hr
    exact normalize_eq_of_stripOnce_eq (stripOnce_line_comment ha hc hr b)

/-- A block comment with a quote and an import in it, and a line comment with a block comment in
it. -/
theorem normalize_comment_nested :
    slash ∉ bytes "x: " ∧
    normalize (bytes "x: " ++ [slash, star] ++ bytes "// 'import(" ++ [star, slash] ++ bytes "y") =
        normalize (bytes "x: " ++ bytes "y") ∧
      normalize (bytes "x: " ++ [slash, slash] ++ bytes "a/*b*/c" ++ [lineFeed] ++ bytes "y") =
        normalize (bytes "x: " ++ [lineFeed] ++ bytes "y") := by
  have hx : slash ∉ bytes "x: " := by decide
  refine ⟨hx, (normalize_comment hx _ _).1 (by decide),
    (normalize_comment hx _ _).2 (bytes "ac") ?_ ?_⟩
  · decide
  · refine .byte (by decide) (.byte (by decide) (.byte (by decide) ?_))
    exact .comment (c := bytes "b") (by decide) (.byte (by decide) .nil)

/-- A block comment that is opened in a line comment takes the next line along. -/
theorem normalize_open_in_line_comment :
    slash ∉ bytes "x" ∧ slash ∉ bytes "y" ∧ lineFeed ∉ bytes "/*" ∧
      normalize (bytes "x" ++ [slash, slash] ++ bytes "/*" ++ [lineFeed] ++ bytes "y") ≠
        normalize (bytes "x" ++ [lineFeed] ++ bytes "y") := by
  decide +kernel

end SignatureLedger.Normal
