import Mathlib.Data.List.DropRight
import SignatureLedger.Proofs.Signature.Comments
import SignatureLedger.Proofs.Signature.Formatting
import SignatureLedger.Proofs.Signature.Reformatted

/-!
# What passes leave of a string literal

The passes look at bytes only, so they find comment marks in a literal, too, and these work on what
stands behind it: a line comment takes the closing quote and the rest of the line along, an open
block comment takes everything. A `Remnant` is what is left of a literal after some passes, without
regard to the text around it.

The comment passes go from remnant to remnant (`Remnant.exists_leads`). An inline import is found
exactly if the text before the literal calls for one, the text behind it ends one, and the closing
quote is still there (`Remnant.isSome_importNoise?_text`). So stripping goes from remnant to remnant
(`Remnant.exists_strip`), or nothing of the literal is left (`Remnant.exists_stripImports`).
-/

namespace SignatureLedger.Normal

open Byte

/-- A text without slashes and quotes. -/
def IsPlain (s : Bytes) : Prop := ∀ b ∈ s, b ≠ slash ∧ b ≠ doubleQuote ∧ b ≠ singleQuote

/-- What a literal holds: no line feeds and no quotes. -/
def IsContent (w : Bytes) : Prop := ∀ b ∈ w, b ≠ lineFeed ∧ b ≠ doubleQuote ∧ b ≠ singleQuote

/-- The literal with the given content. -/
def quoted (w : Bytes) : Bytes := doubleQuote :: (w ++ [doubleQuote])

instance (s : Bytes) : Decidable (IsPlain s) := List.decidableBAll _ s

instance (w : Bytes) : Decidable (IsContent w) := List.decidableBAll _ w

variable {a b : UInt8} {p q s t v w w' x : Bytes}

/-- A plain text has no slash. -/
theorem IsPlain.slash_not_mem (h : IsPlain s) : slash ∉ s := fun hmem => (h _ hmem).1 rfl

/-- A plain text has no double quote. -/
theorem IsPlain.doubleQuote_not_mem (h : IsPlain s) : doubleQuote ∉ s :=
  fun hmem => (h _ hmem).2.1 rfl

/-- A text made of the bytes of a plain one is plain. -/
theorem IsPlain.subset (h : IsPlain s) (hsub : t ⊆ s) : IsPlain t := fun b hb => h b (hsub hb)

/-- The content of a literal has no double quote. -/
theorem IsContent.doubleQuote_not_mem (h : IsContent w) : doubleQuote ∉ w :=
  fun hmem => (h _ hmem).2.1 rfl

/-- The content of a literal has no line feed. -/
theorem IsContent.lineFeed_not_mem (h : IsContent w) : lineFeed ∉ w := fun hmem => (h _ hmem).1 rfl

/-- A text made of the bytes of a content is one. -/
theorem IsContent.subset (h : IsContent w) (hsub : v ⊆ w) : IsContent v := fun b hb => h b (hsub hb)

/-! ## A line comment -/

/-- In a line without its line feed there is no line comment, or one that takes along what is left
of the line in the text behind. -/
theorem stripLineComments_append_cases (hs : lineFeed ∉ s) :
    (∀ t, slash ∉ t → stripLineComments (s ++ t) = s ++ t) ∨
      ∃ r c, s = r ++ slash :: slash :: c ∧
        ∀ t, slash ∉ t → stripLineComments (s ++ t) = r ++ fromLineEnd t := by
  fun_induction stripLineComments s with
  | case1 => exact .inl fun t ht => stripLineComments_of_slash_not_mem ht
  | case2 b rest hb _ =>
    obtain ⟨c, rfl⟩ := List.head?_eq_some_iff.mp hb.2
    have hc : lineFeed ∉ c := fun h => hs (by simp [h])
    refine .inr ⟨[], c, by rw [hb.1]; rfl, fun t ht => ?_⟩
    have hend : slash ∉ fromLineEnd t := fun h => ht ((List.dropWhile_sublist _).subset h)
    rw [hb.1, List.cons_append, List.cons_append, stripLineComments, if_pos ⟨rfl, rfl⟩,
      List.tail_cons, fromLineEnd_append_of_not_mem hc, stripLineComments_of_slash_not_mem hend]
    rfl
  | case3 b rest hb ih =>
    have hkeep : ∀ t, slash ∉ t →
        stripLineComments (b :: rest ++ t) = b :: stripLineComments (rest ++ t) := by
      intro t ht
      rw [List.cons_append, stripLineComments, if_neg]
      rintro ⟨hslash, hhead⟩
      cases rest with
      | nil => exact ht (List.mem_of_mem_head? hhead)
      | cons c rest => exact hb ⟨hslash, hhead⟩
    rcases ih fun h => hs (List.mem_cons_of_mem b h) with h | ⟨r, c, rfl, h⟩
    · exact .inl fun t ht => by rw [hkeep t ht, h t ht, List.cons_append]
    · exact .inr ⟨b :: r, c, rfl, fun t ht => by rw [hkeep t ht, h t ht, List.cons_append]⟩

/-! ## Remnants -/

/-- Where the text behind a literal goes on, when comments were taken away. -/
inductive Ending where
  /-- At the closing quote. -/
  | quote
  /-- At the end of the line, for a line comment was in the literal. -/
  | line
  /-- Nowhere, for an open block comment was in the literal. -/
  | nothing
deriving DecidableEq

namespace Ending

/-- What is left of the closing quote and the text `q` behind it. -/
def text : Ending → Bytes → Bytes
  | quote, q => doubleQuote :: q
  | line, q => fromLineEnd q
  | nothing, _ => []

/-- The ending behind a further line comment. -/
def cut : Ending → Ending
  | nothing => nothing
  | _ => line

/-- From the end of the line on, the ending is the one that is cut off there. -/
theorem fromLineEnd_text (e : Ending) (q : Bytes) : fromLineEnd (e.text q) = e.cut.text q := by
  cases e with
  | quote => exact fromLineEnd_cons_of_ne (by decide) q
  | line => exact List.dropWhile_idempotent _ _
  | nothing => rfl

/-- The ending adds at most a closing quote to what follows. -/
theorem mem_text (e : Ending) (hb : b ∈ e.text q) : b ∈ q ∨ e = quote ∧ b = doubleQuote := by
  cases e with
  | quote => simpa [text, or_comm] using hb
  | line => exact .inl ((List.dropWhile_sublist _).subset hb)
  | nothing => exact absurd hb (by simp [text])

/-- No ending adds a slash. -/
theorem slash_not_mem_text (e : Ending) (hq : IsPlain q) : slash ∉ e.text q := by
  intro h
  rcases e.mem_text h with h | ⟨-, h⟩
  · exact hq.slash_not_mem h
  · exact absurd h (by decide)

/-- No ending puts a star in front of what follows. -/
theorem head?_text_ne (e : Ending) (q : Bytes) : (e.text q).head? ≠ some star := by
  intro h
  cases e with
  | quote => exact absurd (Option.some.inj h) (by decide)
  | line =>
    have hfirst := List.head?_dropWhile_not (· != lineFeed) q
    rw [show (q.dropWhile (· != lineFeed)).head? = some star from h] at hfirst
    exact absurd hfirst (by decide)
  | nothing => exact absurd h (by simp [text])

/-- The closing quote is there exactly if the ending is the quote. -/
theorem doubleQuote_mem_text_iff (e : Ending) (hq : IsPlain q) :
    doubleQuote ∈ e.text q ↔ e = quote := by
  constructor
  · intro h
    exact (e.mem_text h).elim (fun h => absurd h hq.doubleQuote_not_mem) And.left
  · rintro rfl
    simp [text]

end Ending

/-- What is left of a literal: the opening quote, a content, and an ending. -/
@[ext]
structure Remnant where
  content : Bytes
  ending : Ending
  isContent : IsContent content

variable {R R' R'' : Remnant} {f g : Bytes → Bytes}

namespace Remnant

/-- A literal of which nothing was taken away. -/
def whole (w : Bytes) (hw : IsContent w) : Remnant := ⟨w, .quote, hw⟩

/-- The remnant and what is left of the text `q` behind the literal. -/
def text (R : Remnant) (q : Bytes) : Bytes := doubleQuote :: (R.content ++ R.ending.text q)

/-- A whole literal is its quotation, with what follows it. -/
theorem text_whole (hw : IsContent w) (q : Bytes) : (whole w hw).text q = quoted w ++ q := by
  simp [text, whole, quoted, Ending.text]

/-- A pass turns the first remnant into the second one, whatever stands around the literal. -/
structure Leads (f : Bytes → Bytes) (R R' : Remnant) : Prop where
  shrinks : R' = R ∨ R'.content.length < R.content.length
  quote : R'.ending = .quote → R.ending = .quote
  text_eq : ∀ p q, IsPlain p → IsPlain q → f (p ++ R.text q) = p ++ R'.text q

/-- What one phase leads to, the next one leads on from. -/
theorem Leads.comp (hg : Leads g R' R'') (hf : Leads f R R') : Leads (g ∘ f) R R'' where
  shrinks := by
    rcases hf.shrinks with rfl | hf
    · exact hg.shrinks
    · rcases hg.shrinks with rfl | hg
      · exact .inr hf
      · exact .inr (hg.trans hf)
  quote := hf.quote ∘ hg.quote
  text_eq := fun p q hp hq => by
    rw [Function.comp_apply, hf.text_eq p q hp hq, hg.text_eq p q hp hq]

/-- A pass keeps what stands before the content. -/
theorem append_text_eq (p : Bytes) (R : Remnant) (q : Bytes) :
    p ++ R.text q = (p ++ [doubleQuote]) ++ (R.content ++ R.ending.text q) := by
  simp [text]

/-- A plain text with an opening quote has no slash. -/
theorem slash_not_mem_append (hp : IsPlain p) : slash ∉ p ++ [doubleQuote] := by
  rw [List.mem_append, not_or]
  exact ⟨hp.slash_not_mem, by decide⟩

/-- The block comment phase leaves a remnant of every remnant. -/
theorem exists_leads_block (R : Remnant) : ∃ R', Leads stripBlockComments R R' := by
  rcases withComments_or_open R.content with ⟨r, h⟩ | ⟨u, r, c, hu, h, hc⟩
  · refine ⟨⟨r, R.ending, R.isContent.subset h.sublist.subset⟩, ?_, id, fun p q hp hq => ?_⟩
    · rcases h.sublist.length_le.eq_or_lt with hlen | hlen
      · exact .inl (Remnant.ext (h.sublist.eq_of_length hlen) rfl)
      · exact .inr hlen
    · rw [append_text_eq, append_text_eq, stripBlockComments_append (slash_not_mem_append hp),
        h.stripBlockComments_append (R.ending.head?_text_ne q),
        stripBlockComments_of_slash_not_mem (R.ending.slash_not_mem_text hq)]
  · have hsub : r.Sublist R.content := hu ▸ h.sublist.trans (List.sublist_append_left u _)
    have hshort : r.length < R.content.length := by
      have hlen := congrArg List.length hu
      rw [List.length_append, List.length_cons] at hlen
      have := h.sublist.length_le
      omega
    refine ⟨⟨r, .nothing, R.isContent.subset hsub.subset⟩, .inr hshort, nofun, fun p q hp hq => ?_⟩
    have htext : stripBlockComments (R.content ++ R.ending.text q) = r := by
      rw [hu]
      exact stripBlockComments_append_of_open h hc (R.ending.slash_not_mem_text hq)
    rw [append_text_eq, append_text_eq, stripBlockComments_append (slash_not_mem_append hp), htext]
    exact congrArg _ (List.append_nil r).symm

/-- The line comment phase leaves a remnant of every remnant. -/
theorem exists_leads_line (R : Remnant) : ∃ R', Leads stripLineComments R R' := by
  rcases stripLineComments_append_cases R.isContent.lineFeed_not_mem with h | ⟨r, c, hr, h⟩
  · refine ⟨R, .inl rfl, id, fun p q hp hq => ?_⟩
    rw [append_text_eq, stripLineComments_append (slash_not_mem_append hp),
      h _ (R.ending.slash_not_mem_text hq)]
  · have hsub : r ⊆ R.content := hr ▸ List.subset_append_left r _
    have hshort : r.length < R.content.length := by
      have hlen := congrArg List.length hr
      rw [List.length_append, List.length_cons] at hlen
      omega
    refine ⟨⟨r, R.ending.cut, R.isContent.subset hsub⟩, .inr hshort, ?_, fun p q hp hq => ?_⟩
    · intro hcut
      cases hending : R.ending <;> simp [hending, Ending.cut] at hcut
    · rw [append_text_eq, append_text_eq, stripLineComments_append (slash_not_mem_append hp),
        h _ (R.ending.slash_not_mem_text hq), R.ending.fromLineEnd_text]

/-- **The comment passes go from remnant to remnant.** -/
theorem exists_leads (R : Remnant) : ∃ R', Leads (stripLineComments ∘ stripBlockComments) R R' := by
  obtain ⟨R', hblock⟩ := exists_leads_block R
  obtain ⟨R'', hline⟩ := exists_leads_line R'
  exact ⟨R'', hline.comp hblock⟩

end Remnant

/-! ## Inline imports -/

/-- The text is the word that an inline import starts with and an opening bracket, but for blanks
behind the word. -/
def CallsImport (s : Bytes) : Prop := ∃ m, s = importWord ++ m ∧ ink m = [openParen]

/-- A literal between the two texts stands for the name of a module: an inline import is called
before it, and it is closed and a member of it is taken behind it. -/
def NamesModule (p q : Bytes) : Prop :=
  (∃ u, u <:+ p ∧ CallsImport u) ∧ [closeParen, dot] <+: ink q

/-- The empty text calls no import. -/
theorem not_callsImport_nil : ¬ CallsImport [] := by
  rintro ⟨m, hm, -⟩
  simp [importWord] at hm

/-- The empty text names no module. -/
theorem not_namesModule_nil : ¬ NamesModule [] q := by
  rintro ⟨⟨u, hu, hcall⟩, -⟩
  obtain rfl := List.suffix_nil.mp hu
  exact not_callsImport_nil hcall

/-- A quote and two more bytes stand behind the only quote if at all. -/
theorem infix_append_cons_iff {c : UInt8} (hs : a ∉ s) (ht : a ∉ t) :
    [a, b, c] <:+: s ++ a :: t ↔ [b, c] <+: t := by
  induction s with
  | nil =>
    rw [List.nil_append, List.infix_cons_iff, List.cons_prefix_cons, and_iff_right rfl,
      or_iff_left fun h => ht (h.subset (by simp))]
  | cons d s ih =>
    have hd : a ≠ d := fun h => hs (by simp [h])
    rw [List.cons_append, List.infix_cons_iff, List.cons_prefix_cons, ih fun h => hs (by simp [h])]
    simp [hd]

namespace Remnant

/-- Behind its opening quote a remnant has a quote only if the closing one is left. -/
theorem count_quote_le (R : Remnant) (hq : IsPlain q) (ha : a = doubleQuote ∨ a = singleQuote) :
    (R.content ++ R.ending.text q).count a ≤ 1 := by
  have hcontent : a ∉ R.content := by
    intro h
    rcases ha with rfl | rfl
    · exact (R.isContent _ h).2.1 rfl
    · exact (R.isContent _ h).2.2 rfl
  have hplain : a ∉ q := by
    intro h
    rcases ha with rfl | rfl
    · exact (hq _ h).2.1 rfl
    · exact (hq _ h).2.2 rfl
  rw [List.count_append, List.count_eq_zero.mpr hcontent, Nat.zero_add]
  cases R.ending with
  | quote =>
    rw [Ending.text, List.count_cons, List.count_eq_zero.mpr hplain]
    split <;> simp
  | line =>
    have hline : a ∉ fromLineEnd q := fun h => hplain ((List.dropWhile_sublist _).subset h)
    rw [Ending.text, List.count_eq_zero.mpr hline]
    exact Nat.zero_le 1
  | nothing => simp [Ending.text]

/-- No inline import starts in a remnant. -/
theorem importNoise?_eq_none_of_suffix (R : Remnant) (hq : IsPlain q)
    (hs : s <:+ R.content ++ R.ending.text q) : importNoise? s = none := by
  rw [← Option.not_isSome_iff_eq_none, isSome_importNoise?_iff]
  rintro ⟨t, rfl, c, r, hc, hink, hend⟩
  -- there would have to be two quotes
  have hcount : 2 ≤ (ink t).count c := by
    have hr : 0 < r.count c := List.count_pos_iff.mpr (hend.subset (by simp))
    rw [hink, List.count_cons, List.count_cons_self]
    omega
  have hle := R.count_quote_le hq hc
  have hsub : (ink t).Sublist (R.content ++ R.ending.text q) :=
    List.filter_sublist.trans ((List.sublist_append_right _ _).trans hs.sublist)
  have := hsub.count_le c
  omega

/-- The ink of a text up to the literal, of the literal, and of its ending. -/
theorem ink_append_text (R : Remnant) (m q : Bytes) :
    ink (m ++ R.text q) = ink m ++ doubleQuote :: (ink R.content ++ ink (R.ending.text q)) := by
  rw [ink_append, text, ink_cons (by decide), ink_append]

/-- Only the closing quote can end an import. -/
theorem ends_ink_iff (R : Remnant) (hq : IsPlain q) :
    [doubleQuote, closeParen, dot] <:+: ink R.content ++ ink (R.ending.text q) ↔
      R.ending = .quote ∧ [closeParen, dot] <+: ink q := by
  have hcontent : doubleQuote ∉ ink R.content :=
    fun h => R.isContent.doubleQuote_not_mem (mem_of_mem_ink h)
  have hbehind : doubleQuote ∉ ink q := fun h => hq.doubleQuote_not_mem (mem_of_mem_ink h)
  by_cases hending : R.ending = .quote
  · rw [hending, Ending.text, ink_cons (by decide), infix_append_cons_iff hcontent hbehind]
    simp
  · refine iff_of_false (fun h => ?_) fun h => hending h.1
    rcases List.mem_append.mp (h.subset List.mem_cons_self) with h | h
    · exact hcontent h
    · exact hending ((R.ending.doubleQuote_mem_text_iff hq).mp (mem_of_mem_ink h))

/-- A word in front of a remnant ends before its opening quote, for there is no quote in it. -/
theorem exists_of_importWord_append (R : Remnant) {t : Bytes}
    (h : x ++ R.text q = importWord ++ t) : ∃ m, x = importWord ++ m ∧ t = m ++ R.text q := by
  rcases List.append_eq_append_iff.mp h with ⟨m, hword, hm⟩ | ⟨m, hm, hword⟩
  · cases m with
    | nil => exact ⟨[], by simpa using hword.symm, hm.symm⟩
    | cons d m =>
      obtain ⟨rfl, -⟩ := List.cons.inj hm
      have hmem : doubleQuote ∈ importWord := by simp [hword]
      exact absurd hmem (by decide)
  · exact ⟨m, hm, hword⟩

/-- **Where an inline import starts.** Before a remnant it starts with a text that calls it, if the
closing quote is left and the text behind it ends the import. -/
theorem isSome_importNoise?_text (R : Remnant) (hx : IsPlain x) (hq : IsPlain q) :
    (importNoise? (x ++ R.text q)).isSome ↔
      R.ending = .quote ∧ CallsImport x ∧ [closeParen, dot] <+: ink q := by
  rw [isSome_importNoise?_iff]
  constructor
  · rintro ⟨t, ht, c, r, hc, hink, hcall⟩
    obtain ⟨m, rfl, rfl⟩ := R.exists_of_importWord_append ht
    rw [R.ink_append_text] at hink
    have hm : IsPlain (ink m) := fun b hb => hx b (by simp [mem_of_mem_ink hb])
    cases hmink : ink m with
    | nil =>
      rw [hmink] at hink
      exact absurd (List.cons.inj hink).1 (by decide)
    | cons d l =>
      rw [hmink] at hink hm
      obtain ⟨rfl, hl⟩ := List.cons.inj hink
      cases l with
      | nil =>
        obtain ⟨rfl, rfl⟩ := List.cons.inj hl
        obtain ⟨hending, hq⟩ := (R.ends_ink_iff hq).mp hcall
        exact ⟨hending, ⟨m, rfl, hmink⟩, hq⟩
      | cons d l =>
        -- the byte behind the bracket is no quote
        obtain ⟨rfl, -⟩ := List.cons.inj hl
        have := hm d (by simp)
        rcases hc with rfl | rfl
        · exact absurd rfl this.2.1
        · exact absurd rfl this.2.2
  · rintro ⟨hending, ⟨m, rfl, hm⟩, hbehind⟩
    refine ⟨m ++ R.text q, by simp, doubleQuote, _, .inl rfl, ?_,
      (R.ends_ink_iff hq).mpr ⟨hending, hbehind⟩⟩
    rw [R.ink_append_text, hm]
    rfl

/-- Nothing changes where no inline import is called and ended. -/
theorem stripImports_text (R : Remnant) (hp : IsPlain p) (hq : IsPlain q)
    (h : R.ending = .quote → ¬ NamesModule p q) : stripImports (p ++ R.text q) = p ++ R.text q := by
  have hbefore : ∀ x, x <:+ p → importNoise? (x ++ R.text q) = none := by
    intro x hx
    rw [← Option.not_isSome_iff_eq_none, R.isSome_importNoise?_text (hp.subset hx.subset) hq]
    exact fun ⟨hending, hcall, hbehind⟩ => h hending ⟨⟨x, hx, hcall⟩, hbehind⟩
  rw [stripImports_eq_self_iff]
  rintro u ⟨y, hy⟩
  rcases List.append_eq_append_iff.mp hy with ⟨x, rfl, rfl⟩ | ⟨z, -, hz⟩
  · exact hbefore x (List.suffix_append y x)
  · rcases List.suffix_cons_iff.mp ⟨z, hz.symm⟩ with rfl | hu
    · exact hbefore [] List.nil_suffix
    · exact R.importNoise?_eq_none_of_suffix hq hu

/-- The import pass goes on behind the dot of an import whose module is named by a literal. -/
theorem stripImports_of_callsImport (hR : R.ending = .quote) (hx : CallsImport x) {q' : Bytes}
    (hq' : afterTail? q = some q') : stripImports (x ++ R.text q) = stripImports q' := by
  have hend : ∀ v, doubleQuote ∉ v →
      afterEnd? doubleQuote (v ++ doubleQuote :: q) = some q' := by
    intro v hv
    induction v with
    | nil => rw [List.nil_append, afterEnd?_cons, if_pos rfl, hq', Option.some_or]
    | cons b v ih =>
      have hb : b ≠ doubleQuote := fun h => hv (by simp [h])
      rw [List.cons_append, afterEnd?_cons, if_neg hb, Option.none_or,
        ih fun h => hv (List.mem_cons_of_mem b h)]
  have hskip : ∀ {r s : Bytes} {b : UInt8}, (∀ d ∈ r, isSpace d = true) → isSpace b = false →
      (r ++ b :: s).dropWhile isSpace = b :: s := by
    intro r s b hr hb
    rw [List.dropWhile_append_of_pos hr, List.dropWhile_cons_of_neg (by simp [hb])]
  obtain ⟨m, rfl, hm⟩ := hx
  -- around the bracket there are blanks only
  rcases runs_cases m with ⟨-, -, hink⟩ | ⟨r, b, m, hr, hb, rfl, -, hink⟩
  · exact absurd (hink.symm.trans hm) (by simp)
  · obtain ⟨rfl, hrest⟩ := List.cons.inj (hink.symm.trans hm)
    have hblank : ∀ d ∈ m, isSpace d = true := by
      simpa [ink] using hrest
    have himport : afterImport? (importWord ++ (r ++ openParen :: m) ++ R.text q) = some q' := by
      rw [List.append_assoc, afterImport?_append, afterWord?, List.append_assoc, List.cons_append,
        hskip hr hb]
      dsimp only
      rw [if_pos rfl, text, hskip hblank (by decide)]
      dsimp only
      rw [if_pos (.inl rfl), hR]
      exact hend R.content R.isContent.doubleQuote_not_mem
    exact (pass_stripImports.skip _ _ himport).1

/-- **Module names are forgotten.** If an inline import is called before a literal and ended behind
it, the import pass leaves a text without quotes that does not depend on the literal. -/
theorem exists_stripImports (hp : IsPlain p) (hq : IsPlain q) (h : NamesModule p q) :
    ∃ out, doubleQuote ∉ out ∧ ∀ R : Remnant, R.ending = .quote →
      stripImports (p ++ R.text q) = out := by
  obtain ⟨⟨u, hu, hcall⟩, hbehind⟩ := h
  induction p with
  | nil =>
    obtain rfl := List.suffix_nil.mp hu
    exact absurd hcall not_callsImport_nil
  | cons b p ih =>
    by_cases hfirst : CallsImport (b :: p)
    · obtain ⟨n, hn⟩ := Option.isSome_iff_exists.mp ((isSome_importTail?_iff q).mpr hbehind)
      have hq' : afterTail? q = some (q.drop n) := by rw [afterTail?, hn, Option.map_some]
      refine ⟨stripImports (q.drop n), fun hmem => ?_, fun R hR =>
        stripImports_of_callsImport hR hfirst hq'⟩
      exact hq.doubleQuote_not_mem
        (((stripImports_sublist _).trans (List.drop_sublist n q)).subset hmem)
    · have hu' : u <:+ p := by
        rcases List.suffix_cons_iff.mp hu with rfl | hu
        · exact absurd hcall hfirst
        · exact hu
      obtain ⟨out, hout, hR⟩ := ih (hp.subset (List.subset_cons_self b p)) hu'
      have hb : doubleQuote ≠ b := fun heq => (hp b List.mem_cons_self).2.1 heq.symm
      refine ⟨b :: out, by simp [hb, hout], fun R hending => ?_⟩
      have hnone : importNoise? (b :: p ++ R.text q) = none := by
        rw [← Option.not_isSome_iff_eq_none, R.isSome_importNoise?_text hp hq]
        exact fun h => hfirst h.2.1
      rw [List.cons_append] at hnone ⊢
      rw [stripImports, hnone]
      exact congrArg (b :: ·) (hR R hending)

/-! ## Stripping -/

/-- One round over the phases takes the remnant to the next and leaves the plain text before it
alone. -/
theorem Leads.stripOnce_eq (h : Leads (stripLineComments ∘ stripBlockComments) R R')
    (hp : IsPlain p) (hq : IsPlain q) (hnames : R'.ending = .quote → ¬ NamesModule p q) :
    stripOnce (p ++ R.text q) = p ++ R'.text q :=
  (congrArg stripImports (h.text_eq p q hp hq)).trans (R'.stripImports_text hp hq hnames)

/-- **What stripping leaves of a literal** that is no module name, whatever stands around it. -/
theorem exists_strip (R : Remnant) : ∃ L : Remnant, ∀ p q, IsPlain p → IsPlain q →
    (R.ending = .quote → ¬ NamesModule p q) → strip (p ++ R.text q) = p ++ L.text q := by
  -- a round that changes the remnant makes its content shorter
  induction hn : R.content.length using Nat.strong_induction_on generalizing R with
  | _ n ih =>
    subst hn
    obtain ⟨R', hR'⟩ := R.exists_leads
    rcases hR'.shrinks with rfl | hlt
    · refine ⟨R', fun p q hp hq h => strip_of_clean ?_⟩
      exact (stripOnce_eq_self_iff _).mp (hR'.stripOnce_eq hp hq h)
    · obtain ⟨L, hL⟩ := ih _ hlt R' rfl
      refine ⟨L, fun p q hp hq h => ?_⟩
      rw [← strip_stripOnce, hR'.stripOnce_eq hp hq (h ∘ hR'.quote)]
      exact hL p q hp hq (h ∘ hR'.quote)

/-- Behind the opening quote there is another one exactly if the remnant keeps its closing quote. -/
theorem doubleQuote_mem_tail_iff (R : Remnant) (hq : IsPlain q) :
    doubleQuote ∈ (R.text q).tail ↔ R.ending = .quote := by
  rw [text, List.tail_cons, List.mem_append, R.ending.doubleQuote_mem_text_iff hq,
    or_iff_right R.isContent.doubleQuote_not_mem]

end Remnant

end SignatureLedger.Normal
