import SignatureLedger.Proofs.Signature.Remnants
import SignatureLedger.Proofs.Signature.Respaced
import SignatureLedger.Signature

/-!
# When a changed string literal shows

In a literal the passes find what they find elsewhere: blanks to collapse, punctuators to set tight,
comment marks, and the module name of an inline import. Two literals in the same place have one
normal form exactly if both are module names, or neither is and what stripping leaves of them and of
the text behind them is respaced (`normalize_eq_iff_of_quoted`). Without comment marks all of a
literal is left, so that nothing else but its layout is forgotten (`normalize_eq_iff_of_unmarked`).
-/

namespace SignatureLedger.Normal

open Byte

variable {p q w w' : Bytes}

/-- The closing quote of the literal is left when comments have been removed once. -/
def KeepsQuote (w : Bytes) : Prop :=
  doubleQuote ∈ (stripLineComments (stripBlockComments (quoted w))).tail

/-- What stripping leaves of a line that holds a literal and nothing else. -/
def alone (w : Bytes) : Bytes := strip (quoted w ++ [lineFeed])

/-- What stripping leaves of a literal and the text `q` behind it: with the closing quote all of `q`
is left, with the line feed alone what `q` has behind its first line, and else nothing. -/
def leftOf (w q : Bytes) : Bytes :=
  if doubleQuote ∈ (alone w).tail then (alone w).dropLast ++ q
  else if lineFeed ∈ alone w then (alone w).dropLast ++ fromLineEnd q
  else alone w

theorem isPlain_nil : IsPlain [] := by decide

theorem isPlain_lineFeed : IsPlain [lineFeed] := by decide

/-- What the literal leaves of itself alone on a line is what it leaves before any text. -/
theorem Remnant.leftOf_eq (L : Remnant) (h : alone w = L.text [lineFeed]) (q : Bytes) :
    leftOf w q = L.text q := by
  obtain ⟨v, ending, hv⟩ := L
  have hne : lineFeed ≠ doubleQuote := by decide
  have hquote := hv.doubleQuote_not_mem
  have hline := hv.lineFeed_not_mem
  have hdrop : ∀ u, (doubleQuote :: (v ++ (u ++ [lineFeed]))).dropLast =
      doubleQuote :: (v ++ u) := by
    intro u
    rw [← List.append_assoc, ← List.cons_append, List.dropLast_concat]
  rw [leftOf, h]
  cases ending with
  | quote =>
    rw [if_pos (by simp [text, Ending.text])]
    refine (congrArg (· ++ q) (hdrop [doubleQuote])).trans ?_
    simp [text, Ending.text]
  | line =>
    rw [if_neg (by simp [text, Ending.text, fromLineEnd, hquote, hne.symm]),
      if_pos (by simp [text, Ending.text, fromLineEnd])]
    refine (congrArg (· ++ fromLineEnd q) (hdrop [])).trans ?_
    simp [text, Ending.text]
  | nothing => simp [text, Ending.text, hquote, hline, hne]

/-- A literal keeps its closing quote exactly if the two comment phases leave a remnant that ends in
it. -/
theorem Remnant.keepsQuote_iff {hw : IsContent w}
    (hR : Leads (stripLineComments ∘ stripBlockComments) (.whole w hw) R) :
    KeepsQuote w ↔ R.ending = .quote := by
  have htext := hR.text_eq [] [] isPlain_nil isPlain_nil
  rw [text_whole, List.append_nil, List.nil_append, List.nil_append, Function.comp_apply] at htext
  rw [KeepsQuote, htext, R.doubleQuote_mem_tail_iff isPlain_nil]

/-- The passes take the literal for the name of a module. -/
def IsModuleName (p w q : Bytes) : Prop := NamesModule p q ∧ KeepsQuote w

/-- **What is left of a literal does not depend on the text before it**, if it is no module name;
and this text stays. -/
theorem exists_remnant (hw : IsContent w) : ∃ L : Remnant, (∀ q, leftOf w q = L.text q) ∧
    ∀ p q, IsPlain p → IsPlain q → ¬ IsModuleName p w q →
      strip (p ++ quoted w ++ q) = p ++ L.text q := by
  obtain ⟨R, hR⟩ := (Remnant.whole w hw).exists_leads
  obtain ⟨L, hL⟩ := R.exists_strip
  have hstrip : ∀ p q, IsPlain p → IsPlain q → (R.ending = .quote → ¬ NamesModule p q) →
      strip (p ++ quoted w ++ q) = p ++ L.text q := by
    intro p q hp hq hnames
    rw [List.append_assoc, ← Remnant.text_whole hw, ← strip_stripOnce,
      hR.stripOnce_eq hp hq hnames]
    exact hL p q hp hq hnames
  refine ⟨L, L.leftOf_eq ?_, fun p q hp hq h => hstrip p q hp hq fun hquote hnames => ?_⟩
  · exact hstrip [] [lineFeed] isPlain_nil isPlain_lineFeed fun _ => not_namesModule_nil
  · exact h ⟨hnames, (Remnant.keepsQuote_iff hR).mpr hquote⟩

/-- Of a module name nothing is left. -/
theorem exists_strip_quoted (hp : IsPlain p) (hq : IsPlain q) (h : NamesModule p q) :
    ∃ out, doubleQuote ∉ out ∧ ∀ w, IsContent w → KeepsQuote w →
      strip (p ++ quoted w ++ q) = out := by
  obtain ⟨out, hout, himports⟩ := Remnant.exists_stripImports hp hq h
  refine ⟨strip out, fun hmem => hout ((strip_sublist out).subset hmem), fun w hw hkeeps => ?_⟩
  obtain ⟨R, hR⟩ := (Remnant.whole w hw).exists_leads
  have hround : stripOnce (p ++ quoted w ++ q) = out := by
    rw [List.append_assoc, ← Remnant.text_whole hw]
    exact (congrArg stripImports (hR.text_eq p q hp hq)).trans
      (himports R ((Remnant.keepsQuote_iff hR).mp hkeeps))
  rw [← strip_stripOnce, hround]

/-! ## Two literals -/

/-- A literal that is a module name and one that is none have different normal forms: only the
latter leaves its opening quote. -/
theorem normalize_ne_of_isModuleName (hp : IsPlain p) (hq : IsPlain q) (hw : IsContent w)
    (hw' : IsContent w') (h : IsModuleName p w q) (h' : ¬ IsModuleName p w' q) :
    normalize (p ++ quoted w ++ q) ≠ normalize (p ++ quoted w' ++ q) := by
  obtain ⟨out, hout, hstrip⟩ := exists_strip_quoted hp hq h.1
  obtain ⟨L, -, hstrip'⟩ := exists_remnant hw'
  intro heq
  have hink := (normalize_eq_iff.mp heq).ink
  rw [hstrip w hw h.2, hstrip' p q hp hq h', ink_append, Remnant.text, ink_cons (by decide)] at hink
  have hmem : doubleQuote ∈ ink out := by simp [hink]
  exact hout (mem_of_mem_ink hmem)

/-- **Two literals in one place** have one normal form exactly if both are module names, or neither
is and what is left of them and the text behind them is respaced. -/
theorem normalize_eq_iff_of_quoted (hp : IsPlain p) (hq : IsPlain q) (hw : IsContent w)
    (hw' : IsContent w') :
    normalize (p ++ quoted w ++ q) = normalize (p ++ quoted w' ++ q) ↔
      IsModuleName p w q ∧ IsModuleName p w' q ∨
        ¬ IsModuleName p w q ∧ ¬ IsModuleName p w' q ∧ Respaced (leftOf w q) (leftOf w' q) := by
  by_cases h : IsModuleName p w q
  · by_cases h' : IsModuleName p w' q
    · obtain ⟨out, -, hstrip⟩ := exists_strip_quoted hp hq h.1
      refine iff_of_true ?_ (.inl ⟨h, h'⟩)
      rw [normalize_eq, normalize_eq, hstrip w hw h.2, hstrip w' hw' h'.2]
    · refine iff_of_false (normalize_ne_of_isModuleName hp hq hw hw' h h') ?_
      simp [h, h']
  · by_cases h' : IsModuleName p w' q
    · refine iff_of_false (normalize_ne_of_isModuleName hp hq hw' hw h' h).symm ?_
      simp [h, h']
    · obtain ⟨L, hleft, hstrip⟩ := exists_remnant hw
      obtain ⟨L', hleft', hstrip'⟩ := exists_remnant hw'
      rw [normalize_eq_iff, hstrip p q hp hq h, hstrip' p q hp hq h', hleft, hleft', Remnant.text,
        Remnant.text, respaced_append_left_iff (by decide)]
      simp [h, h']

/-! ## Literals without comment marks -/

/-- No comment starts in the text. -/
def Unmarked (w : Bytes) : Prop := ¬ [slash, star] <:+: w ∧ ¬ [slash, slash] <:+: w

instance (w : Bytes) : Decidable (Unmarked w) := inferInstanceAs (Decidable (_ ∧ _))

/-- Where the literal holds no such pair, none arises from putting it between plain texts. -/
theorem not_pair_infix_quoted {c : UInt8} (hp : IsPlain p) (hq : IsPlain q) (hc : c ≠ doubleQuote)
    (hw : ¬ [slash, c] <:+: w) : ¬ [slash, c] <:+: p ++ quoted w ++ q := by
  have hquote : ∀ s : Bytes, (doubleQuote :: s).head? ≠ some c :=
    fun s h => hc (Option.some.inj h).symm
  have hbehind : slash ∉ doubleQuote :: q := Ending.quote.slash_not_mem_text hq
  have hsplit : p ++ quoted w ++ q = p ++ doubleQuote :: (w ++ doubleQuote :: q) := by
    simp [quoted]
  rw [hsplit, pair_infix_append_iff (hquote _), List.infix_cons_iff, prefix_pair_iff,
    pair_infix_append_iff (hquote _)]
  rintro (h | ⟨h, -⟩ | h | h)
  · exact not_pair_infix_of_not_mem hp.slash_not_mem h
  · exact absurd h (by decide)
  · exact hw h
  · exact not_pair_infix_of_not_mem hbehind h

/-- The comment passes find nothing around and in a literal without comment marks. -/
theorem Unmarked.comments_eq (h : Unmarked w) (hp : IsPlain p) (hq : IsPlain q) :
    stripLineComments (stripBlockComments (p ++ quoted w ++ q)) = p ++ quoted w ++ q := by
  have hblock : stripBlockComments (p ++ quoted w ++ q) = p ++ quoted w ++ q := by
    rw [stripBlockComments_eq_self_iff]
    intro u hu hpre
    exact not_pair_infix_quoted hp hq (by decide) h.1 (hpre.isInfix.trans hu.isInfix)
  rw [hblock, stripLineComments_eq_self_iff]
  intro u hu hpre
  exact not_pair_infix_quoted hp hq (by decide) h.2 (hpre.isInfix.trans hu.isInfix)

/-- A literal without comment marks keeps its closing quote. -/
theorem Unmarked.keepsQuote (h : Unmarked w) : KeepsQuote w := by
  have hcomments := h.comments_eq isPlain_nil isPlain_nil
  rw [List.nil_append, List.append_nil] at hcomments
  rw [KeepsQuote, hcomments]
  simp [quoted]

/-- All of a literal without comment marks is left. -/
theorem Unmarked.leftOf_eq (h : Unmarked w) (hw : IsContent w) (q : Bytes) :
    leftOf w q = quoted w ++ q := by
  have himports : stripImports (quoted w ++ [lineFeed]) = quoted w ++ [lineFeed] := by
    have hnames := (Remnant.whole w hw).stripImports_text isPlain_nil isPlain_lineFeed
      fun _ => not_namesModule_nil
    rwa [Remnant.text_whole, List.nil_append] at hnames
  have halone : alone w = (Remnant.whole w hw).text [lineFeed] := by
    rw [Remnant.text_whole]
    refine strip_of_clean ((stripOnce_eq_self_iff _).mp ?_)
    exact (congrArg stripImports (h.comments_eq isPlain_nil isPlain_lineFeed)).trans himports
  rw [(Remnant.whole w hw).leftOf_eq halone, Remnant.text_whole]

/-- Two literals without comment marks in one place have one normal form exactly if they are module
names or respaced. -/
theorem normalize_eq_iff_of_unmarked (hp : IsPlain p) (hq : IsPlain q) (hw : IsContent w)
    (hw' : IsContent w') (h : Unmarked w) (h' : Unmarked w') :
    normalize (p ++ quoted w ++ q) = normalize (p ++ quoted w' ++ q) ↔
      NamesModule p q ∨ Respaced (quoted w) (quoted w') := by
  have hname : ∀ {v}, Unmarked v → (IsModuleName p v q ↔ NamesModule p q) :=
    fun hv => and_iff_left hv.keepsQuote
  have hleft : Respaced (quoted w ++ q) (quoted w' ++ q) ↔ Respaced (quoted w) (quoted w') := by
    have hend : ∀ v, quoted v ++ q = doubleQuote :: v ++ doubleQuote :: q := by simp [quoted]
    rw [hend, hend]
    exact respaced_append_right_iff (by decide) q
  rw [normalize_eq_iff_of_quoted hp hq hw hw', hname h, hname h', h.leftOf_eq hw, h'.leftOf_eq hw',
    hleft]
  tauto

/-! ## The main result -/

/-- The text of a signature is the end of its fixed form. -/
theorem serialize_eq_iff_text (s : Signature) (t t' : Bytes) :
    Signature.serialize { s with text := t } = Signature.serialize { s with text := t' } ↔
      t = t' := by
  rw [Signature.serialize, Signature.serialize, List.append_cancel_left_eq]

/-- **A changed literal shows**, in the normal form and in the fixed form of a signature, but for
three reasons. Without comment marks in it, two literals in one place have one normal form exactly
if an inline import takes them for module names, or they differ in blanks that layout forgets. In
general they have one normal form exactly if both are taken for module names, or neither is and the
same holds of what comment marks in them leave of them and of the text behind them. -/
theorem normalize_quoted_eq_iff (hp : IsPlain p) (hq : IsPlain q) (hw : IsContent w)
    (hw' : IsContent w') :
    (Unmarked w → Unmarked w' →
      (normalize (p ++ quoted w ++ q) = normalize (p ++ quoted w' ++ q) ↔
        NamesModule p q ∨ Respaced (quoted w) (quoted w'))) ∧
    (normalize (p ++ quoted w ++ q) = normalize (p ++ quoted w' ++ q) ↔
      IsModuleName p w q ∧ IsModuleName p w' q ∨
        ¬ IsModuleName p w q ∧ ¬ IsModuleName p w' q ∧ Respaced (leftOf w q) (leftOf w' q)) ∧
    ∀ s : Signature,
      Signature.serialize { s with text := normalize (p ++ quoted w ++ q) } =
          Signature.serialize { s with text := normalize (p ++ quoted w' ++ q) } ↔
        normalize (p ++ quoted w ++ q) = normalize (p ++ quoted w' ++ q) :=
  ⟨normalize_eq_iff_of_unmarked hp hq hw hw', normalize_eq_iff_of_quoted hp hq hw hw',
    fun s => serialize_eq_iff_text s _ _⟩

namespace LiteralSample

/-- What stands before the literal in the samples. -/
def before : Bytes := bytes "const u = "

/-- What stands behind the literal in the samples. -/
def behind : Bytes := bytes ";"

/-- The content of one sample literal. -/
def site : Bytes := bytes "a b"

/-- The content of the other sample literal. -/
def place : Bytes := bytes "a c"

/-- No byte of the text is one of the marks. -/
def Without (s marks : Bytes) : Prop := ∀ b ∈ s, b ∉ marks

instance (s marks : Bytes) : Decidable (Without s marks) := List.decidableBAll _ s

/-- Two contents that differ in a text where they are literals, and one normal form. Neither the
text nor the contents hold what would end a literal early or start another one. -/
def Forgets (p w w' q : String) : Prop :=
  Without (bytes p ++ bytes q) [doubleQuote, singleQuote, backslash, slash, backquote] ∧
    Without (bytes w ++ bytes w') [doubleQuote, singleQuote, backslash, lineFeed] ∧
    bytes w ≠ bytes w' ∧
    normalize (bytes p ++ quoted (bytes w) ++ bytes q) =
      normalize (bytes p ++ quoted (bytes w') ++ bytes q)

instance (p w w' q : String) : Decidable (Forgets p w w' q) :=
  inferInstanceAs (Decidable (_ ∧ _ ∧ _ ∧ _))

end LiteralSample

open LiteralSample in
/-- Two declarations whose texts differ in one letter of a literal have different normal forms. -/
theorem normalize_quoted_eq_iff_sample :
    IsPlain before ∧ IsPlain behind ∧ IsContent site ∧ IsContent place ∧ Unmarked site ∧
      Unmarked place ∧
      normalize (before ++ quoted site ++ behind) ≠
        normalize (before ++ quoted place ++ behind) := by
  have hp : IsPlain before := by decide +kernel
  have hq : IsPlain behind := by decide +kernel
  have hw : IsContent site := by decide +kernel
  have hw' : IsContent place := by decide +kernel
  have h : Unmarked site := by decide +kernel
  have h' : Unmarked place := by decide +kernel
  refine ⟨hp, hq, hw, hw', h, h', fun heq => ?_⟩
  rcases ((normalize_quoted_eq_iff hp hq hw hw').1 h h').mp heq with hnames | hrespaced
  · exact absurd hnames.2 (by decide +kernel)
  · exact absurd hrespaced (by decide +kernel)

open LiteralSample in
/-- Blanks in a literal are collapsed, a line comment in it takes the rest of it along, and the
module name of an inline import is removed. -/
theorem forgets_samples :
    Forgets "const u = " "a b" "a  b" "" ∧ Forgets "const u = " "http://a" "http://b" "" ∧
      Forgets "type T = import(" "a" "b" ").T" := by
  decide +kernel

end SignatureLedger.Normal
