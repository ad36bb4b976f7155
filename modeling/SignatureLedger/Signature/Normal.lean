import SignatureLedger.Text.Comment

/-!
# The normal form of a signature text

Comments, the module names of inline imports, and the layout say nothing about a signature.
`normalize` removes them: three passes strip comments and imports until nothing changes, then blanks
are collapsed, punctuation is set tight, and the ends are trimmed.

Each stripping pass gives a sublist of its argument (`stripOnce_sublist`), so the text gets shorter
as long as it changes; this is why the repetition ends.
-/

namespace SignatureLedger.Normal

open Byte

/-! ## Stripping passes -/

/-- Removes block comments. One that is not closed takes the rest of the text along. -/
def stripBlockComments (s : Bytes) : Bytes :=
  match s with
  | [] => []
  | b :: rest =>
    if b = slash ∧ rest.head? = some star then
      match commentWidth? rest.tail with
      | none => []
      | some w => stripBlockComments (rest.tail.drop w)
    else b :: stripBlockComments rest
termination_by s.length
decreasing_by all_goals simp only [List.length_drop, List.length_tail, List.length_cons]; omega

/-- What starts at the next line end is no longer than the text. -/
theorem length_fromLineEnd_le (s : Bytes) : (fromLineEnd s).length ≤ s.length :=
  (List.dropWhile_sublist _).length_le

/-- Removes line comments, but not the line feeds that end them. It knows of no quotes, so that a
text with two slashes in it is cut too. -/
def stripLineComments (s : Bytes) : Bytes :=
  match s with
  | [] => []
  | b :: rest =>
    if b = slash ∧ rest.head? = some slash then stripLineComments (fromLineEnd rest.tail)
    else b :: stripLineComments rest
termination_by s.length
decreasing_by
  · have := length_fromLineEnd_le rest.tail
    simp only [List.length_tail, List.length_cons] at *; omega
  · simp

/-- Blanks, a closing bracket, blanks, and a dot: how many bytes. -/
def importTail? (s : Bytes) : Option Nat :=
  let n := Bytes.run isSpace s
  match s.drop n with
  | b :: rest =>
    let m := Bytes.run isSpace rest
    if b = closeParen ∧ (rest.drop m).head? = some dot then some (n + 1 + m + 1) else none
  | [] => none

/-- The bytes after the opening quote `q` of a module name up to and including the dot of the
nearest quote, bracket and dot. -/
def importEnd? (q : UInt8) : Bytes → Option Nat
  | [] => none
  | b :: rest =>
    match if b = q then importTail? rest else none with
    | some n => some (1 + n)
    | none => (importEnd? q rest).map (1 + ·)

/-- How many bytes of `import("…").` stand at the front. Blanks are allowed between its parts. -/
def importNoise? (s : Bytes) : Option Nat :=
  if (bytes "import").isPrefixOf s then
    let n := 6 + Bytes.run isSpace (s.drop 6)
    if (s.drop n).head? = some openParen then
      let m := n + 1 + Bytes.run isSpace (s.drop (n + 1))
      match s.drop m with
      | q :: rest =>
        if q = doubleQuote ∨ q = singleQuote then (importEnd? q rest).map (m + 1 + ·) else none
      | [] => none
    else none
  else none

/-- Removes inline imports. What they are is told by `importNoise?`. -/
def stripImports (s : Bytes) : Bytes :=
  match s with
  | [] => []
  | b :: rest =>
    match importNoise? (b :: rest) with
    | some n => stripImports (rest.drop (n - 1))
    | none => b :: stripImports rest
termination_by s.length
decreasing_by all_goals simp only [List.length_drop, List.length_cons]; omega

/-- One round of the three passes. -/
def stripOnce (s : Bytes) : Bytes := stripImports (stripLineComments (stripBlockComments s))

/-! ### Nothing is added -/

/-- Taking block comments out leaves bytes of the text in their order. -/
theorem stripBlockComments_sublist (s : Bytes) : (stripBlockComments s).Sublist s := by
  fun_induction stripBlockComments s with
  | case1 => exact List.Sublist.refl _
  | case2 => exact List.nil_sublist _
  | case3 b rest _ w _ ih =>
    exact (ih.trans (List.drop_sublist w _)).trans ((List.tail_sublist rest).trans
      (List.sublist_cons_self b rest))
  | case4 b rest _ ih => exact ih.cons_cons b

/-- So does taking line comments out. -/
theorem stripLineComments_sublist (s : Bytes) : (stripLineComments s).Sublist s := by
  fun_induction stripLineComments s with
  | case1 => exact List.Sublist.refl _
  | case2 b rest _ ih =>
    exact (ih.trans (List.dropWhile_sublist _)).trans ((List.tail_sublist rest).trans
      (List.sublist_cons_self b rest))
  | case3 b rest _ ih => exact ih.cons_cons b

/-- So does taking inline imports out. -/
theorem stripImports_sublist (s : Bytes) : (stripImports s).Sublist s := by
  fun_induction stripImports s with
  | case1 => exact List.Sublist.refl _
  | case2 b rest n _ ih =>
    exact (ih.trans (List.drop_sublist _ rest)).trans (List.sublist_cons_self b rest)
  | case3 b rest _ ih => exact ih.cons_cons b

/-- So does one round over all three. -/
theorem stripOnce_sublist (s : Bytes) : (stripOnce s).Sublist s :=
  (stripImports_sublist _).trans
    ((stripLineComments_sublist _).trans (stripBlockComments_sublist s))

/-- A round that changes the text makes it shorter. -/
theorem length_stripOnce_lt {s : Bytes} (h : stripOnce s ≠ s) :
    (stripOnce s).length < s.length := by
  rcases Nat.lt_or_ge (stripOnce s).length s.length with hlt | hge
  · exact hlt
  · exact absurd ((stripOnce_sublist s).eq_of_length_le hge) h

/-- Strips until nothing changes: what is removed can bring a new comment or import together. -/
def strip (s : Bytes) : Bytes :=
  if _h : stripOnce s = s then s else strip (stripOnce s)
termination_by s.length
decreasing_by exact length_stripOnce_lt _h

/-! ## Layout -/

/-- Punctuators that take no blank around them. -/
def isTight (b : UInt8) : Bool :=
  b == colon || b == openParen || b == closeParen || b == openBracket || b == closeBracket
    || b == openBrace || b == closeBrace || b == comma || b == semicolon

/-- Punctuators that are followed by one space. -/
def takesSpace (b : UInt8) : Bool := b == colon || b == comma || b == semicolon

/-- Every run of blanks becomes one space; `inRun` says that the byte before was a blank. -/
def collapseFrom (inRun : Bool) : Bytes → Bytes
  | [] => []
  | b :: rest =>
    if isSpace b then
      if inRun then collapseFrom true rest else space :: collapseFrom true rest
    else b :: collapseFrom false rest

/-- Blanks in a row become one space. -/
def collapseBlanks (s : Bytes) : Bytes := collapseFrom false s

/-- Removes spaces beside tight punctuators and puts one behind those that take it; `previous?` is
the byte before. -/
def tidyFrom (previous? : Option UInt8) : Bytes → Bytes
  | [] => []
  | b :: rest =>
    if b = space then
      if previous?.any isTight || rest.head?.any isTight then tidyFrom (some b) rest
      else space :: tidyFrom (some b) rest
    else if takesSpace b then b :: space :: tidyFrom (some b) rest
    else b :: tidyFrom (some b) rest

/-- Spaces beside punctuation go. -/
def tidyPunctuation (s : Bytes) : Bytes := tidyFrom none s

end SignatureLedger.Normal

namespace SignatureLedger

/-- The normal form of a signature text. -/
def normalize (s : Bytes) : Bytes :=
  (Normal.tidyPunctuation (Normal.collapseBlanks (Normal.strip s))).trim

end SignatureLedger
