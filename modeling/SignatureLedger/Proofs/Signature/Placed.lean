import SignatureLedger.Diagnostic.Render
import SignatureLedger.Proofs.Declaration.Forest
import SignatureLedger.Proofs.Declaration.Starts
import SignatureLedger.Proofs.Signature.Naming
import SignatureLedger.Proofs.Signature.Refused
import SignatureLedger.Proofs.Text.Display

/-!
# Where findings are shown

Whatever the lexer, the parser or the extraction finds starts between two characters of the source
(`placed_analyze`). There the place that is printed and the columns before the carets agree
(`shown_analyze`), also where the line holds characters of more than one byte or of two columns, and
also in front of the bytes that are not UTF-8.
-/

namespace SignatureLedger

open Utf8 (Text)

/-! ## Remarks -/

section Remarks

variable {source : Bytes} {policy : VariablePolicy} {around : Surroundings} {o : Offer}

/-- Every offer is made by a declaration that is no namespace. -/
theorem exists_item_of_mem_offers {around : Surroundings} {ds : List Decl} {d : Decl} (hd : d ∈ ds)
    (ho : o ∈ d.offers source policy around) :
    ∃ h form, (Decl.item h form).Occurs ds ∧ o.nameSpan = h.remarkSpan := by
  match d with
  | .item h form =>
    rw [Decl.offers, Option.mem_toList] at ho
    exact ⟨h, form, .here hd, (parts_of_offer? ho).2.1⟩
  | .space h isGlobal children =>
    rw [Decl.offers] at ho
    split at ho
    · exact absurd ho List.not_mem_nil
    · obtain ⟨e, he, ho⟩ := mem_offersOfAll ho
      obtain ⟨h, form, hoccurs, hspan⟩ := exists_item_of_mem_offers he ho
      exact ⟨h, form, .inside hd hoccurs, hspan⟩
termination_by d
decreasing_by
  have := List.sizeOf_lt_of_mem he
  simp only [Decl.space.sizeOf_spec]
  omega

/-- A remark belongs to the name or, if there is none, to the declaration. -/
theorem placed_remarkSpan {h : DeclHead} {form : DeclForm}
    (hspan : h.span.Between 0 source.length)
    (hnested : (Decl.item h form).WellNested)
    (hbegins : (Decl.item h form).Begins fun offset => Text (source.take offset)) :
    h.remarkSpan.Placed source := by
  cases hnested with
  | item hfits _ _ =>
    cases hbegins with
    | item hstart hname =>
      have hlt := hspan.lt
      have hle := hspan.hi_le
      unfold DeclHead.remarkSpan
      split
      · exact ⟨Nat.le_of_lt hlt, by omega, hstart⟩
      · rename_i hnamed
        rw [List.isEmpty_iff] at hnamed
        have hbetween := hfits.name.resolve_left fun h => hnamed h.2
        exact ⟨Nat.le_of_lt hbetween.lt, by have := hbetween.hi_le; omega,
          hname.resolve_left hnamed⟩

/-- **The findings of the extraction are placed in the source.** -/
theorem placed_extract (hsource : Text source) (dialect : Dialect) (tolerance : Option Nat)
    (before : List Diagnostic) :
    ∀ d ∈ (extract source policy
        (parseModule source tolerance before (lex dialect source).tokens).decls).found,
      d.Placed source := by
  intro d hd
  obtain ⟨o, ho, hfile, hspan⟩ := mem_found_collapse hd
  obtain ⟨e, he, ho⟩ := mem_offersOfAll ho
  obtain ⟨h, form, hoccurs, hremark⟩ := exists_item_of_mem_offers he ho
  obtain ⟨hbetween, hnested⟩ :=
    (forest_parseModule dialect source tolerance before).of_occurs hoccurs
  have hbegins := begins_parseModule (S := fun offset => Text (source.take offset))
    (fun t ht => (placed_of_mem_lex dialect hsource ht).front) tolerance before
  exact ⟨hfile, hspan ▸ hremark ▸ placed_remarkSpan hbetween hnested
    (.of_occurs hbegins hoccurs)⟩

end Remarks

/-! ## All findings -/

/-- **Every finding is placed in the source.** -/
theorem placed_analyze (options : AnalysisOptions) (path source : Bytes) :
    ∀ d ∈ (analyze options path source).found, d.Placed source := by
  have hlexed := placed_lex (Dialect.ofPath path) source
  by_cases hsource : Text source
  · intro d hd
    rcases List.mem_append.mp hd with hd | hd
    · rcases List.mem_append.mp hd with hd | hd
      · exact hlexed d hd
      · exact placed_parseModule hsource _ _ _ d hd
    · exact placed_extract hsource _ _ _ d hd
  · -- nothing is found behind what the lexer refuses
    rw [← Utf8.isValid_iff, Bool.not_eq_true] at hsource
    rw [analyze_of_not_isValid options path hsource]
    rwa [lex_of_not_isValid hsource] at hlexed

/-! ## Rendering -/

namespace Diagnostic

/-- How a finding is shown that starts behind these characters of the line with this number. -/
structure Shown (m : SourceMap) (d : Diagnostic) (line : Nat) (cs : List Char) : Prop where
  place : m.lineColumn d.file d.span.lo = ⟨line, displayWidth cs + 1⟩
  snippet : (m.snippet d.file d.span).line = line ∧
    (m.snippet d.file d.span).column = displayWidth cs + 1 ∧
    (m.snippet d.file d.span).before + 1 = displayWidth cs + 1
  block : ∀ context : UInt32,
    (m.block d.file d.span context).firstLine + (m.block d.file d.span context).caret = line ∧
      (m.block d.file d.span context).column = displayWidth cs + 1 ∧
      (m.block d.file d.span context).before + 1 = displayWidth cs + 1
  /-- The place is printed, -/
  headline : ∀ l : Language, bytes "\n --> " ++ m.name d.file ++ bytes ":" ++ decimal line ++
    bytes ":" ++ decimal (displayWidth cs + 1) ++ bytes "\n  |\n" <:+ d.headline l m
  /-- and then the line with the carets below it, behind as many spaces as the characters have
  columns. -/
  render : ∀ l : Language, ∃ tail width, 0 < width ∧
    d.render l m = d.headline l m ++ decimal line ++ bytes " | " ++
      (cs.flatMap String.utf8EncodeChar ++ tail) ++ bytes "\n  | " ++
      (List.replicate (displayWidth cs) Byte.space ++ List.replicate width 0x5E)

variable {source : Bytes} {d : Diagnostic} {line : Nat} {cs : List Char}

/-- A finding that marks a place of the only source is shown there. As there is one file, the lines
of the map are the lines of its source. -/
theorem shown_of_marks (name : Bytes) (hfile : d.file = 0)
    (h : (⟨name, source⟩ : SourceFile).Marks d.span line cs) :
    d.Shown [⟨name, source⟩] line cs := by
  obtain ⟨tail, htext, -⟩ := h.text
  have hplace : SourceMap.lineColumn [⟨name, source⟩] d.file d.span.lo =
      ⟨line, displayWidth cs + 1⟩ := by
    rw [hfile]
    exact h.place
  have hsnippet : SourceMap.snippet [⟨name, source⟩] d.file d.span =
      (⟨name, source⟩ : SourceFile).snippet d.span := by
    rw [hfile]
    rfl
  have hblock : ∀ context, SourceMap.block [⟨name, source⟩] d.file d.span context =
      (⟨name, source⟩ : SourceFile).block d.span context := by
    rw [hfile]
    exact fun _ => rfl
  obtain ⟨hline, hcolumn, hbefore⟩ := h.snippet
  refine ⟨hplace, ?_, fun context => ?_, fun l => ?_, fun l => ?_⟩
  · rw [hsnippet, hbefore]
    exact ⟨hline, hcolumn, rfl⟩
  · obtain ⟨hnumber, hcolumn, hbefore⟩ := h.block context
    rw [hblock, hbefore]
    exact ⟨hnumber, hcolumn, rfl⟩
  · refine ⟨bytes d.severity.name ++ bytes "[" ++ bytes d.code.name ++ bytes "]: " ++
      d.message l, ?_⟩
    rw [Diagnostic.headline, hplace]
    simp only [List.append_assoc]
  · refine ⟨tail, ((⟨name, source⟩ : SourceFile).snippet d.span).width, ?_, ?_⟩
    · exact Nat.lt_of_lt_of_le Nat.one_pos (Nat.le_max_left _ _)
    · unfold Diagnostic.render underline
      dsimp only
      rw [hsnippet, hline, hbefore, htext]

end Diagnostic

/-- **Findings are shown where they are.** Every finding about a source lies in it. In a map that
holds the source alone, the line of the finding is counted by the line feeds before it, the column
by the characters between the last of them and the finding, and the carets stand below that
column. -/
theorem shown_analyze (options : AnalysisOptions) (path source name : Bytes) {d : Diagnostic}
    (hd : d ∈ (analyze options path source).found) :
    d.span.lo ≤ d.span.hi ∧ d.span.hi ≤ source.length ∧
      ∃ cs, LineFront source d.span.lo cs ∧
        d.Shown [⟨name, source⟩] ((source.take d.span.lo).count Byte.lineFeed + 1) cs := by
  obtain ⟨hfile, hle, hwithin, hfront⟩ := placed_analyze options path source d hd
  obtain ⟨cs, hcs, hmarks⟩ := SourceFile.exists_marks (f := ⟨name, source⟩)
    (Nat.le_trans hle hwithin) hfront
  exact ⟨hle, hwithin, cs, hcs, d.shown_of_marks name hfile hmarks⟩

/-- A bracket that nothing opens, behind a comment with a character of two bytes, one of three bytes
and two columns, and a tab. -/
def wideSource : Bytes := bytes "// 첫 줄\n/* é가\t */ )"

/-- Thirteen bytes and eleven columns stand before the bracket. -/
theorem shown_analyze_wideSource :
    ∃ d ∈ (analyze {} (bytes "a.ts") wideSource).found, d.span = ⟨24, 25⟩ ∧
      ∃ cs, LineFront wideSource 24 cs ∧ displayWidth cs = 11 ∧
        d.Shown [⟨bytes "a.ts", wideSource⟩] 2 cs := by
  have hd : (⟨.error, .unbalancedDelimiter, 0, ⟨24, 25⟩, [bytes ")"]⟩ : Diagnostic) ∈
      (analyze {} (bytes "a.ts") wideSource).found := by decide +kernel
  obtain ⟨-, -, cs, hcs, hshown⟩ := shown_analyze {} (bytes "a.ts") wideSource (bytes "a.ts") hd
  have hplace : SourceMap.lineColumn [⟨bytes "a.ts", wideSource⟩] 0 24 = ⟨2, 12⟩ := by
    decide +kernel
  obtain ⟨hline, hcolumn⟩ := LineColumn.mk.inj (hplace.symm.trans hshown.place)
  exact ⟨_, hd, rfl, cs, hcs, (Nat.succ.inj hcolumn).symm, hline ▸ hshown⟩

end SignatureLedger
