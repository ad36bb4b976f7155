import SignatureLedger.Proofs.Declaration.Names
import SignatureLedger.Proofs.Signature.Collapse
import SignatureLedger.Proofs.Token.Words

/-!
# Names of symbols

The name of a symbol is what the namespaces around it add, which can be any text, and then an
identifier (`endsInWord_of_mem_signatures`). So it is never empty, and its last byte is one that
continues an identifier.
-/

namespace SignatureLedger

/-- The name ends with an identifier. -/
def EndsInWord (name : Bytes) : Prop := ∃ qualifier w, name = qualifier ++ w ∧ IsIdentText w

namespace EndsInWord

variable {name : Bytes}

/-- A text that ends in a word is not empty. -/
theorem ne_nil (h : EndsInWord name) : name ≠ [] := by
  obtain ⟨qualifier, w, rfl, hw⟩ := h
  exact List.append_ne_nil_of_right_ne_nil qualifier hw.ne_nil

/-- The last byte of such a text continues a word, so it is none that does not. -/
theorem getLast?_ne (h : EndsInWord name) {b : UInt8} (hb : Token.continuesIdent b = false) :
    name.getLast? ≠ some b := by
  obtain ⟨qualifier, w, rfl, hw⟩ := h
  rw [List.getLast?_append_of_ne_nil _ hw.ne_nil]
  exact fun hlast => hw.not_mem hb (List.mem_of_getLast? hlast)

end EndsInWord

/-! ## Offers -/

section Offers

variable {source : Bytes} {policy : VariablePolicy} {around : Surroundings} {o : Offer}

/-- An offer carries the qualified name and the place of the name, and no pattern makes one. -/
theorem parts_of_offer? {h : DeclHead} {form : DeclForm}
    (ho : form.offer? source policy around h = some o) :
    o.symbol.name = h.qualifiedName around ∧ o.nameSpan = h.remarkSpan ∧
      ∀ word, form ≠ .variableForm word true := by
  unfold DeclForm.offer? at ho
  cases form with
  | variableForm word isPattern =>
    dsimp only at ho
    split at ho
    · exact absurd ho (by simp)
    · rename_i hnamed
      split at ho
      · obtain rfl := Option.some.inj ho
        exact ⟨rfl, rfl, by rintro word' ⟨⟩; simp at hnamed⟩
      · exact absurd ho (by simp)
  | _ =>
    dsimp only at ho
    split at ho
    · obtain rfl := Option.some.inj ho
      exact ⟨rfl, rfl, fun _ => by simp⟩
    · exact absurd ho (by simp)

/-- The word `default` is an identifier. -/
theorem isIdentText_default : IsIdentText (bytes "default") :=
  ⟨by decide +kernel, by decide +kernel⟩

/-- A named declaration is offered under an identifier behind its qualifiers. -/
theorem endsInWord_of_offer? {h : DeclHead} {form : DeclForm}
    (hnamed : (Decl.item h form).Named IsIdentText)
    (ho : form.offer? source policy around h = some o) : EndsInWord o.symbol.name := by
  obtain ⟨hname, -, hpattern⟩ := parts_of_offer? ho
  rw [hname, DeclHead.qualifiedName]
  cases hnamed with
  | word hw =>
    have hempty : h.name.isEmpty = false := List.isEmpty_eq_false_iff.mpr hw.ne_nil
    exact ⟨around.path, h.name, by rw [hempty]; rfl, hw⟩
  | anonymous hnil hdefault =>
    exact ⟨around.path, bytes "default", by simp [hnil, hdefault], isIdentText_default⟩
  | pattern => exact absurd rfl (hpattern _)

/-- Every offer of a list comes from one of its declarations. -/
theorem mem_offersOfAll {ds : List Decl} (ho : o ∈ Decl.offersOfAll source policy around ds) :
    ∃ d ∈ ds, o ∈ d.offers source policy around := by
  induction ds with
  | nil =>
    rw [Decl.offersOfAll] at ho
    exact absurd ho List.not_mem_nil
  | cons d ds ih =>
    rw [Decl.offersOfAll] at ho
    rcases List.mem_append.mp ho with ho | ho
    · exact ⟨d, List.mem_cons_self, ho⟩
    · obtain ⟨e, he, ho⟩ := ih ho
      exact ⟨e, List.mem_cons_of_mem d he, ho⟩

/-- If the declarations are named by identifiers, every recorded name ends in one. -/
theorem endsInWord_of_mem_offers {d : Decl} (hnamed : d.Named IsIdentText)
    (ho : o ∈ d.offers source policy around) : EndsInWord o.symbol.name := by
  induction hnamed generalizing around with
  | space hchildren ih =>
    rw [Decl.offers] at ho
    split at ho
    · exact absurd ho List.not_mem_nil
    · obtain ⟨d, hd, ho⟩ := mem_offersOfAll ho
      exact ih d hd ho
  | word hw =>
    rw [Decl.offers, Option.mem_toList] at ho
    exact endsInWord_of_offer? (.word hw) ho
  | anonymous hnil hdefault =>
    rw [Decl.offers, Option.mem_toList] at ho
    exact endsInWord_of_offer? (.anonymous hnil hdefault) ho
  | pattern =>
    rw [Decl.offers, Option.mem_toList] at ho
    exact endsInWord_of_offer? .pattern ho

end Offers

/-! ## Symbols of a source -/

variable {options : AnalysisOptions} {path source : Bytes} {s : Signature}

/-- Every signature comes from an offer, its text in normal form. -/
theorem exists_offer_of_mem_signatures (hs : s ∈ (analyze options path source).signatures) :
    ∃ o ∈ Decl.offersOfAll source options.policy {} (Analysis.decls options path source),
      s = { o.symbol.signature with text := normalize o.symbol.signature.text } := by
  rw [Analysis.signatures, Analysis.symbols_analyze, List.map_map] at hs
  obtain ⟨t, ht, rfl⟩ := List.mem_map.mp hs
  obtain ⟨o, ho, rfl⟩ := mem_collapse ht
  exact ⟨o, ho, rfl⟩

/-- **The name of a symbol ends with an identifier.** -/
theorem endsInWord_of_mem_signatures (hs : s ∈ (analyze options path source).signatures) :
    EndsInWord s.name := by
  obtain ⟨o, ho, rfl⟩ := exists_offer_of_mem_signatures hs
  obtain ⟨d, hd, ho⟩ := mem_offersOfAll ho
  exact endsInWord_of_mem_offers
    (named_parseModule (fun t ht => isIdentText_of_mem_lex ht) _ _ _ d hd) ho

end SignatureLedger
