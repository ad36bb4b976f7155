import SignatureLedger.Analysis
import SignatureLedger.Proofs.Signature.Akin
import SignatureLedger.Proofs.Signature.Formatting

/-!
# Declarations that offer the same

Declarations of two sources offer the same if their names and kinds agree and their texts are akin.
Then the exported symbols of both sources have the same signatures in normal form, wherever the
declarations stand (`Views.signatures_eq`).
-/

namespace SignatureLedger

open SignatureLedger.Normal

/-! ## Names of namespaces -/

mutual

/-- Where the names of the namespaces in a declaration stand. -/
def Decl.spaceNames : Decl → List Span
  | .item _ _ => []
  | .space h _ children => h.nameSpan :: Decl.spaceNamesOfAll children

/-- Where the names of the namespaces of a list stand. -/
def Decl.spaceNamesOfAll : List Decl → List Span
  | [] => []
  | d :: ds => d.spaceNames ++ Decl.spaceNamesOfAll ds

end

/-- The names of two lists of declarations put together. -/
theorem Decl.spaceNamesOfAll_append (ds es : List Decl) :
    spaceNamesOfAll (ds ++ es) = spaceNamesOfAll ds ++ spaceNamesOfAll es := by
  induction ds with
  | nil => rfl
  | cons d ds ih => rw [List.cons_append, spaceNamesOfAll, spaceNamesOfAll, ih, List.append_assoc]

/-- The offers of two lists of declarations put together. -/
theorem Decl.offersOfAll_append (source : Bytes) (policy : VariablePolicy) (around : Surroundings)
    (ds es : List Decl) : offersOfAll source policy around (ds ++ es)
      = offersOfAll source policy around ds ++ offersOfAll source policy around es := by
  induction ds with
  | nil => rfl
  | cons d ds ih => rw [List.cons_append, offersOfAll, offersOfAll, ih, List.append_assoc]

/-! ## Two sources -/

/-- Two sources, and the names of namespaces in each that may be compared. -/
structure Views where
  source : Bytes
  source' : Bytes
  fits : Span → Prop
  fits' : Span → Prop

/-- The signature of an offer in normal form. -/
def Offer.normalized (o : Offer) : Signature := o.symbol.normalized.signature

namespace Views

variable {V : Views}

/-- The stretches of the two sources are akin. -/
def AkinAt (V : Views) (s s' : Span) : Prop :=
  Akin (V.source.slice s.lo s.hi) (V.source'.slice s'.lo s'.hi)

/-- The members are both part of what their classes offer, with akin texts, or neither is. -/
structure SameMember (V : Views) (m m' : Member) : Prop where
  isPublic : m'.isPublic = m.isPublic
  text : m.isPublic = true → NearlyAkin (m.text V.source) (m'.text V.source')

/-- What is special to the kinds of the two declarations agrees. Of a function only the text in
front of its body is compared. -/
inductive SameForm (V : Views) (h h' : DeclHead) : DeclForm → DeclForm → Prop
  | function {isAsync isGenerator isAsync' isGenerator' : Bool}
      (htext : NearlyAkin (V.source.slice h.span.lo (h.body?.getD h.span.hi))
        (V.source'.slice h'.span.lo (h'.body?.getD h'.span.hi))) :
      SameForm V h h' (.function isAsync isGenerator) (.function isAsync' isGenerator')
  | classForm {isAbstract isAbstract' : Bool} {ms ms' : List Member}
      (hparams : Option.Rel V.AkinAt h.typeParams? h'.typeParams?)
      (hmembers : List.Forall₂ V.SameMember ms ms') :
      SameForm V h h' (.classForm isAbstract ms) (.classForm isAbstract' ms')
  | interfaceForm (htext : V.AkinAt h.span h'.span) : SameForm V h h' .interfaceForm .interfaceForm
  | typeAlias (htext : V.AkinAt h.span h'.span) : SameForm V h h' .typeAlias .typeAlias
  | enumForm (htext : V.AkinAt h.span h'.span) : SameForm V h h' .enumForm .enumForm
  | variableForm {word : VarKeyword} {isPattern : Bool} (htext : V.AkinAt h.span h'.span) :
      SameForm V h h' (.variableForm word isPattern) (.variableForm word isPattern)

/-- Wherever the declarations stand, they offer the same, if the names of their namespaces may be
compared. -/
def SameOffers (V : Views) (ds ds' : List Decl) : Prop :=
  (∀ s ∈ Decl.spaceNamesOfAll ds, V.fits s) → (∀ s ∈ Decl.spaceNamesOfAll ds', V.fits' s) →
    ∀ policy around, (Decl.offersOfAll V.source policy around ds).map Offer.normalized
      = (Decl.offersOfAll V.source' policy around ds').map Offer.normalized

/-! ### Classes -/

/-- Members that are made of the same parts. Which of these make up its text depends on its kind. -/
theorem SameMember.of_parts {m m' : Member} (hkind : m'.kind = m.kind)
    (hmodifiers : m'.modifiers = m.modifiers) (hnameKind : m'.nameKind = m.nameKind)
    (hfirst : m'.name.head? = m.name.head?) (hname : Akin m.name m'.name)
    (hoptional : m'.isOptional = m.isOptional) (htype : Option.Rel V.AkinAt m.type? m'.type?)
    (htext : NearlyAkin (V.source.slice m.span.lo (m.body?.getD m.span.hi))
      (V.source'.slice m'.span.lo (m'.body?.getD m'.span.hi))) : V.SameMember m m' := by
  constructor
  · rw [Member.isPublic, Member.isPublic, hkind, hmodifiers, hnameKind, hfirst]
  · intro _
    unfold Member.text
    rw [hkind, hmodifiers, hoptional]
    -- a property is put together from its parts, any other member is taken from the source
    cases m.kind with
    | property | indexSignature =>
      refine Akin.nearly
        (((((Akin.refl _).append hname).append (.refl _)).append (.refl _)).append ?_)
      generalize m.type? = s at htype ⊢
      generalize m'.type? = s' at htype ⊢
      cases htype with
      | none => exact .refl _
      | some hs => exact hs
    | staticBlock => exact (Akin.refl _).nearly
    | method | getter | setter | constructor => exact htext

/-- Public members that are the same give texts that are nearly akin. -/
theorem SameMember.texts {ms ms' : List Member} (h : List.Forall₂ V.SameMember ms ms') :
    List.Forall₂ NearlyAkin ((ms.filter Member.isPublic).map (Member.text V.source))
      ((ms'.filter Member.isPublic).map (Member.text V.source')) := by
  induction h with
  | nil => exact .nil
  | @cons m m' ms ms' hm hms ih =>
    by_cases hpublic : m.isPublic = true
    · rw [List.filter_cons_of_pos hpublic, List.filter_cons_of_pos (hm.isPublic.trans hpublic)]
      exact .cons (hm.text hpublic) ih
    · rw [List.filter_cons_of_neg hpublic,
        List.filter_cons_of_neg (by rw [hm.isPublic]; exact hpublic)]
      exact ih

/-- Two classes with the same members, behind the same name and parameters, have texts that are
alike. -/
theorem alike_classText {ms ms' : List Member} {s? s'? : Option Span} (name : Bytes)
    (hparams : Option.Rel V.AkinAt s? s'?) (hmembers : List.Forall₂ V.SameMember ms ms') :
    AlikeAnywhere (classText V.source name s? ms) (classText V.source' name s'? ms') := by
  have hwhole : ∀ {x y : Bytes}, Akin x y →
      AlikeAnywhere
        (bytes "class " ++ name ++ x ++ bytes " \x7b " ++
          Bytes.join (bytes "; ") ((ms.filter Member.isPublic).map (Member.text V.source))
          ++ bytes " \x7d")
        (bytes "class " ++ name ++ y ++ bytes " \x7b " ++
          Bytes.join (bytes "; ") ((ms'.filter Member.isPublic).map (Member.text V.source'))
          ++ bytes " \x7d") := by
    intro x y hxy
    rw [List.append_assoc, List.append_assoc _ _ (bytes " \x7d")]
    exact ((Akin.refl _).append hxy).append (.refl _) _ _ (.members (SameMember.texts hmembers))
  cases hparams with
  | none => exact hwhole (.refl [])
  | some hs => exact hwhole hs

/-! ### Declarations -/

/-- Texts that are alike in every place have the same normal form. -/
theorem normalize_eq_of_alikeAnywhere {s t : Bytes} (h : AlikeAnywhere s t) :
    normalize s = normalize t := (h none).normalize_eq

/-- No declarations make the same offers as none. -/
theorem SameOffers.nil : V.SameOffers [] [] := fun _ _ _ _ => rfl

/-- Lists put together from parts with the same offers have the same offers. -/
theorem SameOffers.append {ds ds' es es' : List Decl} (h : V.SameOffers ds ds')
    (he : V.SameOffers es es') : V.SameOffers (ds ++ es) (ds' ++ es') := by
  intro hfits hfits' policy around
  rw [Decl.spaceNamesOfAll_append] at hfits hfits'
  rw [Decl.offersOfAll_append, Decl.offersOfAll_append, List.map_append, List.map_append,
    h (fun s hs => hfits s (List.mem_append_left _ hs))
      (fun s hs => hfits' s (List.mem_append_left _ hs)),
    he (fun s hs => hfits s (List.mem_append_right _ hs))
      (fun s hs => hfits' s (List.mem_append_right _ hs))]

/-- The same form behind the same head makes the same offer, once its text is normalized. -/
theorem map_offer? {h h' : DeclHead} {form form' : DeclForm} (hexported : h'.exported = h.exported)
    (hname : h'.name = h.name) (hform : V.SameForm h h' form form') (policy : VariablePolicy)
    (around : Surroundings) :
    (form.offer? V.source policy around h).map Offer.normalized
      = (form'.offer? V.source' policy around h').map Offer.normalized := by
  have hqualified : h'.qualifiedName around = h.qualifiedName around := by
    rw [DeclHead.qualifiedName, DeclHead.qualifiedName, hname, hexported]
  have hoffered : h'.isOffered around = h.isOffered around := by
    rw [DeclHead.isOffered, DeclHead.isOffered, hexported]
  -- name and kind are the same, and the texts have one normal form
  cases hform with
  | function htext =>
    have := normalize_eq_of_alikeAnywhere htext.alikeAnywhere
    by_cases he : h.isOffered around = true <;>
      simp [DeclForm.offer?, hoffered, he, Offer.normalized, Symbol.normalized, hqualified, this]
  | classForm hparams hmembers =>
    have := normalize_eq_of_alikeAnywhere
      (alike_classText (h.qualifiedName around) hparams hmembers)
    by_cases he : h.isOffered around = true <;>
      simp [DeclForm.offer?, hoffered, he, Offer.normalized, Symbol.normalized, hqualified, this]
  | interfaceForm htext | typeAlias htext | enumForm htext =>
    have := normalize_eq_of_alikeAnywhere htext.alikeAnywhere
    by_cases he : h.isOffered around = true <;>
      simp [DeclForm.offer?, hoffered, he, Offer.normalized, Symbol.normalized, hqualified, this]
  | @variableForm word isPattern htext =>
    have htexts := normalize_eq_of_alikeAnywhere htext.alikeAnywhere
    unfold DeclForm.offer?
    dsimp only
    rw [hname, hoffered]
    split
    · rfl
    · split
      · simp [Offer.normalized, Symbol.normalized, hqualified, htexts]
      · rfl

/-- One declaration of the same form makes the same offers. -/
theorem SameOffers.item {h h' : DeclHead} {form form' : DeclForm}
    (hexported : h'.exported = h.exported) (hname : h'.name = h.name)
    (hform : V.SameForm h h' form form') : V.SameOffers [.item h form] [.item h' form'] := by
  intro _ _ policy around
  have hmap := congrArg Option.toList (map_offer? hexported hname hform policy around)
  simp only [Decl.offersOfAll, Decl.offers, List.append_nil, ← Option.toList_map]
  exact hmap

/-- A namespace with the same name makes the same offers if its members do. -/
theorem SameOffers.space {h h' : DeclHead} {isGlobal : Bool} {children children' : List Decl}
    (hexported : h'.exported = h.exported)
    (hname : V.fits h.nameSpan → V.fits' h'.nameSpan → h'.name = h.name)
    (hchildren : V.SameOffers children children') :
    V.SameOffers [.space h isGlobal children] [.space h' isGlobal children'] := by
  intro hfits hfits' policy around
  simp only [Decl.spaceNamesOfAll, Decl.spaceNames, List.append_nil, List.mem_cons] at hfits hfits'
  have heq := hname (hfits _ (.inl rfl)) (hfits' _ (.inl rfl))
  have hqualified : h'.qualifiedName around = h.qualifiedName around := by
    rw [DeclHead.qualifiedName, DeclHead.qualifiedName, heq, hexported]
  have hoffered : h'.isOffered around = h.isOffered around := by
    rw [DeclHead.isOffered, DeclHead.isOffered, hexported]
  simp only [Decl.offersOfAll, Decl.offers, List.append_nil]
  rw [hqualified, hoffered]
  split
  · rfl
  · exact hchildren (fun s hs => hfits s (.inr hs)) (fun s hs => hfits' s (.inr hs)) _ _

end Views

/-! ## Exported symbols -/

namespace Signature

/-- Adds a signature to others: at the end, or in the place of the one that has its name. -/
def addTo (l : List Signature) (x : Signature) : List Signature :=
  if l.any (·.name == x.name) then l.map fun s => if s.name == x.name then x else s else l ++ [x]

end Signature

/-- The signatures of symbols in normal form. -/
def normalForms (symbols : List Symbol) : List Signature :=
  symbols.map fun s => s.normalized.signature

/-- Collapsing needs to know the signatures in normal form only. Whether an offer is new depends on
its name, and the normal form leaves that as it is. -/
theorem normalForms_add (e : Extracted) (o : Offer) :
    normalForms (e.add o).symbols = Signature.addTo (normalForms e.symbols) o.normalized := by
  have hany : (normalForms e.symbols).any (·.name == o.normalized.name)
      = e.symbols.any (·.name == o.symbol.name) := List.any_map
  unfold Extracted.add Signature.addTo
  rw [hany]
  cases hfind : e.symbols.find? (·.name == o.symbol.name) with
  | none =>
    have hno : e.symbols.any (·.name == o.symbol.name) = false := by
      rw [List.any_eq_false]
      exact List.find?_eq_none.mp hfind
    rw [hno]
    exact List.map_append
  | some old =>
    have hold : e.symbols.any (·.name == o.symbol.name) = true :=
      List.any_eq_true.mpr ⟨old, List.mem_of_find?_eq_some hfind,
        List.find?_some (p := fun s : Symbol => s.name == o.symbol.name) hfind⟩
    rw [hold, if_pos rfl]
    dsimp only [normalForms]
    rw [List.map_map, List.map_map]
    refine List.map_congr_left fun s _ => ?_
    dsimp only [Function.comp_apply]
    rw [apply_ite fun s : Symbol => s.normalized.signature]
    rfl

/-- The normal forms of the collapsed offers are those of all the offers, recorded one by one. -/
theorem normalForms_collapse (offers : List Offer) :
    normalForms (collapse offers).symbols
      = (offers.map Offer.normalized).foldl Signature.addTo [] := by
  have hfold : ∀ e : Extracted, normalForms (offers.foldl Extracted.add e).symbols
      = (offers.map Offer.normalized).foldl Signature.addTo (normalForms e.symbols) := by
    induction offers with
    | nil => exact fun _ => rfl
    | cons o offers ih =>
      intro e
      rw [List.foldl_cons, ih, normalForms_add, List.map_cons, List.foldl_cons]
  exact hfold {}

/-- **The same offers, the same signatures.** -/
theorem Views.SameOffers.normalForms_eq {V : Views} {ds ds' : List Decl} (h : V.SameOffers ds ds')
    (hfits : ∀ s ∈ Decl.spaceNamesOfAll ds, V.fits s)
    (hfits' : ∀ s ∈ Decl.spaceNamesOfAll ds', V.fits' s) (policy : VariablePolicy) :
    normalForms (extract V.source policy ds).symbols
      = normalForms (extract V.source' policy ds').symbols := by
  rw [extract, extract, normalForms_collapse, normalForms_collapse, h hfits hfits']

end SignatureLedger
