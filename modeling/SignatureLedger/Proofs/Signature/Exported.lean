import SignatureLedger.Signature.Extract

/-!
# Which declarations are offered

`Decl.offers` goes down the tree with what it knows about the way so far: whether all namespaces on
it are exported, whether it is still at the top, and the path of names. Here a forest is cut into
its declarations with the whole list of namespaces around each of them (`Decl.placedOfAll`), and
being recorded is a condition on this list. The main statement is that the extraction filters the
declarations by this condition and keeps their order (`offersOfAll_eq`).
-/

namespace SignatureLedger

/-! ## Declarations in their places -/

/-- A namespace around a declaration. -/
structure Enclosing where
  head : DeclHead
  isGlobal : Bool

/-- A declaration that is no namespace, and the namespaces around it, the outermost first. -/
structure Placed where
  around : List Enclosing
  head : DeclHead
  form : DeclForm

mutual

/-- The declarations that are no namespaces, in source order; `around` is around all of them. -/
def Decl.placed (around : List Enclosing) : Decl → List Placed
  | .item h form => [⟨around, h, form⟩]
  | .space h isGlobal children => Decl.placedOfAll (around ++ [⟨h, isGlobal⟩]) children

/-- All declarations of a list with what encloses them, each before its own members. -/
def Decl.placedOfAll (around : List Enclosing) : List Decl → List Placed
  | [] => []
  | d :: ds => d.placed around ++ Decl.placedOfAll around ds

end

mutual

/-- What is in a namespace has it around itself. -/
theorem Decl.prefix_of_mem_placed {around : List Enclosing} :
    ∀ {d : Decl} {x : Placed}, x ∈ d.placed around → around <+: x.around
  | .item h form, x, hx => by
    rw [Decl.placed, List.mem_singleton] at hx
    exact hx ▸ List.prefix_refl around
  | .space h isGlobal children, x, hx => by
    rw [Decl.placed] at hx
    exact (List.prefix_append _ _).trans (Decl.prefix_of_mem_placedOfAll hx)

/-- What encloses a declaration encloses everything found below it. -/
theorem Decl.prefix_of_mem_placedOfAll {around : List Enclosing} :
    ∀ {ds : List Decl} {x : Placed}, x ∈ Decl.placedOfAll around ds → around <+: x.around
  | [], x, hx => absurd hx (by simp [Decl.placedOfAll])
  | d :: ds, x, hx => by
    rw [Decl.placedOfAll, List.mem_append] at hx
    rcases hx with hx | hx
    · exact Decl.prefix_of_mem_placed hx
    · exact Decl.prefix_of_mem_placedOfAll hx

end

/-! ## What is recorded -/

/-- The name of a declaration by itself; an anonymous default export is called `default`. -/
def DeclHead.ownName (h : DeclHead) : Bytes :=
  if h.name.isEmpty && h.exported = .asDefault then bytes "default" else h.name

namespace DeclForm

/-- The form is that of a declared variable. -/
def isVariable : DeclForm → Bool
  | variableForm _ _ => true
  | _ => false

/-- The variable is declared by a destructuring pattern. -/
def isPattern : DeclForm → Bool
  | variableForm _ isPattern => isPattern
  | _ => false

/-- The kind under which a declaration of this form is recorded. -/
def symbolKind : DeclForm → SymbolKind
  | function _ _ => .function
  | classForm _ _ => .classKind
  | interfaceForm => .interfaceKind
  | typeAlias => .typeAlias
  | enumForm => .enumKind
  | variableForm .constWord _ => .const
  | variableForm _ _ => .variableKind

/-- The text of a declaration with the qualified name `name`. -/
def symbolText (source name : Bytes) (h : DeclHead) : DeclForm → Bytes
  | function _ _ => source.slice h.span.lo (h.body?.getD h.span.hi)
  | classForm _ members => classText source name h.typeParams? members
  | _ => source.slice h.span.lo h.span.hi

end DeclForm

namespace Placed

/-- The declaration and all namespaces around it are exported, and none of these adds to the global
scope. -/
structure IsExported (d : Placed) : Prop where
  own : d.head.exported ≠ .none
  around : ∀ s ∈ d.around, s.head.exported ≠ .none ∧ s.isGlobal = false

instance (d : Placed) : Decidable d.IsExported :=
  decidable_of_iff (_ ∧ _) ⟨fun ⟨hown, haround⟩ => ⟨hown, haround⟩, fun h => ⟨h.own, h.around⟩⟩

/-- A declaration is recorded if it is exported, or if it is a variable at the top of the module and
the policy takes all of these. A variable needs a name of its own. -/
structure IsRecorded (policy : VariablePolicy) (d : Placed) : Prop where
  counts : d.IsExported ∨ (policy = .allTopLevel ∧ d.form.isVariable = true ∧ d.around = [])
  named : d.form.isVariable = true → d.form.isPattern = false ∧ d.head.name ≠ []

instance (policy : VariablePolicy) (d : Placed) : Decidable (d.IsRecorded policy) :=
  decidable_of_iff
    ((d.IsExported ∨ (policy = .allTopLevel ∧ d.form.isVariable = true ∧ d.around.isEmpty = true)) ∧
      (d.form.isVariable = true → d.form.isPattern = false ∧ d.head.name ≠ []))
    ⟨fun ⟨hcounts, hnamed⟩ => ⟨by simpa using hcounts, hnamed⟩,
      fun h => ⟨by simpa using h.counts, h.named⟩⟩

/-- The names of the namespaces around and the own name, joined with dots. -/
def name (d : Placed) : Bytes :=
  Bytes.join [Byte.dot] (d.around.map (·.head.ownName) ++ [d.head.ownName])

/-- What is recorded of a declaration. -/
def offer (source : Bytes) (d : Placed) : Offer where
  symbol :=
    { signature :=
        { name := d.name, kind := d.form.symbolKind,
          text := d.form.symbolText source d.name d.head }
      span := d.head.span }
  nameSpan := d.head.remarkSpan

end Placed

/-! ## The way down the tree -/

/-- What the extraction knows below these namespaces. -/
def Surroundings.below (around : List Enclosing) : Surroundings where
  reachable := around.all (·.head.exported ≠ .none)
  atTop := around.isEmpty
  path := around.flatMap (·.head.ownName ++ [Byte.dot])

/-- At the top level nothing surrounds a declaration. -/
theorem Surroundings.below_nil : Surroundings.below [] = {} := rfl

/-- One namespace further down. -/
theorem Surroundings.below_concat (around : List Enclosing) (h : DeclHead) (isGlobal : Bool) :
    Surroundings.below (around ++ [⟨h, isGlobal⟩]) =
      ⟨h.isOffered (.below around), false, h.qualifiedName (.below around) ++ [Byte.dot]⟩ := by
  have hname : h.qualifiedName (.below around) = (Surroundings.below around).path ++ h.ownName :=
    rfl
  rw [Surroundings.below, DeclHead.isOffered, hname]
  simp [Surroundings.below, Bool.and_comm]

/-- Joining puts a dot behind every part but the last. -/
theorem Bytes.join_concat (sep : Bytes) (xs : List Bytes) (x : Bytes) :
    Bytes.join sep (xs ++ [x]) = xs.flatMap (· ++ sep) ++ x := by
  induction xs with
  | nil => rfl
  | cons y xs ih =>
    have hne : xs ++ [x] ≠ [] := by simp
    obtain ⟨z, zs, hzs⟩ := List.exists_cons_of_ne_nil hne
    rw [hzs] at ih
    rw [List.cons_append, hzs, Bytes.join, ih, List.flatMap_cons, List.append_assoc,
      List.append_assoc, List.append_assoc]
    exact List.cons_ne_nil z zs

/-- The recorded name is the head's, qualified by the enclosing names. -/
theorem Placed.name_eq (d : Placed) :
    d.name = d.head.qualifiedName (.below d.around) := by
  rw [Placed.name, Bytes.join_concat, List.flatMap_map]
  rfl

/-- The flags stand for the whole way, if it adds nothing to the global scope. -/
theorem Placed.isOffered_iff {d : Placed} (hlocal : ∀ s ∈ d.around, s.isGlobal = false) :
    d.head.isOffered (.below d.around) = true ↔ d.IsExported := by
  rw [DeclHead.isOffered, Surroundings.below, Bool.and_eq_true, decide_eq_true_eq, List.all_eq_true]
  constructor
  · rintro ⟨hown, haround⟩
    exact ⟨hown, fun s hs => ⟨by simpa using haround s hs, hlocal s hs⟩⟩
  · rintro ⟨hown, haround⟩
    exact ⟨hown, fun s hs => by simpa using (haround s hs).1⟩

/-- Any declaration but a variable is recorded if it is exported. -/
theorem Placed.isRecorded_iff_of_not_isVariable {d : Placed} (h : d.form.isVariable = false)
    (policy : VariablePolicy) : d.IsRecorded policy ↔ d.IsExported := by
  constructor
  · intro hrecorded
    rcases hrecorded.counts with hexported | ⟨-, hvariable, -⟩
    · exact hexported
    · exact absurd (h.symm.trans hvariable) (by simp)
  · intro hexported
    exact ⟨.inl hexported, fun hvariable => absurd (h.symm.trans hvariable) (by simp)⟩

/-- A declaration that is no variable makes its offer if the flags say so. -/
theorem Placed.offer?_of_not_isVariable {d : Placed} (h : d.form.isVariable = false)
    (source : Bytes) (policy : VariablePolicy) :
    d.form.offer? source policy (.below d.around) d.head =
      if d.head.isOffered (.below d.around) then some (d.offer source) else none := by
  rw [offer, name_eq]
  cases hform : d.form with
  | variableForm word isPattern => exact absurd h (by simp [hform, DeclForm.isVariable])
  | _ => rfl

/-- A variable makes its offer if it has a name, and if the flags or the policy say so. -/
theorem Placed.offer?_of_variableForm {d : Placed} {word : VarKeyword} {isPattern : Bool}
    (h : d.form = .variableForm word isPattern) (source : Bytes) (policy : VariablePolicy) :
    d.form.offer? source policy (.below d.around) d.head =
      if isPattern || d.head.name.isEmpty then none
      else if d.head.isOffered (.below d.around) || (policy = .allTopLevel && d.around.isEmpty) then
        some (d.offer source)
      else none := by
  rw [offer, name_eq, h]
  cases word <;> rfl

/-- **One declaration.** It makes its offer if it is recorded, and none otherwise. -/
theorem Placed.offer?_eq {d : Placed} (hlocal : ∀ s ∈ d.around, s.isGlobal = false)
    (source : Bytes) (policy : VariablePolicy) :
    d.form.offer? source policy (.below d.around) d.head =
      if d.IsRecorded policy then some (d.offer source) else none := by
  have hoffered := isOffered_iff hlocal
  cases hvariable : d.form.isVariable with
  | false =>
    rw [offer?_of_not_isVariable hvariable]
    simp only [hoffered, isRecorded_iff_of_not_isVariable hvariable]
  | true =>
    obtain ⟨word, isPattern, hform⟩ : ∃ word isPattern, d.form = .variableForm word isPattern := by
      cases hform : d.form with
      | variableForm word isPattern => exact ⟨word, isPattern, rfl⟩
      | _ => exact absurd hvariable (by simp [hform, DeclForm.isVariable])
    have hpattern : d.form.isPattern = isPattern := by rw [hform]; rfl
    rw [offer?_of_variableForm hform]
    split
    · rename_i hunnamed
      rw [if_neg]
      intro hrecorded
      obtain ⟨hno, hname⟩ := hrecorded.named hvariable
      simp [← hpattern, hno, hname] at hunnamed
    · rename_i hnamed
      rw [Bool.or_eq_true, not_or, Bool.not_eq_true, List.isEmpty_iff] at hnamed
      have hcounts : (d.head.isOffered (.below d.around) ||
          (policy = .allTopLevel && d.around.isEmpty)) = true ↔ d.IsRecorded policy := by
        rw [Bool.or_eq_true, hoffered, Bool.and_eq_true, decide_eq_true_eq, List.isEmpty_iff]
        constructor
        · intro h
          refine ⟨h.imp_right fun ⟨hpolicy, htop⟩ => ⟨hpolicy, hvariable, htop⟩, fun _ => ?_⟩
          exact ⟨hpattern.trans hnamed.1, hnamed.2⟩
        · exact fun h => h.counts.imp_right fun ⟨hpolicy, _, htop⟩ => ⟨hpolicy, htop⟩
      simp only [hcounts]

/-! ## The whole forest -/

/-- Nothing is recorded below a namespace that adds to the global scope. -/
theorem Decl.filter_placedOfAll_of_isGlobal {around : List Enclosing} {s : Enclosing}
    (hs : s ∈ around) (hglobal : s.isGlobal = true) (policy : VariablePolicy) (ds : List Decl) :
    (Decl.placedOfAll around ds).filter (Placed.IsRecorded policy ·) = [] := by
  rw [List.filter_eq_nil_iff]
  intro x hx hrecorded
  have hmem : s ∈ x.around := (Decl.prefix_of_mem_placedOfAll hx).subset hs
  rcases (of_decide_eq_true hrecorded).counts with hexported | ⟨-, -, htop⟩
  · exact absurd ((hexported.around s hmem).2.symm.trans hglobal) (by simp)
  · rw [htop] at hmem
    exact absurd hmem List.not_mem_nil

mutual

/-- The offers of a declaration are those of the recorded declarations in it. What stands in a
global namespace is never recorded, and it makes no offer either. -/
theorem Decl.offers_eq {around : List Enclosing} (hlocal : ∀ s ∈ around, s.isGlobal = false)
    (source : Bytes) (policy : VariablePolicy) :
    ∀ d : Decl, d.offers source policy (.below around) =
      ((d.placed around).filter (Placed.IsRecorded policy ·)).map (Placed.offer source)
  | .item h form => by
    have hoffer := Placed.offer?_eq (d := ⟨around, h, form⟩) hlocal source policy
    rw [Decl.offers, Decl.placed, hoffer]
    split
    · rename_i hrecorded
      rw [List.filter_cons_of_pos (by simpa using hrecorded)]
      rfl
    · rename_i hno
      rw [List.filter_cons_of_neg (by simpa using hno)]
      rfl
  | .space h true children => by
    rw [Decl.offers, if_pos rfl, Decl.placed,
      Decl.filter_placedOfAll_of_isGlobal (List.mem_concat_self) rfl, List.map_nil]
  | .space h false children => by
    rw [Decl.offers, if_neg (by simp), Decl.placed, ← Surroundings.below_concat around h false]
    refine Decl.offersOfAll_below ?_ source policy children
    intro s hs
    rcases List.mem_append.mp hs with hs | hs
    · exact hlocal s hs
    · rw [List.mem_singleton.mp hs]

/-- Below local surroundings, the offers of a list are those of its recorded declarations, in order.
-/
theorem Decl.offersOfAll_below {around : List Enclosing}
    (hlocal : ∀ s ∈ around, s.isGlobal = false) (source : Bytes) (policy : VariablePolicy) :
    ∀ ds : List Decl, Decl.offersOfAll source policy (.below around) ds =
      ((Decl.placedOfAll around ds).filter (Placed.IsRecorded policy ·)).map (Placed.offer source)
  | [] => by rw [Decl.offersOfAll, Decl.placedOfAll, List.filter_nil, List.map_nil]
  | d :: ds => by
    rw [Decl.offersOfAll, Decl.placedOfAll, List.filter_append, List.map_append,
      Decl.offers_eq hlocal source policy d, Decl.offersOfAll_below hlocal source policy ds]

end

/-- **Export filtering is exact.** What is recorded of a module, in source order, are the
declarations that are exported together with all namespaces around them, none of which adds to the
global scope, and under the policy for it all variables at the top; variables need a name. Each is
recorded under its name with the names of the namespaces around it. -/
theorem offersOfAll_eq (source : Bytes) (policy : VariablePolicy) (decls : List Decl) :
    Decl.offersOfAll source policy {} decls =
      ((Decl.placedOfAll [] decls).filter (Placed.IsRecorded policy ·)).map
        (Placed.offer source) := by
  rw [← Surroundings.below_nil]
  exact Decl.offersOfAll_below (by simp) source policy decls

end SignatureLedger
