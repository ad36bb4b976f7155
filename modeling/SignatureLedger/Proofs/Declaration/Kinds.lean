import SignatureLedger.Proofs.Declaration.Reaches

/-!
# Kinds of declarations

A property that each kind of declaration has where it is read is a property of all the declarations
of a module (`EachKind.itemsFrom`). What is known of the tokens that are left is kept on the way,
and what is known of the modifiers before a declaration is known where its keyword comes next.
-/

namespace SignatureLedger

namespace Parser

/-! ## Each kind -/

/-- `K` holds of every state that is reached and `J` behind the modifiers of a declaration, where
each kind of declaration has the property `D`. A namespace has it if all declarations in it do. -/
structure EachKind (K : Parser → Prop) (J : DeclModifiers → Parser → Prop) (D : Decl → Prop) :
    Prop where
  reach : ∀ {p q : Parser}, K p → Reaches p q → K q
  modified : ∀ {p : Parser} (exported : ExportMode), K p →
    J (DeclModifiers.read (exported = .asDefault) { exported } 0 p.ahead).1
      (p.advance (DeclModifiers.read (exported = .asDefault) { exported } 0 p.ahead).2)
  constant : ∀ {m : DeclModifiers} {p : Parser}, J m p → J (m.startAt p.peek) p.bump
  functionDecl : ∀ {m : DeclModifiers} {p : Parser}, J m p → ∀ d ∈ (p.functionDecl m).1, D d
  classDecl : ∀ {m : DeclModifiers} {p : Parser}, J m p → ∀ d ∈ (p.classDecl m).1, D d
  interfaceDecl : ∀ {m : DeclModifiers} {p : Parser}, J m p → p.peekNext.kind = .ident →
    ∀ d ∈ (p.interfaceDecl m).1, D d
  typeAliasDecl : ∀ {m : DeclModifiers} {p : Parser}, J m p → p.peekNext.kind = .ident →
    ∀ d ∈ (p.typeAliasDecl m).1, D d
  enumDecl : ∀ {m : DeclModifiers} {p : Parser}, J m p → ∀ d ∈ (p.enumDecl m).1, D d
  variableDecl : ∀ {m : DeclModifiers} {p : Parser}, J m p → ∀ d ∈ (p.variableDecl m).1, D d
  space : ∀ {h : DeclHead} {isGlobal : Bool} {children : List Decl}, (∀ d ∈ children, D d) →
    D (.space h isGlobal children)

namespace EachKind

variable {K : Parser → Prop} {J : DeclModifiers → Parser → Prop} {D : Decl → Prop} {p : Parser}
  {m : DeclModifiers}

/-! ## Items -/

/-- The declarations of an item have the property; those of a namespace come later. -/
def Gives (D : Decl → Prop) : Item → Prop
  | .complete ds => ∀ d ∈ ds, D d
  | .opened _ _ => True

theorem gives_nil : Gives D (.complete []) := fun _ hd => absurd hd List.not_mem_nil

/-- What a namespace gives, by its head alone. -/
theorem namespaceItem (H : EachKind K J D) (p : Parser) (m : DeclModifiers) :
    Gives D (p.namespaceItem m).1 := by
  unfold Parser.namespaceItem
  dsimp only
  split
  · exact trivial
  · intro d hd
    obtain rfl := List.mem_singleton.mp hd
    exact H.space fun _ hd => absurd hd List.not_mem_nil

/-- What holds of each kind holds of what is found behind the modifiers. -/
theorem declRest? (H : EachKind K J D) (onlyDefault : Bool) (h : J m p) :
    Finds (fun r => Gives D r.1) (p.declRest? onlyDefault m) :=
  EachDecl.declRest?
    { functionDecl := fun _ => H.functionDecl h
      classDecl := fun _ => H.classDecl h
      interfaceDecl := fun _ => H.interfaceDecl h
      enumDecl := fun _ => H.enumDecl h
      constEnumDecl := fun _ _ => H.enumDecl (H.constant h)
      variableDecl := fun _ => H.variableDecl h
      typeAliasDecl := fun _ => H.typeAliasDecl h
      namespaceItem := fun _ _ _ _ => H.namespaceItem p m } onlyDefault

/-- What a declaration gives. -/
theorem declItem? (H : EachKind K J D) (h : K p) (exported : ExportMode) :
    Finds (fun r => Gives D r.1) (p.declItem? exported) := H.declRest? _ (H.modified exported h)

/-- What an export gives. -/
theorem exportItem (H : EachKind K J D) (h : K p) : Gives D p.exportItem.1 := by
  unfold Parser.exportItem
  dsimp only
  split
  · have hp := H.reach h ((reaches_bump p).trans (reaches_skipDecorators _))
    split
    · rename_i r hr
      exact H.declItem? hp _ r hr
    · exact gives_nil
  split
  · exact gives_nil
  split
  · exact gives_nil
  · have hp := H.reach h (reaches_skipDecorators p)
    split
    · rename_i r hr
      exact H.declItem? hp _ r hr
    · split <;> exact gives_nil

/-- What an item gives, whatever stands ahead. -/
theorem item (H : EachKind K J D) (h : K p) : Gives D p.item.1 := by
  unfold Parser.item
  dsimp only
  split
  · exact gives_nil
  have hp := H.reach h (reaches_skipDecorators p)
  split
  · split <;> exact gives_nil
  split
  · exact H.exportItem (H.reach hp (reaches_bump _))
  · split
    · rename_i r hr
      exact H.declItem? hp _ r hr
    · exact gives_nil

/-! ## Modules -/

/-- **All declarations from here on have the property of their kinds.** By recursion on the tokens
left, which are fewer behind an item and inside a namespace. -/
theorem itemsFrom (H : EachKind K J D) (inBody : Bool) (p : Parser) (h : K p) :
    ∀ d ∈ (itemsFrom inBody p).1.1, D d := by
  by_cases hend : p.itemsEnd inBody = true
  · rw [itemsFrom_of_itemsEnd hend]
    exact fun d hd => absurd hd List.not_mem_nil
  have hlt := left_afterItem_lt (atEnd_of_itemsEnd hend)
  have hafter : K p.afterItem := H.reach h (reaches_afterItem p)
  rw [itemsFrom_eq hend]
  intro d hd
  rcases List.mem_append.mp hd with hd | hd
  · have hitem := H.item h
    cases hi : p.item with
    | mk i q =>
      rw [hi] at hitem
      cases i with
      | complete ds =>
        rw [itemDecls_of_complete hi] at hd
        exact hitem d hd
      | opened s body =>
        -- the body of a namespace is a module of its own
        have hq := left_item_lt_of_opened hi
        have hreach : Reaches p q := by
          have := reaches_item p
          rwa [hi] at this
        rw [itemDecls_of_opened hi] at hd
        obtain rfl := List.mem_singleton.mp hd
        exact H.space (EachKind.itemsFrom H true q (H.reach h hreach))
  · exact EachKind.itemsFrom H inBody p.afterItem hafter d hd
termination_by p.left

end EachKind

end Parser

end SignatureLedger
