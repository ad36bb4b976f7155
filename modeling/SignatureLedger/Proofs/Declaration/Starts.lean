import SignatureLedger.Proofs.Declaration.Sites
import SignatureLedger.Proofs.Declaration.Spans

/-!
# Where declarations and their names start

Every declaration but a namespace starts where a token does, and so does its name, if it has one
(`begins_parseModule`). What holds of the offsets of all tokens therefore holds of these places.
-/

namespace SignatureLedger

/-- The declaration, and every declaration in it, starts at an offset with the property `S`, and its
name does, unless it is a namespace. -/
inductive Decl.Begins (S : Nat → Prop) : Decl → Prop
  | item {h : DeclHead} {form : DeclForm} (hstart : S h.span.lo)
      (hname : h.name = [] ∨ S h.nameSpan.lo) : Begins S (.item h form)
  | space {h : DeclHead} {isGlobal : Bool} {children : List Decl}
      (hchildren : ∀ d ∈ children, Begins S d) : Begins S (.space h isGlobal children)

/-- Wherever a declaration is in a list of such declarations, it starts there too. -/
theorem Decl.Begins.of_occurs {S : Nat → Prop} {ds : List Decl} {d : Decl}
    (h : ∀ d ∈ ds, d.Begins S) (hd : d.Occurs ds) : d.Begins S := by
  induction hd with
  | here hd => exact h _ hd
  | inside hspace _ ih =>
    cases h _ hspace with
    | space hchildren => exact ih hchildren

namespace Parser

variable {S : Nat → Prop} {p q : Parser} {m : DeclModifiers}

/-! ## Tokens that are left -/

/-- The tokens that are left, and the end marker, start at offsets with the property `S`. -/
def OffsetsAre (S : Nat → Prop) (p : Parser) : Prop := ∀ span, p.Sees span → S span.lo

/-- The offsets further on are offsets from here. -/
theorem OffsetsAre.of_reaches (h : OffsetsAre S p) (hr : Reaches p q) : OffsetsAre S q :=
  fun span hs => h span (hs.of_reaches hr)

/-- So are those behind a step. -/
theorem OffsetsAre.bump (h : OffsetsAre S p) : OffsetsAre S p.bump := h.of_reaches (reaches_bump p)

/-- The token ahead starts at one of the offsets. -/
theorem OffsetsAre.peek (h : OffsetsAre S p) : S p.peek.span.lo := h _ (sees_peek p)

/-- A head that is named has its name at one of the offsets. -/
theorem OffsetsAre.namedHead (h : OffsetsAre S p) (named : Bool) :
    (namedHead m named p).name = [] ∨ S (namedHead m named p).nameSpan.lo := by
  cases named with
  | false => exact .inl rfl
  | true => exact .inr h.peek

/-! ## Declarations -/

/-- The tokens that are left and the declaration that is read, with its modifiers, start at offsets
with the property `S`. -/
structure StartsAt (S : Nat → Prop) (m : DeclModifiers) (p : Parser) : Prop where
  offsets : OffsetsAre S p
  start : S (p.declStart m)

namespace StartsAt

/-- A function begins at one of the offsets. -/
theorem functionDecl (h : StartsAt S m p) : ∀ d ∈ (p.functionDecl m).1, d.Begins S := by
  have hname := h.offsets.bump.of_reaches (reaches_skipPunct p.bump .star)
  intro d hd
  rw [functionDecl_eq] at hd
  dsimp only at hd
  split at hd
  · exact absurd hd List.not_mem_nil
  · obtain rfl := List.mem_singleton.mp hd
    exact .item h.start (hname.namedHead _)

/-- A class begins at one of the offsets. -/
theorem classDecl (h : StartsAt S m p) : ∀ d ∈ (p.classDecl m).1, d.Begins S := by
  intro d hd
  rw [classDecl_eq] at hd
  dsimp only at hd
  split at hd
  · exact absurd hd List.not_mem_nil
  · obtain rfl := List.mem_singleton.mp hd
    exact .item h.start (h.offsets.bump.namedHead _)

/-- An interface begins at one of the offsets. -/
theorem interfaceDecl (h : StartsAt S m p) : ∀ d ∈ (p.interfaceDecl m).1, d.Begins S := by
  intro d hd
  obtain rfl := List.mem_singleton.mp hd
  exact .item h.start (.inr h.offsets.bump.peek)

/-- An alias begins at one of the offsets. -/
theorem typeAliasDecl (h : StartsAt S m p) : ∀ d ∈ (p.typeAliasDecl m).1, d.Begins S := by
  intro d hd
  obtain rfl := List.mem_singleton.mp hd
  exact .item h.start (.inr h.offsets.bump.peek)

/-- An enumeration begins at one of the offsets. -/
theorem enumDecl (h : StartsAt S m p) : ∀ d ∈ (p.enumDecl m).1, d.Begins S := by
  intro d hd
  unfold Parser.enumDecl at hd
  dsimp only at hd
  split at hd
  · obtain rfl := List.mem_singleton.mp hd
    exact .item h.start (.inr h.offsets.bump.peek)
  · exact absurd hd List.not_mem_nil

end StartsAt

/-- One declarator starts with its name or its pattern. -/
theorem begins_declarator {name head : DeclHead} {isPattern : Bool} {word : VarKeyword}
    (h : OffsetsAre S p) (hq : p.declaratorName? = some (name, isPattern, q))
    (hspan : head.span.lo = p.peek.span.lo)
    (hhead : head.name = name.name ∧ head.nameSpan = name.nameSpan) :
    (Decl.item head (.variableForm word isPattern)).Begins S := by
  obtain ⟨-, -, hname⟩ := declaratorName?_some hq
  refine .item (hspan ▸ h.peek) ?_
  rw [hhead.1, hhead.2]
  rcases hname with ⟨-, hnil⟩ | hname
  · exact .inl hnil
  · exact .inr (hname ▸ h.peek)

/-- Every declared variable begins at one of the offsets. -/
theorem begins_declarators (word : VarKeyword) (h : OffsetsAre S p) :
    ∀ d ∈ (declarators m word p).1, d.Begins S := by
  fun_induction declarators m word p with
  | case1 p _ => exact fun d hd => absurd hd List.not_mem_nil
  | case2 p _ _ => exact fun d hd => absurd hd List.not_mem_nil
  | case3 p _ name isPattern q hq lo head d hc rest ih =>
    -- the other declarators come behind this one and a comma
    obtain ⟨-, hreach, -⟩ := declaratorName?_some hq
    have hrest := ((reaches_bump p).trans hreach).trans
      ((reaches_declaratorRest q).trans (reaches_bump _))
    intro e he
    rcases List.mem_cons.mp he with rfl | he
    · exact begins_declarator h hq rfl ⟨rfl, rfl⟩
    · exact ih (h.of_reaches hrest) e he
  | case4 p _ name isPattern q hq lo head d hc =>
    intro e he
    obtain rfl := List.mem_singleton.mp he
    exact begins_declarator h hq rfl ⟨rfl, rfl⟩

/-- **Each kind of declaration starts with a token.** -/
theorem eachKind_begins (S : Nat → Prop) :
    EachKind (OffsetsAre S) (StartsAt S) (Decl.Begins S) where
  reach := OffsetsAre.of_reaches
  modified := fun exported h =>
    ⟨h.of_reaches (reaches_advance _ _), (declStart_read _ _ exported).symm ▸ h.peek⟩
  constant := fun h => ⟨h.offsets.bump, h.start⟩
  functionDecl := StartsAt.functionDecl
  classDecl := StartsAt.classDecl
  interfaceDecl := fun h _ => h.interfaceDecl
  typeAliasDecl := fun h _ => h.typeAliasDecl
  enumDecl := StartsAt.enumDecl
  variableDecl := fun h => begins_declarators _ h.offsets.bump
  space := .space

end Parser

/-- **Declarations start with tokens.** What holds of the offsets of all tokens of a source, and of
its end, holds of the places where declarations and their names start. -/
theorem begins_parseModule {S : Nat → Prop} {dialect : Dialect} {source : Bytes}
    (h : ∀ t ∈ (lex dialect source).tokens, S t.span.lo) (tolerance : Option Nat)
    (before : List Diagnostic) :
    ∀ d ∈ (parseModule source tolerance before (lex dialect source).tokens).decls, d.Begins S := by
  refine (Parser.eachKind_begins S).itemsFrom false _ fun span hs => ?_
  obtain ⟨t, ht, rfl⟩ := hs.exists_mem_lex rfl
  exact h t ht

end SignatureLedger
