import SignatureLedger.Declaration
import SignatureLedger.Signature

/-!
# Exported symbols

Which declarations of a module other modules can see, under which names, and with which texts. A
declaration counts if it and every namespace around it are exported. The tree is first read into the
sequence of all that counts (`Decl.offers`), and then names that occur more than once are collapsed
(`collapse`): the last declaration wins and keeps the first place.
-/

namespace SignatureLedger

/-- Which variables count. -/
inductive VariablePolicy where
  | exportOnly
  /-- Every variable at the top of the module counts as well. -/
  | allTopLevel
deriving DecidableEq, Repr

namespace VariablePolicy

/-- The word of the setting. -/
def name : VariablePolicy → String
  | exportOnly => "export-only"
  | allTopLevel => "all-top-level"

/-- The policy with this name. -/
def ofName? (s : Bytes) : Option VariablePolicy :=
  [exportOnly, allTopLevel].find? (fun p => bytes p.name = s)

end VariablePolicy

/-! ## Texts -/

namespace Member

/-- Members that are part of what a class offers: neither private nor named like a private one. -/
def isPublic (m : Member) : Bool :=
  m.kind ≠ .staticBlock && m.modifiers.access ≠ .privateMark && m.nameKind ≠ .hashed
    && m.name.head? ≠ some Byte.underscore

/-- A property is written anew from its parts; the others are taken from the source up to their
body. -/
def text (source : Bytes) (m : Member) : Bytes :=
  match m.kind with
  | .property | .indexSignature =>
    (if m.modifiers.isStatic then bytes "static " else [])
      ++ (if m.modifiers.isReadonly then bytes "readonly " else [])
      ++ m.name ++ (if m.isOptional then bytes "?" else []) ++ bytes ": "
      ++ (match m.type? with
        | some t => source.slice t.lo t.hi
        | none => bytes "any")
  | .method | .getter | .setter | .constructor => source.slice m.span.lo (m.body?.getD m.span.hi)
  | .staticBlock => []

end Member

/-- A class is written anew: its qualified name, its type parameters and its public members. -/
def classText (source name : Bytes) (typeParams? : Option Span) (members : List Member) : Bytes :=
  bytes "class " ++ name
    ++ (match typeParams? with
      | some t => source.slice t.lo t.hi
      | none => [])
    ++ bytes " \x7b "
    ++ Bytes.join (bytes "; ") ((members.filter Member.isPublic).map (Member.text source))
    ++ bytes " \x7d"

/-! ## Offers -/

/-- A declaration that counts, and where a remark about its name belongs. -/
structure Offer where
  symbol : Symbol
  nameSpan : Span
deriving DecidableEq, Repr

/-- What is around a declaration. -/
structure Surroundings where
  /-- Every namespace around is exported. -/
  reachable : Bool := true
  atTop : Bool := true
  /-- The names of the namespaces around, each with a dot. -/
  path : Bytes := []
deriving DecidableEq, Repr

/-- A declaration and all around it are exported. -/
def DeclHead.isOffered (h : DeclHead) (around : Surroundings) : Bool :=
  h.exported ≠ .none && around.reachable

/-- The name of a declaration with the namespaces around; an anonymous default export is called
`default`. -/
def DeclHead.qualifiedName (h : DeclHead) (around : Surroundings) : Bytes :=
  around.path ++ (if h.name.isEmpty && h.exported = .asDefault then bytes "default" else h.name)

/-- Where a remark about the name of a declaration belongs. -/
def DeclHead.remarkSpan (h : DeclHead) : Span := if h.name.isEmpty then h.span else h.nameSpan

/-- The offer that a declaration other than a namespace makes, if it makes one. -/
def DeclForm.offer? (source : Bytes) (policy : VariablePolicy) (around : Surroundings)
    (h : DeclHead) (form : DeclForm) : Option Offer :=
  let name := h.qualifiedName around
  let offer (kind : SymbolKind) (text : Bytes) : Offer :=
    ⟨⟨{ name, kind, text }, h.span⟩, h.remarkSpan⟩
  let whole := source.slice h.span.lo h.span.hi
  let exported := h.isOffered around
  match form with
  | .function _ _ =>
    if exported then some (offer .function (source.slice h.span.lo (h.body?.getD h.span.hi)))
    else none
  | .classForm _ members =>
    if exported then some (offer .classKind (classText source name h.typeParams? members)) else none
  | .interfaceForm => if exported then some (offer .interfaceKind whole) else none
  | .typeAlias => if exported then some (offer .typeAlias whole) else none
  | .enumForm => if exported then some (offer .enumKind whole) else none
  | .variableForm word isPattern =>
    if isPattern || h.name.isEmpty then none
    else if exported || (policy = .allTopLevel && around.atTop) then
      some (offer (if word = .constWord then .const else .variableKind) whole)
    else none

mutual

/-- The offers of a declaration, in source order. What adds to the global scope is no export of the
module. -/
def Decl.offers (source : Bytes) (policy : VariablePolicy) (around : Surroundings) :
    Decl → List Offer
  | .item h form => (form.offer? source policy around h).toList
  | .space h isGlobal children =>
    if isGlobal then []
    else
      Decl.offersOfAll source policy
        ⟨h.isOffered around, false, h.qualifiedName around ++ [Byte.dot]⟩ children

/-- The offers of a list of declarations, one behind the other. -/
def Decl.offersOfAll (source : Bytes) (policy : VariablePolicy) (around : Surroundings) :
    List Decl → List Offer
  | [] => []
  | d :: ds => d.offers source policy around ++ Decl.offersOfAll source policy around ds

end

/-! ## Names that occur more than once -/

/-- The symbols so far, in the order of their first places, and the remarks. -/
structure Extracted where
  symbols : List Symbol := []
  found : List Diagnostic := []
deriving DecidableEq, Repr

namespace Extracted

/-- Another declaration of a known name is remarked on, unless both declare functions: these are
overloads. -/
def remark? (old : Symbol) (o : Offer) : Option Diagnostic :=
  if old.signature.kind = .function ∧ o.symbol.signature.kind = .function then none
  else
    some {
      severity := .warning, code := .duplicateSymbol, span := o.nameSpan, args := [o.symbol.name] }

/-- Adds an offer: at the end, or in the place of the symbol that has its name. -/
def add (e : Extracted) (o : Offer) : Extracted :=
  match e.symbols.find? (·.name == o.symbol.name) with
  | none => { e with symbols := e.symbols ++ [o.symbol] }
  | some old =>
    ⟨e.symbols.map fun s => if s.name == o.symbol.name then o.symbol else s,
      e.found ++ (remark? old o).toList⟩

end Extracted

/-- Of offers with the same name the first keeps its place and the last its content. -/
def collapse (offers : List Offer) : Extracted := offers.foldl Extracted.add {}

/-- The exported symbols of a module with their texts as they stand in the source. -/
def extract (source : Bytes) (policy : VariablePolicy) (decls : List Decl) : Extracted :=
  collapse (Decl.offersOfAll source policy {} decls)

end SignatureLedger
