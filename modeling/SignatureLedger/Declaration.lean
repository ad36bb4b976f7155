import SignatureLedger.Diagnostic

/-!
# Declarations

What a module declares: functions, classes with their members, interfaces, type aliases, enums,
variables, and namespaces that hold declarations in turn. Bodies and initial values are not kept,
only where they are.
-/

namespace SignatureLedger

/-- How a declaration leaves its module. -/
inductive ExportMode where
  | none
  | named
  | asDefault
deriving DecidableEq, Repr

/-- The words that start a declaration of variables. -/
inductive VarKeyword where
  | varWord
  | letWord
  | constWord
deriving DecidableEq, Repr

/-! ## Class members -/

/-- What a member of a class is. -/
inductive MemberKind where
  | property
  | method
  | getter
  | setter
  | constructor
  | indexSignature
  | staticBlock
deriving DecidableEq, Repr

/-- How the name of a member is written. -/
inductive MemberNameKind where
  | ident
  | string
  | number
  | computed
  | hashed
deriving DecidableEq, Repr

/-- The access modifier of a member. -/
inductive Access where
  | unmarked
  | publicMark
  | protectedMark
  | privateMark
deriving DecidableEq, Repr

/-- The modifiers written before the name of a member. -/
structure MemberModifiers where
  access : Access := .unmarked
  isStatic : Bool := false
  isReadonly : Bool := false
  isAbstract : Bool := false
  isDeclare : Bool := false
deriving DecidableEq, Repr

/-- A member of a class. -/
structure Member where
  kind : MemberKind
  /-- From the first modifier to the end; decorators and a final semicolon do not belong to it. -/
  span : Span
  name : Bytes := []
  nameKind : MemberNameKind := .ident
  modifiers : MemberModifiers := {}
  isOptional : Bool := false
  isDefinite : Bool := false
  /-- The type after the colon. -/
  type? : Option Span := none
  /-- The offset of the brace that opens the body. -/
  body? : Option Nat := none
deriving DecidableEq, Repr

/-! ## Declarations -/

/-- What all declarations have. -/
structure DeclHead where
  exported : ExportMode := .none
  /-- From the first modifier or keyword to the end, without decorators. -/
  span : Span := ⟨0, 0⟩
  /-- Empty for an anonymous default export and for a pattern. -/
  name : Bytes := []
  nameSpan : Span := ⟨0, 0⟩
  isDeclare : Bool := false
  /-- The offset of the brace that opens the body. -/
  body? : Option Nat := none
  /-- The type parameters with their angle brackets. -/
  typeParams? : Option Span := none
deriving DecidableEq, Repr

/-- What is special to one kind of declaration. -/
inductive DeclForm where
  | function (isAsync isGenerator : Bool)
  | classForm (isAbstract : Bool) (members : List Member)
  | interfaceForm
  | typeAlias
  | enumForm
  /-- One declarator. A pattern declares no name. -/
  | variableForm (keyword : VarKeyword) (isPattern : Bool)
deriving DecidableEq, Repr

/-- A declaration; those in a namespace belong to it. -/
inductive Decl where
  | item (head : DeclHead) (form : DeclForm)
  /-- A namespace or module; `isGlobal` marks the one that adds to the global scope. -/
  | space (head : DeclHead) (isGlobal : Bool) (children : List Decl)
deriving Repr

/-- What every declaration has: its name, its places and how it is exported. -/
def Decl.head : Decl → DeclHead
  | item head _ => head
  | space head _ _ => head

end SignatureLedger
