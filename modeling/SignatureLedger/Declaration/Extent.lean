import SignatureLedger.Token

/-!
# How far a stretch of tokens reaches

The parser does not look into function bodies, initial values and statements: it skips them. This
module says where each such stretch ends. All of it works on the list of tokens ahead, without the
end marker, and answers with an `Extent`: how many tokens are skipped, and which opening token of
the stretch is never closed, if one is.
-/

namespace SignatureLedger

/-- A stretch of tokens: how many they are, and the bracket among them that nothing closes, if there
is one. -/
structure Extent where
  width : Nat
  unclosed? : Option Token := none
deriving DecidableEq, Repr

namespace Extent

/-- The same stretch with `n` more tokens in front. -/
def shift (n : Nat) (e : Extent) : Extent := { e with width := n + e.width }

/-- Continues behind a stretch in which all is closed. -/
def andThen (e : Extent) (next : List Token → Extent) (ts : List Token) : Extent :=
  if e.unclosed?.isSome then e else (next (ts.drop e.width)).shift e.width

end Extent

namespace Token

/-- The token is this sign. -/
def isPunct (t : Token) (p : Punct) : Bool := t.kind == .punct p

/-- The token is this reserved word. -/
def isKeyword (t : Token) (k : Keyword) : Bool := t.kind == .keyword k

end Token

/-! ## Brackets -/

/-- The tokens after an opening bracket up to and including the one that closes it, `inner` more
brackets being open in between. Any closing bracket closes any opening one. -/
def groupEnd? (inner : Nat) : List Token → Option Nat
  | [] => none
  | t :: ts =>
    if t.kind.isOpener then (groupEnd? (inner + 1) ts).map (· + 1)
    else if t.kind.isCloser then
      match inner with
      | 0 => some 1
      | inner + 1 => (groupEnd? inner ts).map (· + 1)
    else (groupEnd? inner ts).map (· + 1)

/-- What follows the opening bracket `start` and belongs to its group. -/
def Extent.group (start : Token) (rest : List Token) : Extent :=
  match groupEnd? 0 rest with
  | some n => ⟨n, none⟩
  | none => ⟨rest.length, some start⟩

/-- What follows the less sign `start` and belongs to its list of type parameters or arguments, with
`depth` such lists open. A semicolon or an unmatched closing bracket ends the search. -/
def Extent.angle (start : Token) (depth : Nat) (ts : List Token) : Extent :=
  match ts with
  | [] => ⟨0, some start⟩
  | t :: rest =>
    if t.isPunct .less then (angle start (depth + 1) rest).shift 1
    else if t.isPunct .lessLess then (angle start (depth + 2) rest).shift 1
    else if t.isPunct .greater then
      if depth ≤ 1 then ⟨1, none⟩ else (angle start (depth - 1) rest).shift 1
    else if t.kind.isOpener then
      match groupEnd? 0 rest with
      | some n => (angle start depth (rest.drop n)).shift (1 + n)
      | none => ⟨1 + rest.length, some t⟩
    else if t.isPunct .semicolon || t.kind.isCloser then ⟨0, some start⟩
    else (angle start depth rest).shift 1
termination_by ts.length
decreasing_by all_goals simp only [List.length_drop, List.length_cons]; omega

/-- A group in round brackets, if one stands at the front. -/
def Extent.parens? : List Token → Extent
  | [] => ⟨0, none⟩
  | t :: rest => if t.isPunct .openParen then (group t rest).shift 1 else ⟨0, none⟩

/-- A list of type parameters or arguments, if one stands at the front. -/
def Extent.angle? : List Token → Extent
  | [] => ⟨0, none⟩
  | t :: rest => if t.isPunct .less then (angle t 1 rest).shift 1 else ⟨0, none⟩

/-- The tokens of `. name . name …`. -/
def pathWidth : List Token → Nat
  | a :: b :: rest => if a.isPunct .dot && b.kind.isName then 2 + pathWidth rest else 0
  | _ => 0

/-! ## Decorators -/

/-- What follows the sign of a decorator and belongs to it: an expression in round brackets, or a
path with optional type arguments and arguments. -/
def Extent.decorator (ts : List Token) : Extent :=
  match ts with
  | [] => ⟨0, none⟩
  | t :: rest =>
    if t.isPunct .openParen then (group t rest).shift 1
    else
      let name := if t.kind.isName then 1 else 0
      let path := name + pathWidth (ts.drop name)
      ((angle? (ts.drop path)).andThen parens? (ts.drop path)).shift path

/-- The decorators at the front. A group in them that nothing closes ends them. -/
def Extent.decorators (ts : List Token) : Extent :=
  match ts with
  | [] => ⟨0, none⟩
  | t :: rest =>
    if t.isPunct .atSign then
      let one := decorator rest
      if one.unclosed?.isSome then one.shift 1
      else (decorators (rest.drop one.width)).shift (1 + one.width)
    else ⟨0, none⟩
termination_by ts.length
decreasing_by simp only [List.length_drop, List.length_cons]; omega

/-! ## Line ends that end a statement -/

/-- An expression can end with a token of this kind. -/
def TokenKind.endsExpr : TokenKind → Bool
  | .punct .closeBrace | .punct .greater => true
  | k => k.endsOperand

/-- A line that starts with this token continues the expression before it. -/
def Token.continuesExpr (t : Token) : Bool :=
  match t.kind with
  | .templateLit | .keyword .inKw | .keyword .instanceofKw => true
  | .punct p =>
    match p with
    | .closeParen | .openBrace | .closeBrace | .closeBracket | .semicolon | .comma | .ellipsis
    | .atSign | .plusPlus | .minusMinus | .bang | .tilde => false
    | _ => true
  | .ident => t.lexeme == bytes "as" || t.lexeme == bytes "satisfies"
  | _ => false

/-- Between these neighbours a line ends and takes the statement with it. -/
def Token.endsLine (previous t : Token) : Bool :=
  t.newlineBefore && previous.kind.endsExpr && !t.continuesExpr

/-! ## Expressions and statements -/

/-- Kinds that occur in type arguments, brackets and the less and greater signs apart. -/
def TokenKind.inTypeArgs : TokenKind → Bool
  | .stringLit | .numberLit => true
  | .punct p =>
    match p with
    | .comma | .dot | .openBracket | .closeBracket | .openParen | .closeParen | .openBrace
    | .closeBrace | .bar | .amp | .colon | .arrow | .question | .ellipsis => true
    | _ => false
  | k => k.isName

/-- Tokens that show, right after a greater sign, that type arguments have ended there. -/
def Token.followsTypeArgs (t : Token) : Bool :=
  match t.kind with
  | .templateLit | .punct .openParen | .punct .closeParen | .punct .closeBracket
  | .punct .semicolon | .punct .comma | .punct .dot | .punct .questionDot => true
  | _ => t.newlineBefore

/-- The tokens after a less sign up to and including the greater sign that closes it, if the sign
opens type arguments inside an expression: at most `steps` tokens of the right kinds, and then a
token that can follow. -/
def typeArgsEnd? : (steps depth : Nat) → List Token → Option Nat
  | 0, _, _ => none
  | _, _, [] => none
  | steps + 1, depth, t :: rest =>
    if t.isPunct .less then (typeArgsEnd? steps (depth + 1) rest).map (· + 1)
    else if t.isPunct .greater then
      if depth ≤ 1 then
        if rest.head?.all Token.followsTypeArgs then some 1 else none
      else (typeArgsEnd? steps (depth - 1) rest).map (· + 1)
    else if t.kind.inTypeArgs then (typeArgsEnd? steps depth rest).map (· + 1)
    else none

/-- How many tokens type arguments inside an expression may have, the first less sign included. -/
def typeArgsLimit : Nat := 256

/-- Where a less sign stands for an operand, it opens the type parameters of an arrow function. -/
def TokenKind.beforeOperand : TokenKind → Bool
  | .punct .assign | .punct .arrow | .punct .question | .punct .colon => true
  | _ => false

/-- An expression: up to a comma, a semicolon or a closing bracket outside all its brackets, or the
end of a line that ends it. `previous?` is the token of the expression before the front, if any. -/
def Extent.expr (previous? : Option Token) (ts : List Token) : Extent :=
  match ts with
  | [] => ⟨0, none⟩
  | t :: rest =>
    if t.isPunct .comma || t.isPunct .semicolon || t.kind.isCloser
        || previous?.any (·.endsLine t) then ⟨0, none⟩
    else if t.kind.isOpener then
      match groupEnd? 0 rest with
      | some n => (expr (rest[n - 1]?) (rest.drop n)).shift (1 + n)
      | none => ⟨1 + rest.length, some t⟩
    else if t.isPunct .less && previous?.all (·.kind.beforeOperand) then
      let params := angle t 1 rest
      if params.unclosed?.isSome then params.shift 1
      else (expr (rest[params.width - 1]?) (rest.drop params.width)).shift (1 + params.width)
    else if t.isPunct .less && previous?.any (fun q => q.kind.isName || q.isPunct .greater) then
      match typeArgsEnd? (typeArgsLimit - 1) 1 rest with
      | some n => (expr (rest[n - 1]?) (rest.drop n)).shift (1 + n)
      | none => (expr (some t) rest).shift 1
    else (expr (some t) rest).shift 1
termination_by ts.length
decreasing_by all_goals simp only [List.length_drop, List.length_cons]; omega

/-- A statement: up to and including a semicolon, or up to a closing bracket or the end of a line
that ends it. -/
def Extent.statement (previous? : Option Token) (ts : List Token) : Extent :=
  match ts with
  | [] => ⟨0, none⟩
  | t :: rest =>
    if t.isPunct .semicolon then ⟨1, none⟩
    else if t.kind.isCloser || previous?.any (·.endsLine t) then ⟨0, none⟩
    else if t.kind.isOpener then
      match groupEnd? 0 rest with
      | some n => (statement (rest[n - 1]?) (rest.drop n)).shift (1 + n)
      | none => ⟨1 + rest.length, some t⟩
    else (statement (some t) rest).shift 1
termination_by ts.length
decreasing_by all_goals simp only [List.length_drop, List.length_cons]; omega

/-! ## Import and export clauses -/

/-- Words that start a declaration, modifiers included. -/
def Token.isDeclKeyword (t : Token) : Bool :=
  match t.kind with
  | .keyword .functionKw | .keyword .classKw | .keyword .constKw | .keyword .varKw
  | .keyword .enumKw => true
  | _ =>
    t.isWord "let" || t.isWord "interface" || t.isWord "type" || t.isWord "namespace"
      || t.isWord "module" || t.isWord "global" || t.isWord "abstract" || t.isWord "async"

/-- Tokens that start an item of a module beyond doubt. -/
def Token.isItemStart (t : Token) : Bool :=
  t.isKeyword .exportKw || t.isKeyword .importKw || t.isPunct .atSign || t.isDeclKeyword
    || t.isWord "declare"

/-- One semicolon, if it stands at the front. -/
def Extent.semicolon? : List Token → Extent
  | [] => ⟨0, none⟩
  | t :: _ => if t.isPunct .semicolon then ⟨1, none⟩ else ⟨0, none⟩

/-- Import attributes, if they stand at the front on the same line: `with` or `assert` and a group
in braces. -/
def Extent.attributes? : List Token → Extent
  | a :: b :: rest =>
    if (a.isKeyword .withKw || a.isWord "assert") && !a.newlineBefore && b.isPunct .openBrace then
      (group b rest).shift 2
    else ⟨0, none⟩
  | _ => ⟨0, none⟩

/-- The clause of an import, or of an export that declares nothing: up to and including the module
name, a group in round brackets or a semicolon. From the third token on, a new line that starts an
item, or that follows a closing brace without `from`, ends it as well; `taken` counts the tokens
that are taken already as far as that matters. -/
def Extent.clause (taken : Nat) (previous? : Option Token) (ts : List Token) : Extent :=
  match ts with
  | [] => ⟨0, none⟩
  | t :: rest =>
    if t.isPunct .semicolon then ⟨1, none⟩
    else if t.isPunct .closeBrace then ⟨0, none⟩
    else if 2 ≤ taken && t.newlineBefore
        && (t.isItemStart || (previous?.any (·.isPunct .closeBrace) && !t.isWord "from")) then
      ⟨0, none⟩
    else if t.kind = .stringLit then
      ((attributes? rest).andThen semicolon? rest).shift 1
    else if t.isPunct .openParen then ((group t rest).andThen semicolon? rest).shift 1
    else if t.kind.isOpener then
      match groupEnd? 0 rest with
      | some n => (clause (taken + 1 + n) (rest[n - 1]?) (rest.drop n)).shift (1 + n)
      | none => ⟨1 + rest.length, some t⟩
    else (clause (taken + 1) (some t) rest).shift 1
termination_by ts.length
decreasing_by all_goals simp only [List.length_drop, List.length_cons]; omega

/-! ## Heads of classes and interfaces, and recovery -/

/-- The `extends` and `implements` clauses before the body of a class or interface. -/
def Extent.heritage (ts : List Token) : Extent :=
  match ts with
  | [] => ⟨0, none⟩
  | t :: rest =>
    if t.isPunct .openBrace || t.isPunct .semicolon || t.isPunct .closeBrace then ⟨0, none⟩
    else if t.isPunct .less then
      let args := angle t 1 rest
      if args.unclosed?.isSome then args.shift 1
      else (heritage (rest.drop args.width)).shift (1 + args.width)
    else if t.kind.isOpener then
      match groupEnd? 0 rest with
      | some n => (heritage (rest.drop n)).shift (1 + n)
      | none => ⟨1 + rest.length, some t⟩
    else (heritage rest).shift 1
termination_by ts.length
decreasing_by all_goals simp only [List.length_drop, List.length_cons]; omega

/-- How many brackets of each shape are open. -/
structure Nesting where
  parens : Nat := 0
  brackets : Nat := 0
  braces : Nat := 0
deriving DecidableEq, Repr

namespace Nesting

/-- All brackets are closed. -/
def isFlat (n : Nesting) : Bool := n.parens == 0 && n.brackets == 0 && n.braces == 0

/-- The nesting after a token; a closing bracket with no partner changes nothing. -/
def step (n : Nesting) (t : Token) : Nesting :=
  match t.kind with
  | .punct .openParen => { n with parens := n.parens + 1 }
  | .punct .closeParen => { n with parens := n.parens - 1 }
  | .punct .openBracket => { n with brackets := n.brackets + 1 }
  | .punct .closeBracket => { n with brackets := n.brackets - 1 }
  | .punct .openBrace => { n with braces := n.braces + 1 }
  | .punct .closeBrace => { n with braces := n.braces - 1 }
  | _ => n

end Nesting

/-- The tokens up to the first of the `stops` outside all brackets, or up to a brace that closes the
block around. -/
def recoveryWidth (stops : List Punct) (n : Nesting) : List Token → Nat
  | [] => 0
  | t :: rest =>
    if n.isFlat && stops.any t.isPunct then 0
    else if t.isPunct .closeBrace && n.braces == 0 then 0
    else 1 + recoveryWidth stops (n.step t) rest

end SignatureLedger
