import SignatureLedger.Diagnostic

/-!
# Tokens

The words of a source: keywords, punctuators, names and literals. Contextual keywords such as
`type` or `declare` are plain identifiers; the parser tells them by their text.
-/

namespace SignatureLedger

/-- A reserved word. -/
inductive Keyword where
  | exportKw
  | importKw
  | defaultKw
  | functionKw
  | classKw
  | constKw
  | varKw
  | enumKw
  | extendsKw
  | returnKw
  | typeofKw
  | instanceofKw
  | inKw
  | newKw
  | deleteKw
  | voidKw
  | throwKw
  | caseKw
  | doKw
  | elseKw
  | yieldKw
  | awaitKw
  | thisKw
  | superKw
  | nullKw
  | trueKw
  | falseKw
  | ifKw
  | forKw
  | whileKw
  | switchKw
  | tryKw
  | catchKw
  | finallyKw
  | breakKw
  | continueKw
  | debuggerKw
  | withKw
deriving DecidableEq, Repr

namespace Keyword

/-- The word as it is written. -/
def text : Keyword → String
  | exportKw => "export"
  | importKw => "import"
  | defaultKw => "default"
  | functionKw => "function"
  | classKw => "class"
  | constKw => "const"
  | varKw => "var"
  | enumKw => "enum"
  | extendsKw => "extends"
  | returnKw => "return"
  | typeofKw => "typeof"
  | instanceofKw => "instanceof"
  | inKw => "in"
  | newKw => "new"
  | deleteKw => "delete"
  | voidKw => "void"
  | throwKw => "throw"
  | caseKw => "case"
  | doKw => "do"
  | elseKw => "else"
  | yieldKw => "yield"
  | awaitKw => "await"
  | thisKw => "this"
  | superKw => "super"
  | nullKw => "null"
  | trueKw => "true"
  | falseKw => "false"
  | ifKw => "if"
  | forKw => "for"
  | whileKw => "while"
  | switchKw => "switch"
  | tryKw => "try"
  | catchKw => "catch"
  | finallyKw => "finally"
  | breakKw => "break"
  | continueKw => "continue"
  | debuggerKw => "debugger"
  | withKw => "with"

/-- All reserved words. -/
def all : List Keyword :=
  [exportKw, importKw, defaultKw, functionKw, classKw, constKw, varKw, enumKw, extendsKw,
    returnKw, typeofKw, instanceofKw, inKw, newKw, deleteKw, voidKw, throwKw, caseKw,
    doKw, elseKw, yieldKw, awaitKw, thisKw, superKw, nullKw, trueKw, falseKw, ifKw, forKw,
    whileKw, switchKw, tryKw, catchKw, finallyKw, breakKw, continueKw, debuggerKw, withKw]

/-- Each reserved word beside its bytes. -/
def table : List (Bytes × Keyword) := all.map (fun k => (bytes k.text, k))

/-- The keyword that a word is, if it is reserved. -/
def ofLexeme? (s : Bytes) : Option Keyword := (table.find? (·.1 == s)).map (·.2)

end Keyword

/-- A punctuator. The only one that starts with a greater sign is that sign alone, so that nested
type arguments close one by one. -/
inductive Punct where
  | ellipsis
  | equalEqualEqual
  | bangEqualEqual
  | starStarAssign
  | lessLessAssign
  | ampAmpAssign
  | barBarAssign
  | questionQuestionAssign
  | arrow
  | equalEqual
  | bangEqual
  | lessEqual
  | lessLess
  | starStar
  | plusPlus
  | minusMinus
  | plusAssign
  | minusAssign
  | starAssign
  | percentAssign
  | ampAssign
  | barAssign
  | caretAssign
  | ampAmp
  | barBar
  | questionQuestion
  | questionDot
  | openParen
  | closeParen
  | openBrace
  | closeBrace
  | openBracket
  | closeBracket
  | semicolon
  | comma
  | dot
  | question
  | colon
  | atSign
  | assign
  | less
  | greater
  | plus
  | minus
  | star
  | percent
  | amp
  | bar
  | caret
  | bang
  | tilde
  | slash
  | slashAssign
deriving DecidableEq, Repr

namespace Punct

/-- The sign as it is written. -/
def text : Punct → String
  | ellipsis => "..."
  | equalEqualEqual => "==="
  | bangEqualEqual => "!=="
  | starStarAssign => "**="
  | lessLessAssign => "<<="
  | ampAmpAssign => "&&="
  | barBarAssign => "||="
  | questionQuestionAssign => "??="
  | arrow => "=>"
  | equalEqual => "=="
  | bangEqual => "!="
  | lessEqual => "<="
  | lessLess => "<<"
  | starStar => "**"
  | plusPlus => "++"
  | minusMinus => "--"
  | plusAssign => "+="
  | minusAssign => "-="
  | starAssign => "*="
  | percentAssign => "%="
  | ampAssign => "&="
  | barAssign => "|="
  | caretAssign => "^="
  | ampAmp => "&&"
  | barBar => "||"
  | questionQuestion => "??"
  | questionDot => "?."
  | openParen => "("
  | closeParen => ")"
  | openBrace => "\x7b"
  | closeBrace => "\x7d"
  | openBracket => "["
  | closeBracket => "]"
  | semicolon => ";"
  | comma => ","
  | dot => "."
  | question => "?"
  | colon => ":"
  | atSign => "@"
  | assign => "="
  | less => "<"
  | greater => ">"
  | plus => "+"
  | minus => "-"
  | star => "*"
  | percent => "%"
  | amp => "&"
  | bar => "|"
  | caret => "^"
  | bang => "!"
  | tilde => "~"
  | slash => "/"
  | slashAssign => "/="

/-- The punctuators in the order in which they are tried, the longer ones first. A slash is not
among them: whether it divides or opens a regular expression is decided before. -/
def longestFirst : List Punct :=
  [ellipsis, equalEqualEqual, bangEqualEqual, starStarAssign, lessLessAssign, ampAmpAssign,
    barBarAssign, questionQuestionAssign, arrow, equalEqual, bangEqual, lessEqual,
    lessLess, starStar, plusPlus, minusMinus, plusAssign, minusAssign, starAssign,
    percentAssign, ampAssign, barAssign, caretAssign, ampAmp, barBar, questionQuestion,
    questionDot, openParen, closeParen, openBrace, closeBrace, openBracket, closeBracket,
    semicolon, comma, dot, question, colon, atSign, assign, less, greater, plus, minus, star,
    percent, amp, bar, caret, bang, tilde]

/-- Each punctuator of `longestFirst` beside its bytes. -/
def table : List (Bytes × Punct) := longestFirst.map (fun p => (bytes p.text, p))

/-- The sign opens a group. -/
def isOpener : Punct → Bool
  | openParen | openBracket | openBrace => true
  | _ => false

/-- The sign closes a group. -/
def isCloser : Punct → Bool
  | closeParen | closeBracket | closeBrace => true
  | _ => false

end Punct

/-- What a token is. -/
inductive TokenKind where
  | eof
  | ident
  | privateName
  | numberLit
  | stringLit
  | templateLit
  | regexLit
  | jsxElement
  | keyword (k : Keyword)
  | punct (p : Punct)
  | unknownPunct
deriving DecidableEq, Repr

namespace TokenKind

/-- How a kind is named in answers and in messages. -/
def name : TokenKind → String
  | eof => "eof"
  | ident => "ident"
  | privateName => "private_name"
  | numberLit => "number_lit"
  | stringLit => "string_lit"
  | templateLit => "template_lit"
  | regexLit => "regex_lit"
  | jsxElement => "jsx_element"
  | keyword k => k.text
  | punct p => p.text
  | unknownPunct => "unknown_punct"

/-- All kinds of tokens. -/
def all : List TokenKind :=
  [eof, ident, privateName, numberLit, stringLit, templateLit, regexLit, jsxElement, unknownPunct]
    ++ Keyword.all.map keyword
    ++ (Punct.longestFirst ++ [Punct.slash, Punct.slashAssign]).map punct

/-- The kind with this name. -/
def ofName? (s : String) : Option TokenKind := all.find? (·.name == s)

/-- A kind that may stand as a member name: reserved words are allowed there. -/
def isName : TokenKind → Bool
  | ident => true
  | keyword _ => true
  | _ => false

/-- The token opens a group. -/
def isOpener : TokenKind → Bool
  | punct p => p.isOpener
  | _ => false

/-- The token closes a group. -/
def isCloser : TokenKind → Bool
  | punct p => p.isCloser
  | _ => false

/-- After a token of this kind an operator is expected, so that a slash divides and a less sign
compares. -/
def endsOperand : TokenKind → Bool
  | ident | privateName | numberLit | stringLit | templateLit | regexLit | jsxElement => true
  | keyword .thisKw | keyword .superKw | keyword .nullKw => true
  | keyword .trueKw | keyword .falseKw => true
  | punct .closeParen | punct .closeBracket | punct .plusPlus | punct .minusMinus => true
  | _ => false

end TokenKind

/-- A token: its kind, its place and its bytes. -/
structure Token where
  kind : TokenKind
  span : Span
  lexeme : Bytes
  /-- A line ended between the previous token and this one. -/
  newlineBefore : Bool
deriving DecidableEq, Repr

namespace Token

/-- The token that ends every token list. -/
def eofAt (n : Nat) : Token := ⟨.eof, ⟨n, n⟩, [], true⟩

/-- The token is the identifier with this text. -/
def isWord (t : Token) (w : String) : Bool := t.kind == .ident && t.lexeme == bytes w

end Token

end SignatureLedger
