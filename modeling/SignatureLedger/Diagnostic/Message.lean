import SignatureLedger.Diagnostic

/-!
# The wording of diagnostics

One sentence per code and language. A number in braces stands for the argument with that number.
-/

namespace SignatureLedger

/-- The languages of the messages. -/
inductive Language where
  | english
  | korean
deriving DecidableEq, Repr

namespace Diagnostic

namespace Code

/-- The patterns in English; a number in braces stands for an argument. -/
def english : Code → String
  | invalidUtf8 => "invalid UTF-8 sequence at byte offset \x7b0\x7d (0x\x7b1\x7d)"
  | unterminatedString => "unterminated string literal"
  | unterminatedTemplate => "unterminated template literal"
  | unterminatedComment => "unterminated block comment"
  | unterminatedRegex => "unterminated regular expression literal"
  | expectedToken => "expected '\x7b0\x7d'"
  | unexpectedToken => "unexpected token '\x7b0\x7d'"
  | unexpectedEof => "unexpected end of file, expected '\x7b0\x7d'"
  | unbalancedDelimiter => "unbalanced delimiter '\x7b0\x7d'"
  | declNameExpected => "\x7b0\x7d declaration requires a name"
  | tooManyErrors => "too many errors emitted; stopping now"
  | duplicateSymbol =>
    "symbol '\x7b0\x7d' is declared more than once; the later declaration is used"

/-- The same patterns in Korean. -/
def korean : Code → String
  | invalidUtf8 =>
    "바이트 오프셋 \x7b0\x7d에 올바르지 않은 UTF-8 시퀀스가 있습니다 (0x\x7b1\x7d)"
  | unterminatedString => "문자열 리터럴이 닫히지 않았습니다"
  | unterminatedTemplate => "템플릿 리터럴이 닫히지 않았습니다"
  | unterminatedComment => "블록 주석이 닫히지 않았습니다"
  | unterminatedRegex => "정규식 리터럴이 닫히지 않았습니다"
  | expectedToken => "'\x7b0\x7d'이(가) 필요합니다"
  | unexpectedToken => "예상하지 못한 토큰 '\x7b0\x7d'"
  | unexpectedEof => "파일이 끝났습니다. '\x7b0\x7d'이(가) 필요합니다"
  | unbalancedDelimiter => "짝이 맞지 않는 구분자 '\x7b0\x7d'"
  | declNameExpected => "\x7b0\x7d 선언에는 이름이 필요합니다"
  | tooManyErrors => "오류가 너무 많아 처리를 중단합니다"
  | duplicateSymbol =>
    "심볼 '\x7b0\x7d'이(가) 여러 번 선언되었습니다. 뒤의 선언을 사용합니다"

/-- The sentence of a code with its places for arguments. -/
def pattern (l : Language) (c : Code) : Bytes :=
  match l with
  | .english => bytes c.english
  | .korean => bytes c.korean

end Code

/-- The place for argument number `n`. -/
def placeholder (n : Nat) : Bytes := Byte.openBrace :: decimal n ++ [Byte.closeBrace]

/-- Puts the arguments in, one after the other from number `n` on. Each also goes to the places that
the ones before it brought in. -/
def fillFrom (n : Nat) (pattern : Bytes) : List Bytes → Bytes
  | [] => pattern
  | arg :: args => fillFrom (n + 1) (Bytes.replaceAll (placeholder n) arg pattern) args

/-- The message of a finding. -/
def message (l : Language) (d : Diagnostic) : Bytes := fillFrom 0 (d.code.pattern l) d.args

end Diagnostic

end SignatureLedger
