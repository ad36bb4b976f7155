import SignatureLedger.Declaration
import SignatureLedger.Declaration.Extent
import SignatureLedger.Token.Cursor

/-!
# The state of a parse

A parse has a cursor and the findings so far. This module holds the state, the moves on it, and the
rules of reporting: no finding twice, an end after a number of errors, and silence after that end.
-/

namespace SignatureLedger

open Diagnostic (Code Severity)

/-- The state of a parse. It is a value, so that an attempt is taken back by going on with the old
one. -/
structure Parser where
  source : Bytes
  /-- How many errors are reported before the parse stops; `none` reports nothing at all. -/
  tolerance : Option Nat
  cursor : Cursor
  /-- The findings so far, the first one first. -/
  found : List Diagnostic := []
  /-- The keys of all the findings that were about to be reported. -/
  seen : List UInt64 := []
  /-- The parse has been given up. -/
  halted : Bool := false

namespace Parser

/-! ## Moves -/

/-- The number of tokens that are left. -/
def left (p : Parser) : Nat := p.cursor.ahead.length

/-- The tokens that are left before the end marker. -/
def ahead (p : Parser) : List Token := p.cursor.ahead

/-- The next token; at the end, the end marker. -/
def peek (p : Parser) : Token := p.cursor.peek

/-- The token after the next one. -/
def peekNext (p : Parser) : Token := p.cursor.peekAt 1

/-- The token taken last. -/
def previous (p : Parser) : Token := p.cursor.previous

/-- No tokens are left. -/
def atEnd (p : Parser) : Bool := p.cursor.ahead.isEmpty

/-- The next token is this sign. -/
def isPunct (p : Parser) (k : Punct) : Bool := p.peek.isPunct k

/-- The next token is this reserved word. -/
def isKeyword (p : Parser) (k : Keyword) : Bool := p.peek.isKeyword k

/-- The next token is this word. -/
def isWord (p : Parser) (w : String) : Bool := p.peek.isWord w

/-- Takes the next token, whatever it is. -/
def bump (p : Parser) : Parser := { p with cursor := p.cursor.bump }

/-- Takes `n` tokens, whatever they are. -/
def advance (p : Parser) (n : Nat) : Parser := { p with cursor := p.cursor.advance n }

/-- Takes the punctuator if it comes next. -/
def skipPunct (p : Parser) (k : Punct) : Parser := if p.isPunct k then p.bump else p

/-! ## Reporting -/

/-- Adds a value to a 64-bit key. -/
def mixKey (h v : UInt64) : UInt64 :=
  h ^^^ (v + (0x9E3779B97F4A7C15 : UInt64) + (h <<< 6) + (h >>> 2))

/-- The key by which a finding of severity error is known: its severity, code, file and span, mixed
in this order. -/
def findingKey (code : Code) (span : Span) : UInt64 :=
  [Severity.error.index, code.index, 0, span.lo, span.hi].foldl
    (fun h v => mixKey h v.toUInt64) 1469598103934665603

/-- The number of errors after which a parse is given up whatever its tolerance. -/
def errorCap : Nat := 1024

/-- Where a finding that says the parse stops is shown: at the next token, or at the last finding if
there is no token. -/
def stopSpan (p : Parser) (span : Span) : Span := if p.atEnd then span else p.peek.span

/-- Records an error without any test, and stops the parse when there are too many of them. -/
def record (p : Parser) (tolerance : Nat) (d : Diagnostic) : Parser :=
  let found := p.found ++ [d]
  let errors := Diagnostic.count .error found
  if errorCap ≤ errors then { p with found, halted := true }
  else if tolerance ≤ errors then
    let stop : Diagnostic :=
      { severity := .fatal, code := .tooManyErrors, span := p.stopSpan d.span }
    { p with found := found ++ [stop], halted := true }
  else { p with found }

/-- The last finding has this code and starts at the same place. -/
def repeatsLast (p : Parser) (code : Code) (span : Span) : Bool :=
  p.found.getLast?.any fun d => d.code == code && d.span.lo == span.lo

/-- Reports an error, unless its key is known or it repeats the last one. Beyond the tolerance the
parse is given up. -/
def report (p : Parser) (code : Code) (span : Span) (arg : Bytes) : Parser :=
  match p.tolerance with
  | none => p
  | some tolerance =>
    let key := findingKey code span
    if p.halted || p.seen.contains key then p
    else
      let p := { p with seen := key :: p.seen }
      if p.repeatsLast code span then p
      else p.record tolerance { code, span, args := if arg.isEmpty then [] else [arg] }

/-- Takes a stretch of tokens and complains about a bracket in it that is never closed. -/
def take (p : Parser) (e : Extent) : Parser :=
  let p := p.advance e.width
  match e.unclosed? with
  | some t => p.report .unbalancedDelimiter t.span t.lexeme
  | none => p

/-- Takes the bracketed group at the cursor. -/
def takeGroup (p : Parser) : Parser :=
  match p.ahead with
  | [] => p
  | t :: rest => if t.kind.isOpener then p.take ((Extent.group t rest).shift 1) else p

/-- Takes type parameters or arguments, if they come next. -/
def takeAngle (p : Parser) : Parser := p.take (Extent.angle? p.ahead)

/-- Takes a group in round brackets, if one comes next. -/
def takeParens (p : Parser) : Parser := p.take (Extent.parens? p.ahead)

/-- Requires a punctuator. The end of the source in its place gives the parse up. -/
def expect (p : Parser) (k : Punct) : Bool × Parser :=
  if p.halted then (false, p)
  else if p.isPunct k then (true, p.bump)
  else if p.atEnd then
    (false, { p.report .unexpectedEof p.peek.span (bytes k.text) with halted := true })
  else (false, p.report .expectedToken p.peek.span (bytes k.text))

/-- Skips to a place where reading can go on. -/
def recover (p : Parser) (stops : List Punct) : Parser :=
  p.advance (recoveryWidth stops {} p.ahead)

/-- Ends an item: by a semicolon, or silently before a brace, a new line or the end. Anything else
is skipped up to the next semicolon. -/
def finishItem (p : Parser) : Parser :=
  if p.isPunct .semicolon then p.bump
  else if p.atEnd || p.isPunct .closeBrace || p.peek.newlineBefore then p
  else
    ((p.report .expectedToken p.peek.span (bytes ";")).recover [.semicolon]).skipPunct .semicolon

/-! ## What the moves leave -/

/-- A step takes one token, except at the end. -/
@[simp] theorem left_bump (p : Parser) : p.bump.left = p.left - 1 := by simp [left, bump]

/-- An advance takes `n` tokens, or those that are left. -/
@[simp] theorem left_advance (p : Parser) (n : Nat) : (p.advance n).left = p.left - n := by
  simp [left, advance]

/-- A finding takes no token. -/
@[simp] theorem left_record (p : Parser) (n : Nat) (d : Diagnostic) :
    (p.record n d).left = p.left := by
  unfold record; dsimp only; split
  · rfl
  · split <;> rfl

/-- A report takes no token. -/
@[simp] theorem left_report (p : Parser) (code : Code) (span : Span) (arg : Bytes) :
    (p.report code span arg).left = p.left := by
  unfold report; split
  · rfl
  · dsimp only
    split
    · rfl
    · split
      · rfl
      · rw [left_record]; rfl

/-- A stretch is taken with its width. -/
@[simp] theorem left_take (p : Parser) (e : Extent) : (p.take e).left = p.left - e.width := by
  unfold take; dsimp only; split <;> simp

/-- A group is taken forward. -/
theorem left_takeGroup_le (p : Parser) : p.takeGroup.left ≤ p.left := by
  unfold takeGroup; split
  · exact Nat.le_refl _
  · split
    · rw [left_take]; omega
    · exact Nat.le_refl _

theorem left_skipPunct_le (p : Parser) (k : Punct) : (p.skipPunct k).left ≤ p.left := by
  unfold skipPunct; split
  · rw [left_bump]; omega
  · exact Nat.le_refl _

/-- What is expected is taken or left. -/
theorem left_expect_le (p : Parser) (k : Punct) : (p.expect k).2.left ≤ p.left := by
  unfold expect
  split
  · exact Nat.le_refl _
  · split
    · rw [left_bump]; omega
    · split
      · exact Nat.le_of_eq (left_report p _ _ _)
      · exact Nat.le_of_eq (left_report p _ _ _)

theorem left_recover_le (p : Parser) (stops : List Punct) : (p.recover stops).left ≤ p.left := by
  unfold recover; rw [left_advance]; omega

/-- The end of an item is taken forward. -/
theorem left_finishItem_le (p : Parser) : p.finishItem.left ≤ p.left := by
  unfold finishItem
  split
  · rw [left_bump]; omega
  · split
    · exact Nat.le_refl _
    · refine Nat.le_trans (left_skipPunct_le _ _) (Nat.le_trans (left_recover_le _ _) ?_)
      exact Nat.le_of_eq (left_report p _ _ _)

/-- A token can be taken where one is left. -/
theorem left_bump_lt {p : Parser} (h : p.atEnd = false) : p.bump.left < p.left := by
  have : p.left ≠ 0 := by
    intro h0
    simp [left, List.length_eq_zero_iff] at h0
    simp [atEnd, h0] at h
  rw [left_bump]; omega

/-- The end marker is no punctuator. -/
theorem atEnd_of_isPunct {p : Parser} {k : Punct} (h : p.isPunct k = true) : p.atEnd = false := by
  unfold isPunct peek Cursor.peek at h
  unfold atEnd
  cases hc : p.cursor.ahead with
  | nil => simp [hc, Token.isPunct, Token.eofAt] at h
  | cons t ts => rfl

/-- The end marker is no keyword. -/
theorem atEnd_of_isKeyword {p : Parser} {k : Keyword} (h : p.isKeyword k = true) :
    p.atEnd = false := by
  unfold isKeyword peek Cursor.peek at h
  unfold atEnd
  cases hc : p.cursor.ahead with
  | nil => simp [hc, Token.isKeyword, Token.eofAt] at h
  | cons t ts => rfl

/-- The end marker is no word. -/
theorem atEnd_of_isWord {p : Parser} {w : String} (h : p.isWord w = true) : p.atEnd = false := by
  unfold isWord peek Cursor.peek at h
  unfold atEnd
  cases hc : p.cursor.ahead with
  | nil => simp [hc, Token.isWord, Token.eofAt] at h
  | cons t ts => rfl

/-- Where a sign stands, a step takes it. -/
theorem left_bump_lt_of_isPunct {p : Parser} {k : Punct} (h : p.isPunct k = true) :
    p.bump.left < p.left := left_bump_lt (atEnd_of_isPunct h)

/-- Where a reserved word stands, a step takes it. -/
theorem left_bump_lt_of_isKeyword {p : Parser} {k : Keyword} (h : p.isKeyword k = true) :
    p.bump.left < p.left := left_bump_lt (atEnd_of_isKeyword h)

/-- Where a word stands, a step takes it. -/
theorem left_bump_lt_of_isWord {p : Parser} {w : String} (h : p.isWord w = true) :
    p.bump.left < p.left := left_bump_lt (atEnd_of_isWord h)

end Parser

end SignatureLedger
