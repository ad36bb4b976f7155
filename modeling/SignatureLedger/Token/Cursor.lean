import SignatureLedger.Token

/-!
# Cursors over tokens

A cursor splits a token list at a place: the tokens behind it, the tokens ahead of it, and the end
marker, which is never passed.
-/

namespace SignatureLedger

/-- A place in a list of tokens, between those that are taken and those that are left. -/
structure Cursor where
  /-- The tokens taken, the last one first. -/
  behind : List Token
  /-- The tokens that are left before the end marker. -/
  ahead : List Token
  /-- The offset of the end marker. -/
  stop : Nat
deriving DecidableEq, Repr

namespace Cursor

/-- The cursor before a token list. Tokens after the first end marker do not count. -/
def ofTokens (ts : List Token) : Cursor :=
  ⟨[], ts.takeWhile (·.kind != .eof), ((ts.find? (·.kind == .eof)).map (·.span.lo)).getD 0⟩

/-- The number of tokens taken. -/
def pos (c : Cursor) : Nat := c.behind.length

/-- The token `k` places ahead, or the end marker. -/
def peekAt (c : Cursor) (k : Nat) : Token := c.ahead.getD k (Token.eofAt c.stop)

/-- The token at the cursor. -/
def peek (c : Cursor) : Token := c.ahead.headD (Token.eofAt c.stop)

/-- The token before the cursor; at the very start the token at it. -/
def previous (c : Cursor) : Token := c.behind.headD c.peek

/-- Takes one token. At the end nothing changes. -/
def bump (c : Cursor) : Cursor :=
  match c.ahead with
  | [] => c
  | t :: ts => { c with behind := t :: c.behind, ahead := ts }

/-- Takes `n` tokens, or all that are left. -/
def advance (c : Cursor) : Nat → Cursor
  | 0 => c
  | n + 1 => c.bump.advance n

/-- Moves to the place before token `n`, at most to the end marker. -/
def seek (c : Cursor) (n : Nat) : Cursor :=
  ({ c with behind := [], ahead := c.behind.reverse ++ c.ahead } : Cursor).advance n

/-- A step takes one token. -/
@[simp] theorem length_ahead_bump (c : Cursor) : c.bump.ahead.length = c.ahead.length - 1 := by
  unfold bump; split <;> simp_all

/-- An advance takes as many tokens as are left, at most. -/
@[simp] theorem length_ahead_advance (c : Cursor) (n : Nat) :
    (c.advance n).ahead.length = c.ahead.length - n := by
  induction n generalizing c with
  | zero => rfl
  | succ n ih => rw [advance, ih, length_ahead_bump]; omega

end Cursor

end SignatureLedger
