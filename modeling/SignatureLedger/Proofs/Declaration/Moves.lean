import SignatureLedger.Declaration.Module

/-!
# Moves on the state of a parse

What the moves of a parse do to the tokens ahead, and what the tests see there. A parse that reports
nothing only ever advances, so its states are all of the form `p.advance n`; the lemmas here compute
with that form.
-/

namespace SignatureLedger

namespace Token

/-! ## Words and keywords -/

/-- A token is one word at most. -/
theorem isWord_of_ne {t : Token} {v w : String} (h : t.isWord v = true)
    (hne : bytes v ≠ bytes w) : t.isWord w = false := by
  simp only [isWord, Bool.and_eq_true, beq_iff_eq] at h
  simp [isWord, h.1, h.2, hne]

/-- A keyword is no word. -/
theorem isWord_of_keyword (t : Token) {k : Keyword} (h : t.kind = .keyword k) (w : String) :
    t.isWord w = false := by
  simp [isWord, h]

/-- A word is an identifier. -/
theorem kind_of_isWord {t : Token} {w : String} (h : t.isWord w = true) : t.kind = .ident := by
  simp only [isWord, Bool.and_eq_true, beq_iff_eq] at h
  exact h.1

end Token

namespace Cursor

/-- Two advances are one by both numbers together. -/
theorem advance_advance (c : Cursor) (m n : Nat) : (c.advance m).advance n = c.advance (m + n) := by
  induction m generalizing c with
  | zero => rw [Nat.zero_add]; rfl
  | succ m ih => rw [advance, ih, Nat.add_right_comm, advance]

/-- One step leaves the tokens behind the first. -/
theorem ahead_bump (c : Cursor) : c.bump.ahead = c.ahead.tail := by
  unfold bump; split <;> simp_all

/-- An advance leaves the tokens behind those passed. -/
theorem ahead_advance (c : Cursor) (n : Nat) : (c.advance n).ahead = c.ahead.drop n := by
  induction n generalizing c with
  | zero => rfl
  | succ n ih => rw [advance, ih, ahead_bump, List.drop_tail]

variable (c : Cursor) (n k : Nat)

/-- What an advance has passed lies behind, in reverse. -/
theorem behind_advance : (c.advance n).behind = (c.ahead.take n).reverse ++ c.behind := by
  induction n generalizing c with
  | zero => rfl
  | succ n ih =>
    rw [advance, ih, ahead_bump, bump]
    split
    · rename_i h
      rw [h, List.tail_nil, List.take_nil, List.take_nil]
    · rename_i t ts h
      rw [h, List.tail_cons, List.take_succ_cons, List.reverse_cons, List.append_assoc]
      rfl

/-- A step does not move the end. -/
theorem stop_bump : c.bump.stop = c.stop := by
  unfold bump
  split <;> rfl

/-- An advance does not move the end. -/
theorem stop_advance : (c.advance n).stop = c.stop := by
  induction n generalizing c with
  | zero => rfl
  | succ n ih => rw [advance, ih, stop_bump]

/-- Looking ahead after an advance is looking further ahead. -/
theorem peekAt_advance : (c.advance n).peekAt k = c.peekAt (n + k) := by
  rw [peekAt, peekAt, ahead_advance, stop_advance, List.getD_eq_getElem?_getD,
    List.getD_eq_getElem?_getD, List.getElem?_drop]

/-- The token ahead is the one at distance zero. -/
theorem peek_eq_peekAt : c.peek = c.peekAt 0 := by
  unfold peek peekAt
  cases c.ahead <;> rfl

/-- The cursor before tokens of which the end marker is the last one. -/
theorem ofTokens_append_eofAt {ts : List Token} (h : ∀ t ∈ ts, t.kind ≠ .eof) (n : Nat) :
    ofTokens (ts ++ [Token.eofAt n]) = ⟨[], ts, n⟩ := by
  have hreal : ∀ t ∈ ts, (t.kind != .eof) = true := fun t ht => bne_iff_ne.mpr (h t ht)
  have hnone : ts.find? (·.kind == .eof) = none :=
    List.find?_eq_none.mpr fun t ht => by simpa using h t ht
  rw [ofTokens, List.takeWhile_append_of_pos hreal, List.find?_append, hnone]
  simp [Token.eofAt]

variable {c n}

/-- The token before the cursor is the one that it was at before the last step. -/
theorem previous_advance_succ (h : n < c.ahead.length) :
    (c.advance (n + 1)).previous = c.peekAt n := by
  rw [previous, behind_advance, List.take_succ_eq_append_getElem h, List.reverse_append, peekAt,
    List.getD_eq_getElem?_getD, List.getElem?_eq_getElem h]
  rfl

/-- There is nothing behind the end. -/
theorem advance_of_le (h : c.ahead.length ≤ n) : c.advance n = c.advance c.ahead.length := by
  have hahead : (c.advance n).ahead = (c.advance c.ahead.length).ahead := by
    rw [ahead_advance, ahead_advance, List.drop_eq_nil_of_le h, List.drop_length]
  have hbehind : (c.advance n).behind = (c.advance c.ahead.length).behind := by
    rw [behind_advance, behind_advance, List.take_of_length_le h, List.take_length]
  have hstop : (c.advance n).stop = (c.advance c.ahead.length).stop := by
    rw [stop_advance, stop_advance]
  cases hn : c.advance n
  cases hl : c.advance c.ahead.length
  simp_all

end Cursor

namespace Parser

/-! ## Advancing -/

theorem advance_zero (p : Parser) : p.advance 0 = p := rfl

theorem bump_eq_advance (p : Parser) : p.bump = p.advance 1 := rfl

/-- Two advances of a parser are one. -/
theorem advance_advance (p : Parser) (m n : Nat) : (p.advance m).advance n = p.advance (m + n) := by
  unfold advance; dsimp only; rw [Cursor.advance_advance]

/-- The tokens ahead of an advanced parser. -/
theorem ahead_advance (p : Parser) (n : Nat) : (p.advance n).ahead = p.ahead.drop n :=
  Cursor.ahead_advance p.cursor n

@[simp] theorem halted_bump (p : Parser) : p.bump.halted = p.halted := rfl

/-- Behind the last token an advance goes no further. -/
theorem advance_of_left_le {p : Parser} {n : Nat} (h : p.left ≤ n) :
    p.advance n = p.advance p.left := by
  unfold advance
  rw [Cursor.advance_of_le (c := p.cursor) h]
  rfl

/-- Behind the tokens `ts` stands what follows them. -/
theorem ahead_advance_of_append {p : Parser} {ts rest : List Token} (h : p.ahead = ts ++ rest) :
    (p.advance ts.length).ahead = rest := by
  rw [ahead_advance, h, List.drop_left]

/-- One step past the first of the tokens ahead. -/
theorem ahead_bump_of_cons {p : Parser} {t : Token} {rest : List Token} (h : p.ahead = t :: rest) :
    p.bump.ahead = rest := by
  rw [bump_eq_advance, ahead_advance, h, List.drop_one, List.tail_cons]

/-- Taking a stretch in which all is closed is advancing. -/
theorem take_of_closed (p : Parser) (n : Nat) : p.take ⟨n, none⟩ = p.advance n := rfl

/-- Taking nothing changes nothing. -/
theorem take_nothing (p : Parser) : p.take ⟨0, none⟩ = p := rfl

/-! ## What the tests see -/

section Tests

variable {p : Parser} {t : Token} {rest : List Token}

/-- The first of the tokens ahead is the one that is seen. -/
theorem peek_of_ahead (h : p.ahead = t :: rest) : p.peek = t := by
  rw [peek, Cursor.peek, show p.cursor.ahead = t :: rest from h, List.headD_cons]

/-- The second of the tokens ahead is the next one. -/
theorem peekNext_of_ahead {n : Token} (h : p.ahead = t :: n :: rest) : p.peekNext = n := by
  rw [peekNext, Cursor.peekAt, show p.cursor.ahead = t :: n :: rest from h]
  rfl

/-- With a token ahead the parse is not at its end. -/
theorem atEnd_of_ahead (h : p.ahead = t :: rest) : p.atEnd = false := by
  rw [atEnd, show p.cursor.ahead = t :: rest from h, List.isEmpty_cons]

/-- The parse is at its end exactly if no token is ahead. -/
theorem atEnd_iff : p.atEnd = true ↔ p.ahead = [] := List.isEmpty_iff

/-- Before its end the parse has a token ahead. -/
theorem exists_of_not_atEnd (h : p.atEnd = false) : ∃ t rest, p.ahead = t :: rest := by
  apply List.exists_cons_of_ne_nil
  intro hnil
  rw [atEnd_iff.mpr hnil] at h
  exact absurd h (by simp)

/-- A token of another kind than the end marker is there. -/
theorem exists_of_kind {k : TokenKind} (h : p.peek.kind = k) (hk : k ≠ .eof) :
    ∃ t rest, p.ahead = t :: rest := by
  cases hp : p.ahead with
  | nil =>
    rw [peek, Cursor.peek, show p.cursor.ahead = [] from hp] at h
    exact absurd h.symm hk
  | cons t rest => exact ⟨t, rest, rfl⟩

/-- Which sign stands ahead is read off the first token. -/
theorem isPunct_of_ahead (h : p.ahead = t :: rest) (k : Punct) : p.isPunct k = t.isPunct k := by
  rw [isPunct, peek_of_ahead h]

/-- Which keyword stands ahead is read off the first token. -/
theorem isKeyword_of_ahead (h : p.ahead = t :: rest) (k : Keyword) :
    p.isKeyword k = t.isKeyword k := by
  rw [isKeyword, peek_of_ahead h]

/-- Which word stands ahead is read off the first token. -/
theorem isWord_of_ahead (h : p.ahead = t :: rest) (w : String) : p.isWord w = t.isWord w := by
  rw [isWord, peek_of_ahead h]

end Tests

/-! ## Moves that find nothing to do -/

section NothingToDo

variable {p : Parser} {t : Token} {rest : List Token}

/-- A sign that is not there is not skipped. -/
theorem skipPunct_of_not {k : Punct} (h : p.ahead = t :: rest) (hk : t.isPunct k = false) :
    p.skipPunct k = p := by
  rw [skipPunct, isPunct_of_ahead h, hk]
  rfl

/-- Without the sign of a decorator nothing is skipped. -/
theorem skipDecorators_of_not (h : p.ahead = t :: rest) (ht : t.isPunct .atSign = false) :
    p.skipDecorators = p := by
  rw [skipDecorators, h, Extent.decorators, if_neg (by simp [ht]), take_nothing]

/-- Without an opening angle nothing is taken. -/
theorem takeAngle_of_not (h : p.ahead = t :: rest) (ht : t.isPunct .less = false) :
    p.takeAngle = p := by
  rw [takeAngle, h, Extent.angle?, if_neg (by simp [ht]), take_nothing]

/-- Without an opening angle there are no type parameters. -/
theorem typeParams?_of_not (h : p.ahead = t :: rest) (ht : t.isPunct .less = false) :
    p.typeParams? = (none, p) := by
  rw [typeParams?, isPunct_of_ahead h, ht]
  rfl

/-- At an opening brace there is no heritage to skip. -/
theorem skipHeritage_of_openBrace (h : p.ahead = t :: rest) (ht : t.isPunct .openBrace = true) :
    p.skipHeritage = p := by
  have hw : Extent.heritage (t :: rest) = ⟨0, none⟩ := by
    rw [Extent.heritage, if_pos (by simp [ht])]
  rw [skipHeritage, h, hw, take_nothing, ite_self]

/-- Without the sign of a value none is skipped. -/
theorem skipInitializer_of_not (h : p.ahead = t :: rest) (ht : t.isPunct .assign = false) :
    p.skipInitializer = p := by
  rw [skipInitializer, isPunct_of_ahead h, ht]
  rfl

/-- Without a colon there is no type. -/
theorem typeAnnotation?_of_not (h : p.ahead = t :: rest) (ht : t.isPunct .colon = false) :
    p.typeAnnotation? = (none, p) := by
  rw [typeAnnotation?, isPunct_of_ahead h, ht]
  rfl

/-- A semicolon finishes the item. -/
theorem finishItem_of_semicolon (h : p.ahead = t :: rest) (ht : t.isPunct .semicolon = true) :
    p.finishItem = p.advance 1 := by
  rw [finishItem, isPunct_of_ahead h, ht]
  rfl

/-- A sign that is there is what was expected. -/
theorem expect_of_isPunct {k : Punct} (h : p.ahead = t :: rest) (hh : p.halted = false)
    (ht : t.isPunct k = true) : p.expect k = (true, p.advance 1) := by
  rw [expect, hh, isPunct_of_ahead h, ht]
  rfl

/-- A token that is no word of a modifier ends the modifiers. -/
theorem read_of_not_modifier {t : Token} (hdeclare : t.isWord "declare" = false)
    (habstract : t.isWord "abstract" = false) (hasync : t.isWord "async" = false)
    (afterDefault : Bool) (m : DeclModifiers) (count : Nat) (ts : List Token) :
    DeclModifiers.read afterDefault m count (t :: ts) = (m, count) := by
  cases ts with
  | nil => rfl
  | cons n ts =>
    rw [DeclModifiers.read, hdeclare, habstract, hasync]
    simp

end NothingToDo

end Parser

end SignatureLedger
