import SignatureLedger.Proofs.Declaration.StretchRules

/-!
# Stretches round by round

A long stretch is taken in rounds: each round looks at one token and either ends the stretch there
or takes the token, with a group or a list behind it, and leaves the rest to the next round. What a
round does is told without a recursion (`Round`), so that a property of a stretch is one of its
rounds.
-/

namespace SignatureLedger

/-- What a round does at a token. -/
inductive Round where
  /-- The stretch ends, and from the token on it is `e`. -/
  | stop (e : Extent)
  /-- The token is taken, and behind it `front`; if all is closed there, the stretch goes on. -/
  | go (front : Extent)

namespace Round

/-- The stretch from the token on, if behind the `n` tokens that the round takes along it is
`rest n`. -/
def andThen (r : Round) (rest : Nat → Extent) : Extent :=
  match r with
  | stop e => e
  | go front =>
    if front.unclosed?.isSome then front.shift 1 else (rest front.width).shift (1 + front.width)

/-- Behind a front in which all is closed the stretch goes on. -/
theorem andThen_go {front : Extent} (h : front.unclosed? = none) (rest : Nat → Extent) :
    (go front).andThen rest = (rest front.width).shift (1 + front.width) := by
  rw [andThen, h]
  rfl

/-- A front with a bracket that nothing closes is all that there is. -/
theorem andThen_go_of_unclosed {front : Extent} (h : front.unclosed?.isSome = true)
    (rest : Nat → Extent) : (go front).andThen rest = front.shift 1 := by
  rw [andThen, if_pos h]

end Round

/-! ## The last token that is taken -/

variable {t : Token} {rest : List Token}

/-- Behind a token and `n` more the last one taken is the one before the rest. -/
theorem getElem?_cons_of_pos {n : Nat} (h : 0 < n) : (t :: rest)[n]? = rest[n - 1]? := by
  rw [List.getElem?_cons, if_neg (Nat.ne_of_gt h)]

/-! ## Groups and lists -/

namespace Extent

/-- Type arguments inside an expression, if the look-ahead finds them. -/
def typeArgs (rest : List Token) : Extent :=
  match typeArgsEnd? (typeArgsLimit - 1) 1 rest with
  | some n => ⟨n, none⟩
  | none => ⟨0, none⟩

/-- A round that takes a group, if the group ends. -/
theorem andThen_group {n : Nat} (h : groupEnd? 0 rest = some n) (next : Nat → Extent) :
    (Round.go (group t rest)).andThen next = (next n).shift (1 + n) := by
  rw [group, h]
  rfl

/-- A group that does not end takes all tokens. -/
theorem andThen_group_of_none (h : groupEnd? 0 rest = none) (next : Nat → Extent) :
    (Round.go (group t rest)).andThen next = ⟨1 + rest.length, some t⟩ := by
  rw [group, h]
  rfl

/-! ## The rounds of each stretch -/

/-- A round of decorators takes one of them. -/
def decoratorsRound (t : Token) (rest : List Token) : Round :=
  if t.isPunct .atSign then .go (decorator rest) else .stop ⟨0, none⟩

/-- Decorators are passed round by round. -/
theorem decorators_cons : decorators (t :: rest)
    = (decoratorsRound t rest).andThen fun n => decorators (rest.drop n) := by
  rw [decorators, decoratorsRound]
  split <;> rfl

/-- A round of array brackets takes one pair. -/
def arrayRound (t : Token) (rest : List Token) : Round :=
  if t.isPunct .openBracket && !t.newlineBefore then .go (group t rest) else .stop ⟨0, none⟩

/-- Array suffixes are passed round by round. -/
theorem arraySuffix_cons : arraySuffix (t :: rest)
    = (arrayRound t rest).andThen fun n => arraySuffix (rest.drop n) := by
  rw [arraySuffix, arrayRound]
  split
  · cases hn : groupEnd? 0 rest with
    | none => rw [andThen_group_of_none hn]
    | some n => rw [andThen_group hn]
  · rfl

/-- A round of an expression takes a token, a group, or a list in angle brackets. -/
def exprRound (previous? : Option Token) (t : Token) (rest : List Token) : Round :=
  if t.isPunct .comma || t.isPunct .semicolon || t.kind.isCloser
      || previous?.any (·.endsLine t) then .stop ⟨0, none⟩
  else if t.kind.isOpener then .go (group t rest)
  else if t.isPunct .less && previous?.all (·.kind.beforeOperand) then .go (angle t 1 rest)
  else if t.isPunct .less && previous?.any (fun q => q.kind.isName || q.isPunct .greater) then
    .go (typeArgs rest)
  else .go ⟨0, none⟩

/-- An expression is passed round by round. It restates the definition: each branch takes some
tokens and goes on behind them, or it ends. -/
theorem expr_cons (previous? : Option Token) : expr previous? (t :: rest)
    = (exprRound previous? t rest).andThen fun n => expr (t :: rest)[n]? (rest.drop n) := by
  rw [expr, exprRound]
  split
  · rfl
  split
  · cases hn : groupEnd? 0 rest with
    | none => rw [andThen_group_of_none hn]
    | some n => rw [andThen_group hn, getElem?_cons_of_pos (groupEnd?_pos hn)]
  split
  · dsimp only
    by_cases hparams : (angle t 1 rest).unclosed?.isSome = true
    · rw [if_pos hparams, Round.andThen_go_of_unclosed hparams]
    · have hclosed := Option.not_isSome_iff_eq_none.mp hparams
      rw [if_neg hparams, Round.andThen_go hclosed, getElem?_cons_of_pos (angle_pos hclosed)]
  split
  · unfold typeArgs
    cases hn : typeArgsEnd? (typeArgsLimit - 1) 1 rest with
    | none => rfl
    | some n =>
      obtain ⟨u, v, g, -, rfl, hlast, -⟩ := exists_of_typeArgsEnd? hn
      have hpos : 0 < u.length := List.length_pos_iff.mpr fun hnil => by simp [hnil] at hlast
      rw [Round.andThen_go rfl, getElem?_cons_of_pos hpos]
  · rfl

/-- A round of a statement takes a token or a group. -/
def statementRound (previous? : Option Token) (t : Token) (rest : List Token) : Round :=
  if t.isPunct .semicolon then .stop ⟨1, none⟩
  else if t.kind.isCloser || previous?.any (·.endsLine t) then .stop ⟨0, none⟩
  else if t.kind.isOpener then .go (group t rest)
  else .go ⟨0, none⟩

/-- A statement is passed round by round. -/
theorem statement_cons (previous? : Option Token) : statement previous? (t :: rest)
    = (statementRound previous? t rest).andThen fun n =>
        statement (t :: rest)[n]? (rest.drop n) := by
  rw [statement, statementRound]
  split
  · rfl
  split
  · rfl
  split
  · cases hn : groupEnd? 0 rest with
    | none => rw [andThen_group_of_none hn]
    | some n => rw [andThen_group hn, getElem?_cons_of_pos (groupEnd?_pos hn)]
  · rfl

/-- A round of a clause takes a token or a group. A string or a group in round brackets is the last
one. -/
def clauseRound (taken : Nat) (previous? : Option Token) (t : Token) (rest : List Token) : Round :=
  if t.isPunct .semicolon then .stop ⟨1, none⟩
  else if t.isPunct .closeBrace then .stop ⟨0, none⟩
  else if 2 ≤ taken && t.newlineBefore
      && (t.isItemStart || (previous?.any (·.isPunct .closeBrace) && !t.isWord "from")) then
    .stop ⟨0, none⟩
  else if t.kind = .stringLit then .stop ((ended attributes? rest).shift 1)
  else if t.isPunct .openParen then .stop ((ended (group t) rest).shift 1)
  else if t.kind.isOpener then .go (group t rest)
  else .go ⟨0, none⟩

/-- A clause is passed round by round, counting what it has taken. -/
theorem clause_cons (taken : Nat) (previous? : Option Token) : clause taken previous? (t :: rest)
    = (clauseRound taken previous? t rest).andThen fun n =>
        clause (taken + 1 + n) (t :: rest)[n]? (rest.drop n) := by
  rw [clause, clauseRound]
  split
  · rfl
  split
  · rfl
  split
  · rfl
  split
  · rfl
  split
  · rfl
  split
  · cases hn : groupEnd? 0 rest with
    | none => rw [andThen_group_of_none hn]
    | some n => rw [andThen_group hn, getElem?_cons_of_pos (groupEnd?_pos hn)]
  · rfl

/-- A round of the head of a class or interface takes a token, a group, or a list in angle
brackets. -/
def heritageRound (t : Token) (rest : List Token) : Round :=
  if t.isPunct .openBrace || t.isPunct .semicolon || t.isPunct .closeBrace then .stop ⟨0, none⟩
  else if t.isPunct .less then .go (angle t 1 rest)
  else if t.kind.isOpener then .go (group t rest)
  else .go ⟨0, none⟩

/-- The heritage of a class is passed round by round. -/
theorem heritage_cons : heritage (t :: rest)
    = (heritageRound t rest).andThen fun n => heritage (rest.drop n) := by
  rw [heritage, heritageRound]
  split
  · rfl
  split
  · rfl
  split
  · cases hn : groupEnd? 0 rest with
    | none => rw [andThen_group_of_none hn]
    | some n => rw [andThen_group hn]
  · rfl

end Extent

end SignatureLedger
