import SignatureLedger.Declaration.Item
import SignatureLedger.Proofs.Declaration.Exports.Outside

/-!
# Why an export belongs to another item

Inside an item the word `export` can be a name, or it can stand in a stretch that the parser skips
without a look at its words. This module lists the places where that happens (`Excuse`). Type
arguments inside a value are apart (`LookAhead`): they are found by looking ahead from a less sign,
and what they take can be anything up to a greater sign.
-/

namespace SignatureLedger

/-- The kinds of signs and of reserved words behind which a type is due. -/
def TokenKind.asksForType : TokenKind → Bool
  | .punct .colon | .punct .assign | .punct .bar | .punct .amp | .punct .question | .punct .arrow
  | .keyword .extendsKw | .keyword .typeofKw | .keyword .newKw => true
  | _ => false

/-- A sign or a word behind which a type is due. -/
def Token.asksForType (t : Token) : Bool :=
  t.kind.asksForType || t.isWord "is" || t.isTypeOperator

/-- From a less sign in `u`, behind a name or a greater sign, the look-ahead for type arguments
passes over the token `e` behind `u`, or over a closing bracket that it has not seen opened. -/
def LookAhead (u : List Token) (e : Token) (post : List Token) : Prop :=
  ∃ x q lt v n, u = x ++ q :: lt :: v ∧ (q.kind.isName || q.isPunct .greater) = true
    ∧ lt.isPunct .less = true ∧ typeArgsEnd? (typeArgsLimit - 1) 1 (v ++ e :: post) = some n
    ∧ (v.length < n ∨ (groupEnd? 0 (v.take n)).isSome = true)

/-- What follows `t` and the tokens `d` is a value: `t` is an equals sign, or the word `default` and
`d` are the decorators behind it. -/
def StartsValue (t : Token) (d rest : List Token) : Prop :=
  t.isPunct .assign = true ∧ d = []
    ∨ t.isKeyword .defaultKw = true
      ∧ (d ++ rest).drop (Extent.decorators (d ++ rest)).width = rest

/-- No line that ends before `e` ends the statement or the value which the tokens `v` begin. -/
def GoesOn (v : List Token) (e : Token) : Prop := ∀ l ∈ v.getLast?, l.endsLine e = false

/-- Why the word `e` between the tokens `u` of an item and `post` is no item of its own. -/
inductive Excuse (u : List Token) (e : Token) (post : List Token) : Prop
  /-- It is a name behind a dot. -/
  | member (h : ∃ l ∈ u.getLast?, l.isPunct .dot = true)
  /-- It is the name of a type. -/
  | typeName (h : ∃ l ∈ u.getLast?, l.asksForType = true)
  /-- It is the name of a decorator. -/
  | decoratorName (h : ∃ l ∈ u.getLast?, l.isPunct .atSign = true)
  /-- It stands in a list of type parameters or arguments. -/
  | list {x v : List Token} {lt : Token} (hu : u = x ++ lt :: v) (hlt : lt.isPunct .less = true)
      (hclosed : (Extent.angle lt 1 (v ++ e :: post)).unclosed? = none)
      (hin : v.length < (Extent.angle lt 1 (v ++ e :: post)).width)
  /-- It stands in a value that no line before it ends. -/
  | value {x d v : List Token} {t : Token} (hu : u = x ++ t :: (d ++ v))
      (ht : StartsValue t d (v ++ e :: post))
      (hin : v.length < (Extent.expr none (v ++ e :: post)).width) (hon : GoesOn v e)
  /-- It stands before the body of a class or interface. -/
  | head {x w : List Token} {k : Token} (hu : u = x ++ k :: w)
      (hk : k.isKeyword .classKw = true ∨ k.isWord "interface" = true)
      (hin : w.length < (Extent.heritage (w ++ e :: post)).width)

variable {u v x post : List Token} {e l : Token}

/-! ## Looking further back -/

/-- More tokens in front do not change the last one. -/
theorem exists_getLast?_append {P : Token → Prop} (x : List Token)
    (h : ∃ l ∈ u.getLast?, P l) : ∃ l ∈ (x ++ u).getLast?, P l := by
  obtain ⟨l, hl, hP⟩ := h
  refine ⟨l, ?_, hP⟩
  rw [List.getLast?_append, Option.mem_def.mp hl]
  rfl

/-- A look ahead from further on is one from here. -/
theorem LookAhead.behind (x : List Token) (h : LookAhead u e post) : LookAhead (x ++ u) e post := by
  obtain ⟨y, q, lt, v, n, rfl, h⟩ := h
  exact ⟨x ++ y, q, lt, v, n, (List.append_assoc _ _ _).symm, h⟩

/-- An excuse holds however far one looks back. -/
theorem Excuse.behind (x : List Token) (h : Excuse u e post) : Excuse (x ++ u) e post := by
  cases h with
  | member h => exact .member (exists_getLast?_append x h)
  | typeName h => exact .typeName (exists_getLast?_append x h)
  | decoratorName h => exact .decoratorName (exists_getLast?_append x h)
  | list hu hlt hclosed hin =>
    exact .list (by rw [hu, List.append_assoc]) hlt hclosed hin
  | value hu ht hin hon => exact .value (by rw [hu, List.append_assoc]) ht hin hon
  | head hu hk hin => exact .head (by rw [hu, List.append_assoc]) hk hin

/-! ## Looking ahead -/

/-- Type arguments that pass over a closing bracket outside all others still pass over it when more
tokens come into view behind it. -/
theorem LookAhead.extend {c : Token} {y : List Token} (h : LookAhead u c (y ++ e :: post))
    (hu : Outside u) (hc : c.kind.isCloser = true) : LookAhead (u ++ c :: y) e post := by
  obtain ⟨x, q, lt, v, n, rfl, hq, hlt, hargs, hpass⟩ := h
  refine ⟨x, q, lt, v ++ c :: y, n, by simp, hq, hlt, by simpa using hargs, ?_⟩
  rcases hpass with hn | hn
  · -- the bracket itself is passed over
    by_cases hlong : (v ++ c :: y).length < n
    · exact .inl hlong
    right
    obtain ⟨m, hm⟩ : ∃ m, n = v.length + (m + 1) := ⟨n - v.length - 1, by omega⟩
    have hv : Outside v := by
      have hout : Outside ((x ++ [q, lt]) ++ v) := by simpa using hu
      exact hout.of_append
    rw [hm, List.take_length_add_append, List.take_succ_cons]
    exact groupEnd?_isSome_of_outside hv hc _
  · right
    obtain ⟨k, hk⟩ := Option.isSome_iff_exists.mp hn
    by_cases hlong : n ≤ v.length
    · rw [List.take_append_of_le_length hlong, hk]
      rfl
    · rw [List.take_of_length_le (by omega)] at hk
      have hmore : (v ++ c :: y).take n = v ++ (c :: y).take (n - v.length) := by
        rw [List.take_append, List.take_of_length_le (by omega)]
      rw [hmore, groupEnd?_append_of_eq_some hk]
      rfl

end SignatureLedger
