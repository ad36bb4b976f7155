import SignatureLedger.Declaration.Item
import SignatureLedger.Proofs.Declaration.Stretch

/-!
# The rules of short stretches

The stretches that the parser takes by looking at single tokens: paths and decorators, the operators
before a type, and the dotted names of namespaces. Each is given as a stretch with an equation for
its parts, so that what is shown of the parts can be put together.
-/

namespace SignatureLedger

namespace Extent

/-! ## Paths and decorators -/

/-- A dotted path as a stretch. -/
def path (w : List Token) : Extent := ⟨pathWidth w, none⟩

/-- The name at the front as a stretch. -/
def nameAt (w : List Token) : Extent := ⟨if w.head?.any (·.kind.isName) then 1 else 0, none⟩

/-- A decorator in parentheses is their group. -/
theorem decorator_of_openParen {t : Token} (ht : t.isPunct .openParen = true) (ts : List Token) :
    Extent.decorator (t :: ts) = (Extent.group t ts).shift 1 := by
  rw [Extent.decorator, if_pos ht]

/-- The name and the path of a decorator. -/
def pathAt (w : List Token) : Extent := (nameAt w).andThen path w

/-- Type arguments and arguments, as far as they are there. -/
def argumentsAt (w : List Token) : Extent := (Extent.angle? w).andThen Extent.parens? w

/-- A decorator that is no expression in brackets. -/
def pathDecorator (w : List Token) : Extent := (pathAt w).andThen argumentsAt w

/-- Any other decorator is a path, with arguments or without. -/
theorem decorator_of_not_openParen {t : Token} (ht : ¬ t.isPunct .openParen = true)
    (ts : List Token) : Extent.decorator (t :: ts) = pathDecorator (t :: ts) := by
  rw [Extent.decorator, if_neg ht]
  rfl

/-- A stretch and the semicolon behind it, if one is there. -/
def ended (E : List Token → Extent) (w : List Token) : Extent := (E w).andThen Extent.semicolon? w

/-! ## Types and names -/

/-- The operators before a type as a stretch. -/
def operators (w : List Token) : Extent := ⟨typeOperatorsWidth w, none⟩

/-- A dotted name as a stretch. -/
def dotted (last : Token) (w : List Token) : Extent := ⟨(Parser.dottedName last w).1, none⟩

end Extent

/-- The token is an operator before a type, given what starts behind it. -/
def Token.isOperatorBefore (t : Token) (ts : List Token) : Bool :=
  (t.isTypeOperator && ts.head?.any Token.startsType) || t.isKeyword .typeofKw
    || t.isKeyword .newKw || (t.isWord "abstract" && ts.head?.any (·.isKeyword .newKw))

/-- Operators in front of a type are counted one by one. -/
theorem typeOperatorsWidth_cons (t : Token) (ts : List Token) :
    typeOperatorsWidth (t :: ts)
      = if t.isOperatorBefore ts then 1 + typeOperatorsWidth ts else 0 := rfl

namespace Extent

/-- An operator in front belongs to them. -/
theorem operators_cons_of_operator {t : Token} {ts : List Token}
    (h : t.isOperatorBefore ts = true) : operators (t :: ts) = (operators ts).shift 1 := by
  rw [operators, typeOperatorsWidth_cons, if_pos h]
  rfl

/-- Without an operator in front there are none. -/
theorem operators_cons_of_not {t : Token} {ts : List Token} (h : t.isOperatorBefore ts = false) :
    operators (t :: ts) = ⟨0, none⟩ := by
  rw [operators, typeOperatorsWidth_cons, h, if_neg (by decide)]

end Extent

/-! ## Words -/

/-- A word in front of words. -/
theorem kind_of_mem_take_succ {t : Token} {rest : List Token} {k : Nat} (ht : t.kind = .ident)
    (h : ∀ u ∈ rest.take k, u.kind = .ident) : ∀ u ∈ (t :: rest).take (k + 1), u.kind = .ident := by
  rw [List.take_succ_cons, List.forall_mem_cons]
  exact ⟨ht, h⟩

/-! ## Type arguments of a value -/

/-- Type arguments end behind a greater sign. By induction on the tokens, whose last one is the
greater sign that the look-ahead succeeds at. -/
theorem exists_of_typeArgsEnd? {w : List Token} {steps depth n : Nat}
    (h : typeArgsEnd? steps depth w = some n) :
    ∃ u v g, w = u ++ v ∧ u.length = n ∧ u.getLast? = some g ∧ g.isPunct .greater = true := by
  induction w generalizing steps depth n with
  | nil => cases steps <;> simp [typeArgsEnd?] at h
  | cons t ts ih =>
    cases steps with
    | zero => simp [typeArgsEnd?] at h
    | succ steps =>
      -- the token is taken, and the arguments go on behind it
      have hstep : ∀ d, (typeArgsEnd? steps d ts).map (· + 1) = some n →
          ∃ u v g, t :: ts = u ++ v ∧ u.length = n ∧ u.getLast? = some g
            ∧ g.isPunct .greater = true := by
        intro d hd
        obtain ⟨m, hm, rfl⟩ := Option.map_eq_some_iff.mp hd
        obtain ⟨u, v, g, rfl, rfl, hg, hgreater⟩ := ih hm
        exact ⟨t :: u, v, g, rfl, rfl, getLast?_cons_of_getLast? t hg, hgreater⟩
      rw [typeArgsEnd?] at h
      split at h
      · exact hstep _ h
      · split at h
        · rename_i hgreater
          split at h
          · split at h
            · obtain rfl := Option.some.inj h
              exact ⟨[t], ts, t, rfl, rfl, rfl, hgreater⟩
            · exact absurd h (by simp)
          · exact hstep _ h
        · split at h
          · exact hstep _ h
          · exact absurd h (by simp)

end SignatureLedger
