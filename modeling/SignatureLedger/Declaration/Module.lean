import SignatureLedger.Declaration.Item.Forward

/-!
# Modules

The items of a module, and of the namespaces in it, one after the other up to the end or up to the
brace that closes the body. `parseModule` gives the declarations in source order and the findings;
whatever is wrong with the source, it gives a result.
-/

namespace SignatureLedger

namespace Parser

/-- Between items: what an item that took no token leaves is one token shorter. -/
def pastItem (before after : Parser) : Parser :=
  if after.left = before.left then after.bump else after

/-- Behind an item at least one token fewer is left, be it one that the item did not take. -/
theorem left_pastItem_lt {before after : Parser} (h : after.left ≤ before.left)
    (hEnd : before.atEnd = false) : (pastItem before after).left < before.left := by
  have := left_bump_lt hEnd
  have hb := left_bump before
  unfold pastItem; split
  · rw [left_bump]; omega
  · omega

/-- The items stop before this state: at the end, at the brace that closes a body, or because the
parse is given up. -/
def itemsEnd (inBody : Bool) (p : Parser) : Bool :=
  p.atEnd || p.halted || (inBody && p.isPunct .closeBrace)

/-- Where items do not end, there is a token. -/
theorem atEnd_of_itemsEnd {inBody : Bool} {p : Parser} (h : ¬ p.itemsEnd inBody = true) :
    p.atEnd = false := by
  simp only [itemsEnd, Bool.or_eq_true, not_or, Bool.not_eq_true] at h
  exact h.1.1

/-- The declarations of the items from here on, and a state with no more tokens than `p`. -/
abbrev Items (p : Parser) := { r : List Decl × Parser // r.2.left ≤ p.left }

/-- Takes items up to the end or, with `inBody`, up to a closing brace. An item that takes no token
loses one, so that the loop goes on. -/
def itemsFrom (inBody : Bool) (p : Parser) : Items p :=
  if h : p.itemsEnd inBody then ⟨([], p), Nat.le_refl _⟩
  else
    have hEnd := atEnd_of_itemsEnd h
    match hi : p.item with
    | (.complete ds, q) =>
      have hq : q.left ≤ p.left := by have := left_item_le p; rwa [hi] at this
      have hlt := left_pastItem_lt hq hEnd
      let ⟨rest, hr⟩ := itemsFrom inBody (pastItem p q)
      ⟨(ds ++ rest.1, rest.2), by dsimp only; omega⟩
    | (.opened s body, q) =>
      have hq := left_item_lt_of_opened hi
      let ⟨inner, hc⟩ := itemsFrom true q
      have he := left_expect_le inner.2 .closeBrace
      let ⟨rest, hr⟩ := itemsFrom inBody (inner.2.expect .closeBrace).2
      ⟨(s.finish (some body) inner.1 (inner.2.expect .closeBrace).2 :: rest.1, rest.2),
        by dsimp only; omega⟩
termination_by p.left

end Parser

/-- The declarations of a source, and what the parse found. -/
structure Parsed where
  decls : List Decl
  found : List Diagnostic

/-- The state in which the parse of a module starts, after the findings `before`. It is given up
already if the source is not UTF-8. -/
def moduleStart (source : Bytes) (tolerance : Option Nat) (before : List Diagnostic)
    (tokens : List Token) : Parser where
  source
  tolerance
  cursor := Cursor.ofTokens tokens
  halted := tolerance.isSome && Diagnostic.hasCode .invalidUtf8 before

/-- Parses the tokens of a source after the findings `before`. `tolerance` is the number of errors
after which the parse stops, and `none` reports nothing. -/
def parseModule (source : Bytes) (tolerance : Option Nat) (before : List Diagnostic)
    (tokens : List Token) : Parsed :=
  let r := ((moduleStart source tolerance before tokens).itemsFrom false).1
  ⟨r.1, r.2.found⟩

end SignatureLedger
