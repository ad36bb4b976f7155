import SignatureLedger.Proofs.Declaration.Moves

/-!
# Item by item

`Parser.itemsFrom` takes one item after the other. Here one round of it is split off: what the item
declares (`itemDecls`) and where the next item starts (`afterItem`), so that later proofs see a
plain loop (`itemsFrom_eq`). The states in which the items of a module are taken are its
`itemStates`.
-/

namespace SignatureLedger

namespace Parser

/-! ## One round -/

/-- Takes what is left of an item: the body of a namespace and its closing brace. -/
def closeItem (r : Item × Parser) : List Decl × Parser :=
  match r with
  | (.complete ds, q) => (ds, q)
  | (.opened s body, q) =>
    let inner := (itemsFrom true q).1
    let q := (inner.2.expect .closeBrace).2
    ([s.finish (some body) inner.1 q], q)

/-- Where the next item starts. -/
def afterItem (p : Parser) : Parser := pastItem p (closeItem p.item).2

/-- The declarations of the item at the cursor. -/
def itemDecls (p : Parser) : List Decl := (closeItem p.item).1

/-- Behind a complete item the loop goes on. -/
theorem afterItem_of_complete {p q : Parser} {ds : List Decl} (h : p.item = (.complete ds, q)) :
    p.afterItem = pastItem p q := by
  rw [afterItem, h, closeItem]

/-- A complete item gives its declarations. -/
theorem itemDecls_of_complete {p q : Parser} {ds : List Decl} (h : p.item = (.complete ds, q)) :
    p.itemDecls = ds := by
  rw [itemDecls, h, closeItem]

/-- Behind an opened namespace the loop goes on past the closing brace. -/
theorem afterItem_of_opened {p q : Parser} {s : SpaceStart} {body : Nat}
    (h : p.item = (.opened s body, q)) :
    p.afterItem = ((itemsFrom true q).1.2.expect .closeBrace).2 := by
  have hq := left_item_lt_of_opened h
  have hinner : (itemsFrom true q).1.2.left ≤ q.left := (itemsFrom true q).2
  have hexpect := left_expect_le (itemsFrom true q).1.2 .closeBrace
  rw [afterItem, h, closeItem]
  exact if_neg (by dsimp only; omega)

/-- An opened namespace gives itself with its members. -/
theorem itemDecls_of_opened {p q : Parser} {s : SpaceStart} {body : Nat}
    (h : p.item = (.opened s body, q)) :
    p.itemDecls = [s.finish (some body) (itemsFrom true q).1.1
      ((itemsFrom true q).1.2.expect .closeBrace).2] := by
  rw [itemDecls, h, closeItem]

theorem itemsFrom_of_itemsEnd {inBody : Bool} {p : Parser} (h : p.itemsEnd inBody = true) :
    (itemsFrom inBody p).1 = ([], p) := by
  rw [itemsFrom, dif_pos h]

/-- **One item at a time.** Before the end a module is its first item and the items behind it. -/
theorem itemsFrom_eq {inBody : Bool} {p : Parser} (h : ¬ p.itemsEnd inBody = true) :
    (itemsFrom inBody p).1 =
      (p.itemDecls ++ (itemsFrom inBody p.afterItem).1.1, (itemsFrom inBody p.afterItem).1.2) := by
  rw [itemsFrom, dif_neg h]
  dsimp only
  split
  · rename_i ds q hi
    rw [afterItem_of_complete hi, itemDecls_of_complete hi]
  · rename_i s body q hi
    rw [afterItem_of_opened hi, itemDecls_of_opened hi]
    rfl

/-! ## All rounds -/

/-- The loop over items leaves no more tokens. -/
theorem left_itemsFrom_le (inBody : Bool) (p : Parser) :
    (itemsFrom inBody p).1.2.left ≤ p.left := (itemsFrom inBody p).2

/-- Every round takes a token. -/
theorem left_afterItem_lt {p : Parser} (h : p.atEnd = false) : p.afterItem.left < p.left := by
  rcases hi : p.item with ⟨ds | ⟨s, body⟩, q⟩
  · have hq : q.left ≤ p.left := by
      have := left_item_le p
      rwa [hi] at this
    rw [afterItem_of_complete hi]
    exact left_pastItem_lt hq h
  · rw [afterItem_of_opened hi]
    have hq := left_item_lt_of_opened hi
    have hinner := left_itemsFrom_le true q
    have hexp := left_expect_le (itemsFrom true q).1.2 .closeBrace
    omega

/-- The states in which the items from here on are taken, those inside namespaces apart. -/
def itemStates (inBody : Bool) (p : Parser) : List Parser :=
  if _h : p.itemsEnd inBody then [] else p :: itemStates inBody p.afterItem
termination_by p.left
decreasing_by exact left_afterItem_lt (atEnd_of_itemsEnd _h)

/-- The declarations of a module are those of its items, in their order. -/
theorem decls_itemsFrom (inBody : Bool) (p : Parser) :
    (itemsFrom inBody p).1.1 = (itemStates inBody p).flatMap itemDecls := by
  fun_induction itemStates inBody p with
  | case1 p h => rw [itemsFrom_of_itemsEnd h, List.flatMap_nil]
  | case2 p h ih => rw [itemsFrom_eq h, List.flatMap_cons, ih]

end Parser

end SignatureLedger
