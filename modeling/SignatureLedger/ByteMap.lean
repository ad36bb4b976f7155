import SignatureLedger.Text.Bytes

/-!
# Maps with byte strings as keys

A map is the list of its entries in the order of their keys, bytes compared as unsigned numbers. The
order is part of the type, so two maps with the same entries are equal.
-/

namespace SignatureLedger

/-- Entries stand in strictly rising order of their keys. -/
def KeysRise (es : List (Bytes × α)) : Prop := es.Pairwise (fun a b => a.1 < b.1)

/-- A map from byte strings: its entries, with rising keys, so that equal maps have equal entries.
-/
structure ByteMap (α : Type) where
  entries : List (Bytes × α)
  rising : KeysRise entries

namespace ByteMap

/-! ## On lists of entries -/

/-- Puts an entry in its place; it replaces one with the same key. -/
def insertEntry (k : Bytes) (v : α) : List (Bytes × α) → List (Bytes × α)
  | [] => [(k, v)]
  | e :: es =>
    if k < e.1 then (k, v) :: e :: es
    else if e.1 < k then e :: insertEntry k v es
    else (k, v) :: es

/-- An insertion adds its own entry and keeps others. -/
theorem mem_insertEntry {k : Bytes} {v : α} {a : Bytes × α} {es : List (Bytes × α)}
    (h : a ∈ insertEntry k v es) : a = (k, v) ∨ a ∈ es := by
  induction es with
  | nil => simpa [insertEntry] using h
  | cons e es ih =>
    rw [insertEntry] at h
    split at h
    · simpa using h
    · split at h
      · rcases List.mem_cons.1 h with rfl | h
        · simp
        · rcases ih h with rfl | h
          · simp
          · simp [h]
      · rcases List.mem_cons.1 h with rfl | h
        · simp
        · simp [h]

/-- An insertion keeps the keys rising. The key is put before the first one that is greater, and
where it is there already only its value changes. -/
theorem keysRise_insertEntry (k : Bytes) (v : α) {es : List (Bytes × α)} (h : KeysRise es) :
    KeysRise (insertEntry k v es) := by
  induction es with
  | nil => exact List.pairwise_singleton _ _
  | cons e es ih =>
    have ⟨hHead, hTail⟩ := List.pairwise_cons.1 h
    rw [insertEntry]
    split
    · rename_i hk
      refine List.pairwise_cons.2 ⟨fun a ha => ?_, h⟩
      rcases List.mem_cons.1 ha with rfl | ha
      · exact hk
      · exact List.lt_trans hk (hHead a ha)
    · rename_i hk
      split
      · rename_i hk'
        refine List.pairwise_cons.2 ⟨fun a ha => ?_, ih hTail⟩
        rcases mem_insertEntry ha with rfl | ha
        · exact hk'
        · exact hHead a ha
      · rename_i hk'
        have hEq : k = e.1 := List.le_antisymm (List.not_lt.1 hk') (List.not_lt.1 hk)
        exact List.pairwise_cons.2 ⟨fun a ha => hEq ▸ hHead a ha, hTail⟩

/-! ## On maps -/

/-- The map without entries. -/
def empty : ByteMap α := ⟨[], List.Pairwise.nil⟩

instance : Inhabited (ByteMap α) := ⟨empty⟩

/-- The entries in the order of their keys. -/
def toList (m : ByteMap α) : List (Bytes × α) := m.entries

/-- How many keys there are. -/
def size (m : ByteMap α) : Nat := m.entries.length

/-- The keys, rising. -/
def keys (m : ByteMap α) : List Bytes := m.entries.map (·.1)

/-- The value of a key, if the map has one. -/
def find? (m : ByteMap α) (k : Bytes) : Option α := (m.entries.find? (·.1 == k)).map (·.2)

/-- The map has a value for the key. -/
def contains (m : ByteMap α) (k : Bytes) : Bool := (m.find? k).isSome

/-- Gives the key a value, in place of one that it has. -/
def insert (m : ByteMap α) (k : Bytes) (v : α) : ByteMap α :=
  ⟨insertEntry k v m.entries, keysRise_insertEntry k v m.rising⟩

/-- Keeps the entries with the given property. -/
def filter (p : Bytes → α → Bool) (m : ByteMap α) : ByteMap α :=
  ⟨m.entries.filter (fun e => p e.1 e.2), m.rising.filter _⟩

/-- Takes a key out; without one it changes nothing. -/
def erase (m : ByteMap α) (k : Bytes) : ByteMap α := m.filter (fun k' _ => k' != k)

/-- The map of a list of entries; of two with the same key the later one stays. -/
def ofList (es : List (Bytes × α)) : ByteMap α := es.foldl (fun m e => m.insert e.1 e.2) empty

/-- Adds all entries of the second map to the first one; they replace those with the same keys. -/
def override (m n : ByteMap α) : ByteMap α := n.entries.foldl (fun m e => m.insert e.1 e.2) m

end ByteMap

end SignatureLedger
