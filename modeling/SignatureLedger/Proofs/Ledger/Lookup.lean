import SignatureLedger.ByteMap
import Mathlib.Data.List.Nodup

/-!
# What maps hold

A map is seen through its lookups: an insertion changes one of them (`find?_insert`), and after a
row of insertions the last one with a key counts (`find?_foldl_insert`). How many values of a kind
there are (`tally`) changes with the value that is replaced. Keys with one start stand together in
the order of a map, so that a scan of that stretch meets all of them
(`takeWhile_dropWhile_eq_filter`).
-/

namespace SignatureLedger.ByteMap

variable {α β : Type}

/-! ## Lookups -/

/-- The value just inserted is found among the entries. -/
theorem find?_insertEntry_self (k : Bytes) (v : α) (es : List (Bytes × α)) :
    (insertEntry k v es).find? (·.1 == k) = some (k, v) := by
  induction es with
  | nil => simp [insertEntry]
  | cons e es ih =>
    rw [insertEntry]
    split
    · simp
    · split
      · rename_i hlt
        -- the entry that is passed over has another key
        have hne : e.1 ≠ k := fun h => List.lt_irrefl k (h ▸ hlt)
        rw [List.find?_cons_of_neg (by simpa using hne), ih]
      · simp

/-- Among the entries an insertion changes no other key. -/
theorem find?_insertEntry_of_ne {k k' : Bytes} (h : k' ≠ k) (v : α) (es : List (Bytes × α)) :
    (insertEntry k v es).find? (·.1 == k') = es.find? (·.1 == k') := by
  have hk : (k == k') = false := by simpa using Ne.symm h
  induction es with
  | nil => simp [insertEntry, hk]
  | cons e es ih =>
    rw [insertEntry]
    split
    · rw [List.find?_cons, hk]
    · split
      · rw [List.find?_cons, List.find?_cons, ih]
      · rename_i h₁ h₂
        obtain rfl : k = e.1 := List.le_antisymm (List.not_lt.1 h₂) (List.not_lt.1 h₁)
        rw [List.find?_cons, List.find?_cons, hk]

theorem find?_empty (k : Bytes) : (empty : ByteMap α).find? k = none := rfl

/-- The value just inserted is found. -/
theorem find?_insert_self (m : ByteMap α) (k : Bytes) (v : α) :
    (m.insert k v).find? k = some v := by
  rw [find?, insert, find?_insertEntry_self, Option.map_some]

/-- An insertion changes no other key. -/
theorem find?_insert_of_ne {k k' : Bytes} (h : k' ≠ k) (m : ByteMap α) (v : α) :
    (m.insert k v).find? k' = m.find? k' := by
  rw [find?, insert, find?_insertEntry_of_ne h, find?]

/-- **An insertion changes one lookup.** -/
theorem find?_insert (m : ByteMap α) (k k' : Bytes) (v : α) :
    (m.insert k v).find? k' = if k' = k then some v else m.find? k' := by
  split
  · rename_i h
    rw [h, find?_insert_self]
  · rename_i h
    exact find?_insert_of_ne h m v

/-- **The last one counts.** After a row of insertions a key has the value of the last one that has
this key, and its old value if there is none. -/
theorem find?_foldl_insert (key : β → Bytes) (value : β → α) (xs : List β) (m : ByteMap α)
    (k : Bytes) :
    (xs.foldl (fun m x => m.insert (key x) (value x)) m).find? k =
      (((xs.filter (key · == k)).getLast?).map value).or (m.find? k) := by
  induction xs generalizing m with
  | nil => rfl
  | cons x xs ih =>
    rw [List.foldl_cons, ih, find?_insert]
    by_cases h : k = key x
    · rw [if_pos h, List.filter_cons_of_pos (by simp [h]), List.getLast?_cons]
      cases (xs.filter (key · == k)).getLast? <;> rfl
    · rw [if_neg h, List.filter_cons_of_neg (by simpa using Ne.symm h)]

/-- With distinct keys the last one with a key is the only one. -/
theorem getLast?_filter_of_nodup {key : β → Bytes} {xs : List β} {x : β}
    (h : (xs.map key).Nodup) (hx : x ∈ xs) : (xs.filter (key · == key x)).getLast? = some x := by
  have hmem : x ∈ xs.filter (key · == key x) := List.mem_filter.mpr ⟨hx, beq_self_eq_true _⟩
  obtain ⟨y, hy⟩ := Option.isSome_iff_exists.mp
    (List.getLast?_isSome.mpr (List.ne_nil_of_mem hmem))
  obtain ⟨hyx, hkey⟩ := List.mem_filter.mp (List.mem_of_getLast? hy)
  rw [hy, List.inj_on_of_nodup_map h hyx hx (beq_iff_eq.mp hkey)]

/-! ## Keys -/

/-- No key occurs twice in a map. -/
theorem nodup_keys (m : ByteMap α) : m.keys.Nodup := by
  rw [keys, List.Nodup, List.pairwise_map]
  refine m.rising.imp fun {a b} h => ?_
  rintro heq
  rw [heq] at h
  exact List.lt_irrefl _ h

/-- The keys are those that the map contains. -/
theorem mem_keys_iff {m : ByteMap α} {k : Bytes} : k ∈ m.keys ↔ m.contains k = true := by
  rw [contains, find?, Option.isSome_map, List.find?_isSome, keys, List.mem_map]
  simp

/-- The entries are what the lookups find. -/
theorem mem_entries_iff {m : ByteMap α} {k : Bytes} {v : α} :
    (k, v) ∈ m.entries ↔ m.find? k = some v := by
  rw [find?, Option.map_eq_some_iff]
  constructor
  · intro h
    have hsome : (m.entries.find? (·.1 == k)).isSome := by
      rw [List.find?_isSome]
      exact ⟨(k, v), h, by simp⟩
    obtain ⟨e, he⟩ := Option.isSome_iff_exists.mp hsome
    refine ⟨e, he, ?_⟩
    have hkey : e.1 = k := by simpa using List.find?_some he
    have hnodup : (m.entries.map (·.1)).Nodup := m.nodup_keys
    rw [List.inj_on_of_nodup_map hnodup (List.mem_of_find?_eq_some he) h hkey]
  · rintro ⟨e, he, rfl⟩
    obtain rfl : e.1 = k := by simpa using List.find?_some he
    exact List.mem_of_find?_eq_some he

/-! ## Numbers of values -/

/-- The number of keys whose value satisfies `q`. -/
def tally (q : α → Bool) (m : ByteMap α) : Nat := m.entries.countP fun e => q e.2

/-- A new key goes in beside the others. -/
theorem insertEntry_perm {k : Bytes} {es : List (Bytes × α)} (h : es.find? (·.1 == k) = none)
    (v : α) : (insertEntry k v es).Perm ((k, v) :: es) := by
  induction es with
  | nil => exact .refl _
  | cons e es ih =>
    rw [List.find?_cons] at h
    split at h
    · simp at h
    · rename_i hne
      rw [insertEntry]
      split
      · exact .refl _
      · split
        · exact ((ih h).cons e).trans (.swap ..)
        · rename_i h₁ h₂
          have heq : k = e.1 := List.le_antisymm (List.not_lt.1 h₂) (List.not_lt.1 h₁)
          exact absurd hne (by simp [heq])

/-- An old key keeps its place, with another value. By induction on the entries, whose keys rise, so
that the insertion comes to the key before it would stop. -/
theorem insertEntry_of_find? {k : Bytes} {es : List (Bytes × α)} {e : Bytes × α} (hes : KeysRise es)
    (h : es.find? (·.1 == k) = some e) (v : α) :
    ∃ xs ys, es = xs ++ e :: ys ∧ insertEntry k v es = xs ++ (k, v) :: ys := by
  induction es with
  | nil => simp at h
  | cons d es ih =>
    obtain ⟨hHead, hTail⟩ := List.pairwise_cons.1 hes
    rw [List.find?_cons] at h
    split at h
    · rename_i hd
      obtain rfl : d.1 = k := by simpa using hd
      obtain rfl := Option.some.inj h
      refine ⟨[], es, rfl, ?_⟩
      rw [insertEntry, if_neg (List.lt_irrefl _), if_neg (List.lt_irrefl _)]
      rfl
    · -- the key is among the entries behind, so it is above the first one
      have hkey : e.1 = k := by simpa using List.find?_some h
      have hlt : d.1 < k := hkey ▸ hHead e (List.mem_of_find?_eq_some h)
      obtain ⟨xs, ys, rfl, heq⟩ := ih hTail h
      refine ⟨d :: xs, ys, rfl, ?_⟩
      rw [insertEntry, if_neg (List.lt_asymm hlt), if_pos hlt, heq]
      rfl

/-- A new key adds to the tally if its value counts. -/
theorem tally_insert_of_none {m : ByteMap α} {k : Bytes} (h : m.find? k = none) (q : α → Bool)
    (v : α) : (m.insert k v).tally q = m.tally q + if q v then 1 else 0 := by
  rw [find?, Option.map_eq_none_iff] at h
  rw [tally, insert, (insertEntry_perm h v).countP_eq, List.countP_cons, tally]

/-- The value that is replaced does not count any more. -/
theorem tally_insert_of_some {m : ByteMap α} {k : Bytes} {old : α} (h : m.find? k = some old)
    (q : α → Bool) (v : α) :
    (m.insert k v).tally q + (if q old then 1 else 0) = m.tally q + if q v then 1 else 0 := by
  rw [find?, Option.map_eq_some_iff] at h
  obtain ⟨e, he, rfl⟩ := h
  obtain ⟨xs, ys, hes, heq⟩ := insertEntry_of_find? m.rising he v
  have hnew : (m.insert k v).entries = xs ++ (k, v) :: ys := heq
  rw [tally, tally, hnew, hes]
  simp only [List.countP_append, List.countP_cons]
  omega

/-- All values together are as many as the map has entries. -/
theorem tally_true (m : ByteMap α) : m.tally (fun _ => true) = m.size :=
  congrFun List.countP_true m.entries

/-! ## Keys with a common start -/

/-- Nothing but longer texts stands between a text and one that it starts. -/
theorem prefix_of_le_of_lt {w k k' : Bytes} (hwk : w ≤ k) (hk : k < k') (hw : w <+: k') :
    w <+: k := by
  induction w generalizing k k' with
  | nil => exact List.nil_prefix
  | cons a w ih =>
    obtain ⟨s, rfl⟩ := hw
    cases k with
    | nil => exact absurd hwk (by simp)
    | cons b k =>
      rw [List.cons_append, List.cons_lt_cons_iff] at hk
      rw [List.cons_le_cons_iff] at hwk
      -- the first bytes are equal, for the one is neither below nor above the other
      obtain rfl : a = b := by
        rcases hwk with h | h
        · rcases hk with h' | h'
          · exact absurd h (UInt8.lt_asymm h')
          · exact h'.1.symm
        · exact h.1
      have hlt : ¬ a < a := UInt8.lt_irrefl a
      simp only [hlt, false_or, true_and] at hk hwk
      exact List.cons_prefix_cons.mpr ⟨rfl, ih hwk hk (List.prefix_append w s)⟩

/-- **A scan finds all.** In rising order, the keys that start with `w` are those from the first key
that is not below `w` up to the first one that does not start with it. -/
theorem takeWhile_dropWhile_eq_filter (w : Bytes) {ks : List Bytes}
    (hks : ks.Pairwise (fun k k' => k < k')) :
    (ks.dropWhile (· < w)).takeWhile w.isPrefixOf = ks.filter w.isPrefixOf := by
  induction ks with
  | nil => rfl
  | cons k ks ih =>
    obtain ⟨hHead, hTail⟩ := List.pairwise_cons.1 hks
    have hstart : w.isPrefixOf k = true ↔ w <+: k := List.isPrefixOf_iff_prefix
    by_cases hlt : k < w
    · have hno : ¬ w.isPrefixOf k = true := by
        rw [hstart]
        rintro ⟨s, rfl⟩
        exact List.not_lt.2 List.le_append_left hlt
      rw [List.dropWhile_cons_of_pos (by simpa using hlt), ih hTail, List.filter_cons_of_neg hno]
    · have hdrop : ∀ {l : List Bytes}, (∀ x ∈ l, ¬ x < w) → l.dropWhile (· < w) = l := by
        intro l hl
        cases l with
        | nil => rfl
        | cons x l => exact List.dropWhile_cons_of_neg (by simpa using hl x (by simp))
      have hge : ∀ x ∈ ks, ¬ x < w := fun x hx h => hlt (List.lt_trans (hHead x hx) h)
      rw [List.dropWhile_cons_of_neg (by simpa using hlt)]
      by_cases hp : w.isPrefixOf k = true
      · rw [List.takeWhile_cons_of_pos hp, List.filter_cons_of_pos hp, ← ih hTail, hdrop hge]
      · -- none of the later keys starts with `w`, for `k` stands between
        have hnone : ks.filter w.isPrefixOf = [] := by
          rw [List.filter_eq_nil_iff]
          intro x hx hpx
          rw [hstart] at hp
          exact hp (prefix_of_le_of_lt (List.not_lt.1 hlt) (hHead x hx)
            (List.isPrefixOf_iff_prefix.1 hpx))
        rw [List.takeWhile_cons_of_neg hp, List.filter_cons_of_neg hp, hnone]

end SignatureLedger.ByteMap
