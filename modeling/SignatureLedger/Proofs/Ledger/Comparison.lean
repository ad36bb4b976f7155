import Mathlib.Data.List.Dedup
import SignatureLedger.Drift
import SignatureLedger.Proofs.Ledger.Lookup

/-!
# Comparisons count exactly

`Drift.check` puts the signatures of a file in one after the other, where a later one replaces an
earlier one of its name in the map and in the counters, and then adds what only the ledger knows.
In the end every key has the status that the last signature of its name decides, and every counter
is the number of keys with its status (`check_exact`).
-/

namespace SignatureLedger

/-! ## Keys of one file -/

/-- Within one file, different names have different keys. -/
theorem ledgerKey_inj {path a b : Bytes} : ledgerKey path a = ledgerKey path b ↔ a = b := by
  simp [ledgerKey]

/-- Every key of a file starts with the prefix of the file. -/
theorem ledgerKey_nil_prefix (path name : Bytes) : ledgerKey path [] <+: ledgerKey path name :=
  ⟨name, by simp [ledgerKey]⟩

namespace Drift

variable {d : Drift} {ledger : Ledger} {path : Bytes} {current : List Signature}

/-- The scan for the keys of a file meets all of them. -/
theorem keysOf_eq_filter (ledger : Ledger) (path : Bytes) :
    keysOf ledger path = ledger.keys.filter (ledgerKey path []).isPrefixOf :=
  ByteMap.takeWhile_dropWhile_eq_filter _ (List.pairwise_map.mpr ledger.rising)

/-- The keys of a file are those of the ledger with its prefix. -/
theorem mem_keysOf_iff {k : Bytes} :
    k ∈ keysOf ledger path ↔ k ∈ ledger.keys ∧ ledgerKey path [] <+: k := by
  rw [keysOf_eq_filter, List.mem_filter, List.isPrefixOf_iff_prefix]

/-! ## Counters -/

/-- The counter that a status belongs to. -/
def counter (d : Drift) : DriftStatus → Nat
  | .inSync => d.inSync
  | .drifted _ _ => d.drifted
  | .notTracked => d.notTracked
  | .removed => d.removed

/-- Counting one status adds one to its own counter and to no other. -/
theorem counter_count (d : Drift) (s t : DriftStatus) :
    (d.count s).counter t = d.counter t + if s.name = t.name then 1 else 0 := by
  cases s <;> cases t <;> simp [count, counter, DriftStatus.name]

/-- Taking one status back subtracts one from its own counter and from no other. -/
theorem counter_uncount (d : Drift) (s t : DriftStatus) :
    (d.uncount s).counter t = d.counter t - if s.name = t.name then 1 else 0 := by
  cases s <;> cases t <;> simp [uncount, counter, DriftStatus.name]

/-- Every counter is the number of keys with its status. -/
def Counted (d : Drift) : Prop := ∀ t, d.counter t = d.statuses.tally (·.name = t.name)

/-- Nothing seen, nothing counted. -/
theorem counted_empty : Counted {} := by
  intro t
  cases t <;> rfl

/-! ## One signature -/

/-- Counting leaves the statuses alone. -/
theorem statuses_count (d : Drift) (s : DriftStatus) : (d.count s).statuses = d.statuses := by
  cases s <;> rfl

/-- Putting a status inserts it. -/
theorem statuses_put (d : Drift) (key : Bytes) (s : DriftStatus) :
    (d.put key s).statuses = d.statuses.insert key s := by
  rw [put, statuses_count]

/-- Putting a status counts the key, unless it was seen before. -/
theorem total_put (d : Drift) (key : Bytes) (s : DriftStatus) :
    (d.put key s).total = d.total + if (d.statuses.find? key).isSome then 0 else 1 := by
  have hcount : ∀ d : Drift, (d.count s).total = d.total := by cases s <;> exact fun _ => rfl
  have huncount : ∀ old, (d.uncount old).total = d.total := by
    intro old
    cases old <;> rfl
  rw [put, hcount]
  cases d.statuses.find? key with
  | none => rfl
  | some old => exact huncount old

/-- **A step keeps the counters exact**, also where it replaces a status. A status that is replaced
is taken out of the counters first. -/
theorem Counted.put (h : Counted d) (key : Bytes) (s : DriftStatus) : Counted (d.put key s) := by
  intro t
  rw [statuses_put, Drift.put]
  cases hold : d.statuses.find? key with
  | none =>
    have hnew := ByteMap.tally_insert_of_none hold (·.name = t.name) s
    have hsame : ∀ m n, ({ d with total := n, statuses := m } : Drift).counter t = d.counter t := by
      cases t <;> exact fun _ _ => rfl
    simp only [counter_count, hsame, h t, hnew, decide_eq_true_eq]
  | some old =>
    -- the old status is among those counted, so that taking it out loses nothing
    have hnew := ByteMap.tally_insert_of_some hold (·.name = t.name) s
    have hsame : ∀ (e : Drift) m, ({ e with statuses := m } : Drift).counter t = e.counter t := by
      cases t <;> exact fun _ _ => rfl
    simp only [counter_count, counter_uncount, hsame, h t, decide_eq_true_eq] at hnew ⊢
    have hold' : (if old.name = t.name then 1 else 0) ≤ d.statuses.tally (·.name = t.name) := by
      split
      · rename_i hname
        refine List.countP_pos_iff.mpr ⟨(key, old), ByteMap.mem_entries_iff.mpr hold, ?_⟩
        simpa using hname
      · exact Nat.zero_le _
    omega

/-! ## All signatures -/

/-- The comparison before what only the ledger knows is added. -/
def present (ledger : Ledger) (path : Bytes) (current : List Signature) : Drift :=
  current.foldl (fun d s => d.put (ledgerKey path s.name) (status ledger path s)) {}

/-- The keys that only the ledger knows. -/
def gone (ledger : Ledger) (path : Bytes) (current : List Signature) : List Bytes :=
  (keysOf ledger path).filter fun k => !(present ledger path current).statuses.contains k

/-- A check compares what is present, and adds what is gone as removed. -/
theorem check_eq (ledger : Ledger) (path : Bytes) (current : List Signature) :
    check ledger path current =
      (present ledger path current).addRemoved (gone ledger path current) :=
  rfl

/-- What is present is counted by status. -/
theorem counted_present (ledger : Ledger) (path : Bytes) (current : List Signature) :
    Counted (present ledger path current) :=
  List.foldlRecOn current _ counted_empty fun _ h _ _ => h.put _ _

/-- What is present has the statuses of its signatures, the last one of a name deciding. -/
theorem statuses_present (ledger : Ledger) (path : Bytes) (current : List Signature) :
    (present ledger path current).statuses =
      current.foldl (fun m s => m.insert (ledgerKey path s.name) (status ledger path s))
        ByteMap.empty :=
  (List.foldl_hom Drift.statuses fun d _ => (statuses_put d _ _).symm).symm

/-- The last signature of a name decides. -/
theorem find?_present (ledger : Ledger) (path : Bytes) (current : List Signature) (k : Bytes) :
    (present ledger path current).statuses.find? k =
      ((current.filter (ledgerKey path ·.name == k)).getLast?).map (status ledger path) := by
  rw [statuses_present, ByteMap.find?_foldl_insert, ByteMap.find?_empty, Option.or_none]

/-- A key is present exactly if a current signature has it. -/
theorem isSome_find?_present {k : Bytes} :
    ((present ledger path current).statuses.find? k).isSome ↔
      ∃ s ∈ current, ledgerKey path s.name = k := by
  rw [find?_present, Option.isSome_map, List.getLast?_isSome, ne_eq, List.filter_eq_nil_iff]
  simp

/-- The keys that are present are those of the current signatures. -/
theorem mem_keys_present_iff {k : Bytes} :
    k ∈ (present ledger path current).statuses.keys ↔ ∃ s ∈ current, ledgerKey path s.name = k := by
  rw [ByteMap.mem_keys_iff, ByteMap.contains, isSome_find?_present]

/-- No key is removed as long as only signatures are put in. -/
theorem removed_present (ledger : Ledger) (path : Bytes) (current : List Signature) :
    (present ledger path current).removed = 0 := by
  have hstatus : ∀ s, (status ledger path s).name ≠ DriftStatus.removed.name := by
    intro s
    unfold status
    cases ledger.find? (ledgerKey path s.name) with
    | none => simp [DriftStatus.name]
    | some e =>
      dsimp only [DriftStatus.ofEntry]
      split <;> simp [DriftStatus.name]
  refine (counted_present ledger path current .removed).trans ?_
  refine List.countP_eq_zero.mpr fun e he => ?_
  have hfind := ByteMap.mem_entries_iff.mp (show (e.1, e.2) ∈ _ from he)
  rw [find?_present, Option.map_eq_some_iff] at hfind
  obtain ⟨s, -, hs⟩ := hfind
  rw [← hs]
  simpa using hstatus s

/-- The total is the number of keys that are present. -/
theorem total_present (ledger : Ledger) (path : Bytes) (current : List Signature) :
    (present ledger path current).total = (present ledger path current).statuses.size := by
  refine List.foldlRecOn (motive := fun d : Drift => d.total = d.statuses.size) current _ rfl ?_
  intro d h s _
  rw [total_put, statuses_put, h, ← ByteMap.tally_true, ← ByteMap.tally_true]
  cases hfind : d.statuses.find? (ledgerKey path s.name) with
  | none => exact (ByteMap.tally_insert_of_none hfind (fun _ => true) _).symm
  | some old =>
    have := ByteMap.tally_insert_of_some hfind (fun _ => true) (status ledger path s)
    simpa using this.symm

/-- There is one key for each name. -/
theorem size_present (ledger : Ledger) (path : Bytes) (current : List Signature) :
    (present ledger path current).statuses.size = (current.map (·.name)).dedup.length := by
  have hinj : Function.Injective (ledgerKey path) := fun a b => ledgerKey_inj.mp
  have hperm : (present ledger path current).statuses.keys.Perm
      ((current.map (·.name)).dedup.map (ledgerKey path)) := by
    rw [List.perm_ext_iff_of_nodup (ByteMap.nodup_keys _) ((List.nodup_dedup _).map hinj)]
    intro k
    rw [mem_keys_present_iff]
    simp
  have hlen := hperm.length_eq
  rwa [List.length_map, ByteMap.keys, List.length_map] at hlen

/-- Every key has one of the four statuses. By induction on the keys; the statuses are told by their
names. -/
theorem size_of_counted (h : Counted d) :
    d.statuses.size = d.inSync + d.drifted + d.notTracked + d.removed := by
  have hone : ∀ s : DriftStatus, (if s.name = DriftStatus.inSync.name then 1 else 0)
      + (if s.name = (DriftStatus.drifted [] []).name then 1 else 0)
      + (if s.name = DriftStatus.notTracked.name then 1 else 0)
      + (if s.name = DriftStatus.removed.name then 1 else 0) = 1 := by
    intro s
    cases s <;> simp [DriftStatus.name]
  have hsum : ∀ es : List (Bytes × DriftStatus), es.length =
      es.countP (·.2.name = DriftStatus.inSync.name)
        + es.countP (·.2.name = (DriftStatus.drifted [] []).name)
        + es.countP (·.2.name = DriftStatus.notTracked.name)
        + es.countP (·.2.name = DriftStatus.removed.name) := by
    intro es
    induction es with
    | nil => rfl
    | cons e es ih =>
      have := hone e.2
      simp only [List.countP_cons, List.length_cons, decide_eq_true_eq]
      omega
  have hstatuses : d.statuses.size = d.counter .inSync + d.counter (.drifted [] [])
      + d.counter .notTracked + d.counter .removed := by
    rw [h, h, h, h]
    exact hsum d.statuses.entries
  exact hstatuses

/-! ## What only the ledger knows -/

/-- Nothing is gone twice. -/
theorem nodup_gone (ledger : Ledger) (path : Bytes) (current : List Signature) :
    (gone ledger path current).Nodup := by
  rw [gone, keysOf_eq_filter]
  exact ((ByteMap.nodup_keys ledger).filter _).filter _

/-- Gone are the keys of the file that no current signature has. -/
theorem mem_gone_iff {k : Bytes} :
    k ∈ gone ledger path current ↔
      (k ∈ ledger.keys ∧ ledgerKey path [] <+: k) ∧ ∀ s ∈ current, ledgerKey path s.name ≠ k := by
  have hkeys : (present ledger path current).statuses.contains k = true ↔
      ∃ s ∈ current, ledgerKey path s.name = k :=
    ByteMap.mem_keys_iff.symm.trans mem_keys_present_iff
  rw [gone, List.mem_filter, mem_keysOf_iff, Bool.not_eq_true', ← Bool.not_eq_true, hkeys]
  simp

/-- What is added as removed has that status, and all else keeps its own. -/
theorem find?_addRemoved (d : Drift) (ks : List Bytes) (k : Bytes) :
    (d.addRemoved ks).statuses.find? k =
      if k ∈ ks then some .removed else d.statuses.find? k := by
  induction ks generalizing d with
  | nil => simp [addRemoved]
  | cons k' ks ih =>
    rw [addRemoved, List.foldl_cons, ← addRemoved, ih, ByteMap.find?_insert]
    by_cases h : k ∈ ks
    · simp [h]
    · simp [h]

/-- New keys that are added as removed are counted. -/
theorem counted_addRemoved {ks : List Bytes} (h : Counted d) (hks : ks.Nodup)
    (hnew : ∀ k ∈ ks, d.statuses.find? k = none) : Counted (d.addRemoved ks) := by
  induction ks generalizing d with
  | nil => exact h
  | cons k ks ih =>
    obtain ⟨hk, hks⟩ := List.nodup_cons.mp hks
    rw [addRemoved, List.foldl_cons, ← addRemoved]
    refine ih ?_ hks ?_
    · intro t
      have hstep := ByteMap.tally_insert_of_none (hnew k (by simp)) (·.name = t.name)
        DriftStatus.removed
      dsimp only
      rw [hstep, ← h t]
      cases t <;> simp [counter, DriftStatus.name]
    · intro k' hk'
      have hne : k' ≠ k := by
        rintro rfl
        exact hk hk'
      rw [ByteMap.find?_insert_of_ne hne]
      exact hnew k' (by simp [hk'])

/-- What is removed does not count in the total. -/
theorem total_addRemoved (d : Drift) (ks : List Bytes) : (d.addRemoved ks).total = d.total := by
  induction ks generalizing d with
  | nil => rfl
  | cons k ks ih => exact ih _

/-- Only the counter of the removed keys grows. -/
theorem counter_addRemoved (d : Drift) (ks : List Bytes) {t : DriftStatus} (ht : t ≠ .removed) :
    (d.addRemoved ks).counter t = d.counter t := by
  induction ks generalizing d with
  | nil => rfl
  | cons k ks ih =>
    rw [addRemoved, List.foldl_cons, ← addRemoved, ih]
    cases t <;> first | rfl | exact absurd rfl ht

/-! ## The whole comparison -/

/-- A check is counted by status. -/
theorem counted_check (ledger : Ledger) (path : Bytes) (current : List Signature) :
    Counted (check ledger path current) := by
  rw [check_eq]
  refine counted_addRemoved (counted_present ledger path current) (nodup_gone _ _ _) ?_
  intro k hk
  have hno := (List.mem_filter.mp hk).2
  rw [Bool.not_eq_true', ByteMap.contains, Option.isSome_eq_false_iff, Option.isNone_iff_eq_none]
    at hno
  exact hno

/-- The status of a key is removed if it is gone, and else that of its last current signature. -/
theorem find?_check (ledger : Ledger) (path : Bytes) (current : List Signature) (k : Bytes) :
    (check ledger path current).statuses.find? k =
      if k ∈ gone ledger path current then some .removed
      else ((current.filter (ledgerKey path ·.name == k)).getLast?).map (status ledger path) := by
  rw [check_eq, find?_addRemoved, find?_present]

/-- A check speaks of the current signatures and of the keys of the file. What is gone is not among
the current signatures, so that the two cases do not meet. -/
theorem mem_keys_check_iff {k : Bytes} :
    k ∈ (check ledger path current).statuses.keys ↔
      (∃ s ∈ current, ledgerKey path s.name = k) ∨
        (k ∈ ledger.keys ∧ ledgerKey path [] <+: k) := by
  rw [ByteMap.mem_keys_iff, ByteMap.contains, check_eq, find?_addRemoved]
  by_cases h : ∃ s ∈ current, ledgerKey path s.name = k
  · have hgone : k ∉ gone ledger path current := by
      rw [mem_gone_iff]
      rintro ⟨-, hno⟩
      obtain ⟨s, hs, heq⟩ := h
      exact hno s hs heq
    rw [if_neg hgone, isSome_find?_present]
    simp [h]
  · have hgone : k ∈ gone ledger path current ↔ k ∈ ledger.keys ∧ ledgerKey path [] <+: k := by
      rw [mem_gone_iff, and_iff_left]
      exact fun s hs heq => h ⟨s, hs, heq⟩
    split
    · rename_i hk
      simp [hgone.mp hk]
    · rename_i hk
      rw [isSome_find?_present, ← hgone]
      simp [h, hk]

/-- The last signature of a name decides over its key. -/
theorem find?_check_of_last {before after : List Signature} {s : Signature}
    (h : ∀ t ∈ after, t.name ≠ s.name) :
    (check ledger path (before ++ s :: after)).statuses.find? (ledgerKey path s.name) =
      some (status ledger path s) := by
  have hgone : ledgerKey path s.name ∉ gone ledger path (before ++ s :: after) := by
    rw [mem_gone_iff]
    exact fun hk => hk.2 s (by simp) rfl
  have hafter : after.filter (ledgerKey path ·.name == ledgerKey path s.name) = [] := by
    rw [List.filter_eq_nil_iff]
    intro t ht
    simpa [ledgerKey_inj] using h t ht
  rw [find?_check, if_neg hgone, List.filter_append, List.filter_cons_of_pos (by simp), hafter]
  simp

/-- As many keys are removed as are gone. -/
theorem removed_check (ledger : Ledger) (path : Bytes) (current : List Signature) :
    (check ledger path current).removed = (gone ledger path current).length := by
  have hgrow : ∀ (ks : List Bytes) (d : Drift),
      (d.addRemoved ks).removed = d.removed + ks.length := by
    intro ks
    induction ks with
    | nil => exact fun _ => rfl
    | cons k ks ih =>
      intro d
      rw [addRemoved, List.foldl_cons, ← addRemoved, ih, List.length_cons]
      dsimp only
      omega
  rw [check_eq, hgrow, removed_present, Nat.zero_add]

/-- The total counts every name once. -/
theorem total_check (ledger : Ledger) (path : Bytes) (current : List Signature) :
    (check ledger path current).total = (current.map (·.name)).dedup.length := by
  rw [check_eq, total_addRemoved, total_present, size_present]

/-- The total leaves out the removed keys. -/
theorem total_eq_counters (ledger : Ledger) (path : Bytes) (current : List Signature) :
    let d := check ledger path current
    d.total = d.inSync + d.drifted + d.notTracked := by
  intro d
  have hsize := size_of_counted (counted_present ledger path current)
  have hzero := removed_present ledger path current
  have h₁ : d.inSync = (present ledger path current).inSync :=
    counter_addRemoved (t := .inSync) _ _ (by simp)
  have h₂ : d.drifted = (present ledger path current).drifted :=
    counter_addRemoved (t := .drifted [] []) _ _ (by simp)
  have h₃ : d.notTracked = (present ledger path current).notTracked :=
    counter_addRemoved (t := .notTracked) _ _ (by simp)
  have h₄ : d.total = (present ledger path current).statuses.size :=
    (total_addRemoved _ _).trans (total_present _ _ _)
  omega

/-- The status of a signature, written out. -/
theorem status_eq (ledger : Ledger) (path : Bytes) (s : Signature) :
    status ledger path s =
      match ledger.find? (ledgerKey path s.name) with
      | none => .notTracked
      | some e => if e.digest = s.digest then .inSync else .drifted e.digest s.digest := by
  rw [status]
  cases ledger.find? (ledgerKey path s.name) with
  | none => rfl
  | some e =>
    dsimp only [DriftStatus.ofEntry]
    simp only [eq_comm (a := s.digest)]

/-- A key without a signature is removed. -/
theorem find?_check_of_not_current {current : List Signature} {k : Bytes}
    (hk : k ∈ (check ledger path current).statuses.keys)
    (hno : ∀ s ∈ current, k ≠ ledgerKey path s.name) :
    (check ledger path current).statuses.find? k = some .removed := by
  rcases mem_keys_check_iff.mp hk with ⟨s, hs, heq⟩ | hledger
  · exact absurd heq.symm (hno s hs)
  have hgone : k ∈ gone ledger path current :=
    mem_gone_iff.mpr ⟨hledger, fun s hs heq => hno s hs heq.symm⟩
  rw [find?_check, if_pos hgone]

/-- Each counter is the number of keys with its status. -/
theorem counters_check (ledger : Ledger) (path : Bytes) (current : List Signature) :
    let d := check ledger path current
    d.inSync = d.statuses.tally (· matches .inSync) ∧
      d.drifted = d.statuses.tally (· matches .drifted _ _) ∧
      d.notTracked = d.statuses.tally (· matches .notTracked) ∧
      d.removed = d.statuses.tally (· matches .removed) := by
  intro d
  have hcount : Counted d := counted_check ledger path current
  have hname : ∀ t : DriftStatus, ∀ q : DriftStatus → Bool,
      (∀ s, q s = decide (s.name = t.name)) → d.counter t = d.statuses.tally q := by
    intro t q hq
    rw [hcount t]
    exact congrArg (d.statuses.tally ·) (funext fun s => (hq s).symm)
  refine ⟨hname .inSync _ ?_, hname (.drifted [] []) _ ?_, hname .notTracked _ ?_,
    hname .removed _ ?_⟩ <;> intro s <;> cases s <;> rfl

/-- There are no more names than signatures. -/
theorem total_check_le (ledger : Ledger) (path : Bytes) (current : List Signature) :
    (check ledger path current).total ≤ current.length := by
  have hle := (List.dedup_sublist (current.map (·.name))).length_le
  rwa [List.length_map, ← total_check ledger path] at hle

/-- There are no more removed keys than entries. -/
theorem removed_check_le (ledger : Ledger) (path : Bytes) (current : List Signature) :
    (check ledger path current).removed ≤ ledger.size := by
  have hsub : (gone ledger path current).Sublist ledger.keys := by
    rw [gone, keysOf_eq_filter]
    exact List.filter_sublist.trans List.filter_sublist
  have hlen := hsub.length_le
  rwa [ByteMap.keys, List.length_map, ← removed_check] at hlen

/-- **Comparisons are exact.** The keys are those of the signatures and those that the ledger has
for the file; the last signature of a name decides over its key, and the keys without a signature
are removed; each counter is the number of keys with its status, and the total is the number of
names. No number exceeds that of the signatures or of the entries. -/
theorem check_exact (ledger : Ledger) (path : Bytes) (current : List Signature) :
    let d := check ledger path current
    (∀ k, k ∈ d.statuses.keys ↔
      (∃ s ∈ current, k = ledgerKey path s.name) ∨ (k ∈ ledger.keys ∧ path ++ [Byte.hash] <+: k)) ∧
    (∀ before s after, current = before ++ s :: after → (∀ t ∈ after, t.name ≠ s.name) →
      d.statuses.find? (ledgerKey path s.name) =
        match ledger.find? (ledgerKey path s.name) with
        | none => some .notTracked
        | some e =>
          if e.digest = s.digest then some .inSync else some (.drifted e.digest s.digest)) ∧
    (∀ k ∈ d.statuses.keys, (∀ s ∈ current, k ≠ ledgerKey path s.name) →
      d.statuses.find? k = some .removed) ∧
    (d.inSync = d.statuses.tally (· matches .inSync) ∧
      d.drifted = d.statuses.tally (· matches .drifted _ _) ∧
      d.notTracked = d.statuses.tally (· matches .notTracked) ∧
      d.removed = d.statuses.tally (· matches .removed)) ∧
    d.total = d.inSync + d.drifted + d.notTracked ∧
    d.total = (current.map (·.name)).dedup.length ∧
    d.total ≤ current.length ∧ d.removed ≤ ledger.size := by
  intro d
  refine ⟨?keys, ?last, fun k hk hno => find?_check_of_not_current hk hno,
    counters_check ledger path current, total_eq_counters ledger path current,
    total_check ledger path current, total_check_le ledger path current,
    removed_check_le ledger path current⟩
  case keys =>
    intro k
    rw [mem_keys_check_iff]
    simp only [eq_comm (a := k)]
    rfl
  case last =>
    rintro before s after rfl hafter
    rw [find?_check_of_last hafter, status_eq]
    cases ledger.find? (ledgerKey path s.name) with
    | none => rfl
    | some e =>
      dsimp only
      split <;> rfl

end Drift

end SignatureLedger
