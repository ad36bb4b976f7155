import SignatureLedger.Proofs.Ledger.Comparison
import SignatureLedger.Proofs.Signature.Collapse

/-!
# What is recorded is found again

The entries of an analysis know its symbols and nothing else under its path. A comparison of a later
analysis with them tells which symbols went, which are new, and of the others whether their digests
agree (`check_recorded`); without a change everything is in sync.
-/

namespace SignatureLedger

/-! ## Recorded entries -/

/-- After recording some entries, a key has its last one among them, or what it had before. -/
theorem Ledger.find?_recordAll (l : Ledger) (es : List LedgerEntry) (k : Bytes) :
    (l.recordAll es).find? k = ((es.filter (·.key == k)).getLast?).or (l.find? k) := by
  have h := ByteMap.find?_foldl_insert LedgerEntry.key id es l k
  rw [Option.map_id_fun, id] at h
  exact h

/-- Where the name of an entry is its key, it does not matter which of the two it is stored under.
-/
theorem Ledger.foldl_store_eq (l : Ledger) {es : List LedgerEntry} (h : ∀ e ∈ es, e.id = e.key) :
    es.foldl store l = l.recordAll es := by
  induction es generalizing l with
  | nil => rfl
  | cons e es ih =>
    have hstore : l.store e = l.record e := by rw [store, record, h e List.mem_cons_self]
    rw [List.foldl_cons, hstore]
    exact ih _ fun e' he' => h e' (List.mem_cons_of_mem e he')

/-- The ledger of a list of entries has their keys. -/
theorem Ledger.mem_keys_ofEntries_iff {es : List LedgerEntry} {k : Bytes} :
    k ∈ (ofEntries es).keys ↔ ∃ e ∈ es, e.key = k := by
  rw [ByteMap.mem_keys_iff, ByteMap.contains, ofEntries, find?_recordAll, ByteMap.find?_empty,
    Option.or_none, List.getLast?_isSome, ne_eq, List.filter_eq_nil_iff]
  simp

namespace Analysis

variable {a : Analysis} {now : Int64} {s : Signature}

/-- The keys of an analysis are those of its names. -/
theorem keys_entries (a : Analysis) (now : Int64) :
    (a.entries now).map (·.key) = a.names.map (ledgerKey a.path) := by
  rw [entries, names, List.map_map, List.map_map]
  rfl

/-- Symbols are recorded under their keys. -/
theorem id_of_mem_entries {e : LedgerEntry} (he : e ∈ a.entries now) : e.id = e.key := by
  obtain ⟨s, -, rfl⟩ := List.mem_map.mp he
  rfl

/-- The keys of an analysis are those of its signatures. -/
theorem mem_keys_entries_iff {k : Bytes} :
    (∃ e ∈ a.entries now, e.key = k) ↔ ∃ s ∈ a.signatures, ledgerKey a.path s.name = k := by
  constructor
  · rintro ⟨e, he, hk⟩
    obtain ⟨s, hs, rfl⟩ := List.mem_map.mp he
    exact ⟨s, hs, hk⟩
  · rintro ⟨s, hs, hk⟩
    exact ⟨_, List.mem_map_of_mem hs, hk⟩

/-- A ledger finds the entries that were recorded last. -/
theorem find?_recordAll_entries (hnames : a.names.Nodup) (hs : s ∈ a.signatures) (l : Ledger) :
    (l.recordAll (a.entries now)).find? (ledgerKey a.path s.name) =
      some (.ofSignature a.path now s) := by
  have hkeys : ((a.entries now).map (·.key)).Nodup := by
    rw [keys_entries]
    exact hnames.map fun _ _ => ledgerKey_inj.mp
  have hmem : LedgerEntry.ofSignature a.path now s ∈ a.entries now := List.mem_map_of_mem hs
  rw [Ledger.find?_recordAll]
  exact congrArg (Option.or · _) (ByteMap.getLast?_filter_of_nodup hkeys hmem)

/-- Recording changes nothing under other keys. -/
theorem find?_recordAll_entries_of_ne {k : Bytes}
    (h : ∀ s ∈ a.signatures, ledgerKey a.path s.name ≠ k) (l : Ledger) :
    (l.recordAll (a.entries now)).find? k = l.find? k := by
  have hnone : (a.entries now).filter (·.key == k) = [] := by
    rw [List.filter_eq_nil_iff]
    intro e he heq
    obtain ⟨s, hs, hk⟩ := mem_keys_entries_iff.mp ⟨e, he, beq_iff_eq.mp heq⟩
    exact h s hs hk
  rw [Ledger.find?_recordAll, hnone]
  rfl

/-- The ledger of an analysis has the keys of its symbols. -/
theorem mem_keys_ofEntries_iff {k : Bytes} :
    k ∈ (Ledger.ofEntries (a.entries now)).keys ↔
      ∃ s ∈ a.signatures, ledgerKey a.path s.name = k :=
  Ledger.mem_keys_ofEntries_iff.trans mem_keys_entries_iff

end Analysis

/-! ## Statuses of distinct signatures -/

namespace Drift

variable {ledger : Ledger} {path : Bytes} {current : List Signature} {s : Signature}

/-- With distinct names every signature decides over its key. -/
theorem find?_check_of_mem (hnames : (current.map (·.name)).Nodup) (hs : s ∈ current) :
    (check ledger path current).statuses.find? (ledgerKey path s.name) =
      some (status ledger path s) := by
  obtain ⟨before, after, rfl⟩ := List.append_of_mem hs
  refine find?_check_of_last fun t ht hname => ?_
  rw [List.map_append, List.map_cons] at hnames
  have hno := (List.nodup_cons.mp (List.nodup_append.mp hnames).2.1).1
  exact hno (List.mem_map.mpr ⟨t, ht, hname⟩)

/-- A key that is no signature's is removed if the ledger has it for the file, and else unknown. -/
theorem find?_check_of_not_mem {k : Bytes} (hk : ∀ s ∈ current, ledgerKey path s.name ≠ k) :
    (check ledger path current).statuses.find? k =
      if k ∈ ledger.keys ∧ ledgerKey path [] <+: k then some .removed else none := by
  have hpresent : (present ledger path current).statuses.find? k = none := by
    rw [← Option.not_isSome_iff_eq_none, isSome_find?_present]
    rintro ⟨s, hs, heq⟩
    exact hk s hs heq
  have hgone : k ∈ gone ledger path current ↔ k ∈ ledger.keys ∧ ledgerKey path [] <+: k := by
    rw [mem_gone_iff, and_iff_left hk]
  rw [check_eq, find?_addRemoved, hpresent]
  simp only [hgone]

/-- **All in sync.** If the ledger has the digests of all signatures, and nothing else for the file,
then everything is in sync and nothing else is counted. -/
theorem check_of_inSync (hnames : (current.map (·.name)).Nodup)
    (hstatus : ∀ s ∈ current, status ledger path s = .inSync)
    (hkeys : ∀ k ∈ ledger.keys, ledgerKey path [] <+: k →
      ∃ s ∈ current, ledgerKey path s.name = k) :
    let d := check ledger path current
    (∀ e ∈ d.statuses.entries, e.2 = .inSync) ∧ d.inSync = current.length ∧ d.drifted = 0 ∧
      d.notTracked = 0 ∧ d.removed = 0 := by
  intro d
  have hall : ∀ e ∈ d.statuses.entries, e.2 = .inSync := by
    intro e he
    have hfind : d.statuses.find? e.1 = some e.2 := ByteMap.mem_entries_iff.mp he
    have hmem : e.1 ∈ d.statuses.keys := List.mem_map_of_mem he
    have hs : ∃ s ∈ current, ledgerKey path s.name = e.1 :=
      (mem_keys_check_iff.mp hmem).elim id fun h => hkeys e.1 h.1 h.2
    obtain ⟨s, hs, hkey⟩ := hs
    rw [← hkey, find?_check_of_mem hnames hs, hstatus s hs] at hfind
    exact (Option.some.inj hfind).symm
  have hzero : ∀ t : DriftStatus, t.name ≠ DriftStatus.inSync.name → d.counter t = 0 := by
    intro t ht
    rw [counted_check ledger path current t]
    refine List.countP_eq_zero.mpr fun e he => ?_
    rw [hall e he]
    simpa using Ne.symm ht
  have hdrifted : d.drifted = 0 := hzero (.drifted [] []) (by decide)
  have hnotTracked : d.notTracked = 0 := hzero .notTracked (by decide)
  have hremoved : d.removed = 0 := hzero .removed (by decide)
  refine ⟨hall, ?_, hdrifted, hnotTracked, hremoved⟩
  have hsum : d.total = d.inSync + d.drifted + d.notTracked :=
    total_eq_counters ledger path current
  have htotal : d.total = current.length := by
    rw [total_check, hnames.dedup, List.length_map]
  omega

end Drift

/-! ## Recording and comparing -/

namespace Analysis

variable {a b : Analysis} {now : Int64} {s t : Signature} {n : Bytes}

/-- A recorded symbol that is found again is judged by the digests. -/
theorem status_ofEntries (ha : a.names.Nodup) (hs : s ∈ a.signatures) (hname : s.name = t.name) :
    Drift.status (.ofEntries (a.entries now)) a.path t =
      if Sha256.hex s.serialize = Sha256.hex t.serialize then .inSync
      else .drifted (Sha256.hex s.serialize) (Sha256.hex t.serialize) := by
  have hfind : (Ledger.recordAll ByteMap.empty (a.entries now)).find? (ledgerKey a.path s.name) =
      some (.ofSignature a.path now s) := find?_recordAll_entries ha hs ByteMap.empty
  rw [hname] at hfind
  rw [Drift.status, Ledger.ofEntries, hfind]
  -- the comparison asks for the digest of the signature, then for the entry's
  simp only [eq_comm (a := Sha256.hex s.serialize)]
  rfl

/-- A name of both analyses has the status of its signature against the recorded one. -/
theorem find?_check_of_both (ha : a.names.Nodup) (hb : b.names.Nodup) (hs : s ∈ a.signatures)
    (ht : t ∈ b.signatures) (hname : s.name = t.name) :
    (Drift.check (.ofEntries (a.entries now)) a.path b.signatures).statuses.find?
        (ledgerKey a.path t.name) =
      if Sha256.hex s.serialize = Sha256.hex t.serialize then some .inSync
      else some (.drifted (Sha256.hex s.serialize) (Sha256.hex t.serialize)) := by
  rw [Drift.find?_check_of_mem hb ht, status_ofEntries ha hs hname]
  split <;> rfl

/-- A name that is new is not tracked. -/
theorem find?_check_of_new (hb : b.names.Nodup) (ht : t ∈ b.signatures) (hno : t.name ∉ a.names) :
    (Drift.check (.ofEntries (a.entries now)) a.path b.signatures).statuses.find?
      (ledgerKey a.path t.name) = some .notTracked := by
  have hfind : (Ledger.ofEntries (a.entries now)).find? (ledgerKey a.path t.name) = none :=
    find?_recordAll_entries_of_ne
      (fun s hs heq => hno (List.mem_map.mpr ⟨s, hs, ledgerKey_inj.mp heq⟩)) _
  rw [Drift.find?_check_of_mem hb ht, Drift.status, hfind]

/-- A name that is gone is removed. -/
theorem find?_check_of_old (hno : n ∉ b.names) :
    (Drift.check (.ofEntries (a.entries now)) a.path b.signatures).statuses.find?
      (ledgerKey a.path n) = if n ∈ a.names then some .removed else none := by
  have hkeys : ledgerKey a.path n ∈ (Ledger.ofEntries (a.entries now)).keys ↔ n ∈ a.names := by
    rw [mem_keys_ofEntries_iff, names, List.mem_map]
    exact exists_congr fun s => and_congr_right fun _ => ledgerKey_inj
  rw [Drift.find?_check_of_not_mem fun t ht heq =>
    hno (List.mem_map.mpr ⟨t, ht, ledgerKey_inj.mp heq⟩)]
  simp only [hkeys, ledgerKey_nil_prefix, and_true]

/-- The four ways in which a name can be known. It is among the old names or not, and among the new
ones or not. -/
theorem find?_check_cases (now : Int64) (ha : a.names.Nodup) (hb : b.names.Nodup) (n : Bytes) :
    let found := (Drift.check (.ofEntries (a.entries now)) a.path b.signatures).statuses.find?
      (ledgerKey a.path n)
    (n ∈ a.names ∧ n ∈ b.names ∧ found ≠ some .removed ∧ found ≠ some .notTracked) ∨
      (n ∈ a.names ∧ n ∉ b.names ∧ found = some .removed) ∨
      (n ∉ a.names ∧ n ∈ b.names ∧ found = some .notTracked) ∨
      (n ∉ a.names ∧ n ∉ b.names ∧ found = none) := by
  by_cases hnb : n ∈ b.names
  · obtain ⟨t, ht, rfl⟩ := List.mem_map.mp hnb
    by_cases hna : t.name ∈ a.names
    · obtain ⟨s, hs, hname⟩ := List.mem_map.mp hna
      refine .inl ⟨hna, hnb, ?_⟩
      rw [find?_check_of_both ha hb hs ht hname]
      split <;> simp
    · exact .inr (.inr (.inl ⟨hna, hnb, find?_check_of_new hb ht hna⟩))
  · have hfind : (Drift.check (.ofEntries (a.entries now)) a.path b.signatures).statuses.find?
        (ledgerKey a.path n) = if n ∈ a.names then some .removed else none :=
      find?_check_of_old hnb
    by_cases hna : n ∈ a.names
    · rw [if_pos hna] at hfind
      exact .inr (.inl ⟨hna, hnb, hfind⟩)
    · rw [if_neg hna] at hfind
      exact .inr (.inr (.inr ⟨hna, hnb, hfind⟩))

end Analysis

/-- **Recording and comparing are exact.** Of the symbols of two versions of a source those that
only the recorded version has are removed, those that only the other has are not tracked, and the
others are in sync exactly when their digests agree. Without a change everything is in sync. -/
theorem check_recorded (options : AnalysisOptions) (now : Int64) (path source source' : Bytes) :
    let old := analyze options path source
    let new := analyze options path source'
    let d := Drift.check (Ledger.ofEntries (old.entries now)) path new.signatures
    (∀ n, d.statuses.find? (ledgerKey path n) = some .removed ↔ n ∈ old.names ∧ n ∉ new.names) ∧
    (∀ n, d.statuses.find? (ledgerKey path n) = some .notTracked ↔ n ∉ old.names ∧ n ∈ new.names) ∧
    (∀ s ∈ old.signatures, ∀ t ∈ new.signatures, s.name = t.name →
      d.statuses.find? (ledgerKey path t.name) =
        if Sha256.hex s.serialize = Sha256.hex t.serialize then some .inSync
        else some (.drifted (Sha256.hex s.serialize) (Sha256.hex t.serialize))) ∧
    (source' = source → (∀ e ∈ d.statuses.entries, e.2 = .inSync) ∧
      d.inSync = new.signatures.length ∧ d.drifted = 0 ∧ d.notTracked = 0 ∧ d.removed = 0) := by
  intro old new d
  have hold : old.names.Nodup := Analysis.nodup_names options path source
  have hnew : new.names.Nodup := Analysis.nodup_names options path source'
  have hcases n := Analysis.find?_check_cases now hold hnew n
  rw [show old.path = path from rfl] at hcases
  refine ⟨?removed, ?notTracked, ?both, ?same⟩
  case removed =>
    intro n
    rcases hcases n with ⟨ha, hb, h, -⟩ | ⟨ha, hb, h⟩ | ⟨ha, hb, h⟩ | ⟨ha, hb, h⟩
    · exact iff_of_false h fun hn => hn.2 hb
    · exact iff_of_true h ⟨ha, hb⟩
    · exact iff_of_false (by rw [h]; simp) fun hn => ha hn.1
    · exact iff_of_false (by rw [h]; simp) fun hn => ha hn.1
  case notTracked =>
    intro n
    rcases hcases n with ⟨ha, hb, -, h⟩ | ⟨ha, hb, h⟩ | ⟨ha, hb, h⟩ | ⟨ha, hb, h⟩
    · exact iff_of_false h fun hn => hn.1 ha
    · exact iff_of_false (by rw [h]; simp) fun hn => hb hn.2
    · exact iff_of_true h ⟨ha, hb⟩
    · exact iff_of_false (by rw [h]; simp) fun hn => hb hn.2
  case both =>
    intro s hs t ht hname
    exact Analysis.find?_check_of_both hold hnew hs ht hname
  case same =>
    rintro rfl
    refine Drift.check_of_inSync hnew ?_ ?_
    · intro t ht
      exact (Analysis.status_ofEntries hold ht rfl).trans (if_pos rfl)
    · intro k hk _
      exact Analysis.mem_keys_ofEntries_iff.mp hk

end SignatureLedger
