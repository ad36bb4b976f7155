import Mathlib.Data.List.Sort
import SignatureLedger.Proofs.Ledger.Recording

/-!
# What a comparison sees of a ledger

A comparison looks up the digests of the symbols that a file has now, and lists the keys of the
ledger that begin with the file's path and a hash sign; nothing else of the ledger is seen
(`check_eq_iff`). The keys of another file can begin in the same way, since paths and names may have
hash signs in them (`ledgerKey_nil_prefix_iff`). So the entries of other files change nothing
exactly if they bring no such key and no such digest (`check_ofEntries_own`).
-/

namespace SignatureLedger

/-! ## Keys of two files -/

/-- The key of a symbol in a file begins like those of `path` if the file is `path`, if its path
goes on behind `path` with a hash sign, or if `path` is made of its path, a hash sign and more with
which the name of the symbol begins. -/
theorem ledgerKey_nil_prefix_iff {path file symbol : Bytes} :
    ledgerKey path [] <+: ledgerKey file symbol ↔
      file = path ∨ ledgerKey path [] <+: file ∨
        ∃ more, path = ledgerKey file more ∧ ledgerKey more [] <+: symbol := by
  constructor
  · rintro ⟨rest, h⟩
    simp only [ledgerKey, List.append_assoc, List.cons_append, List.nil_append] at h
    -- which of the two paths is the shorter one
    rcases List.append_eq_append_iff.mp h with ⟨more, rfl, hmore⟩ | ⟨more, rfl, hmore⟩
    · cases more with
      | nil => exact .inl (List.append_nil path)
      | cons b more =>
        obtain ⟨rfl, -⟩ := List.cons.inj hmore
        exact .inr (.inl ⟨more, by simp [ledgerKey]⟩)
    · cases more with
      | nil => exact .inl (List.append_nil file).symm
      | cons b more =>
        obtain ⟨rfl, hsymbol⟩ := List.cons.inj hmore
        exact .inr (.inr ⟨more, rfl, rest, by simp [ledgerKey, hsymbol]⟩)
  · rintro (rfl | ⟨rest, rfl⟩ | ⟨more, rfl, rest, rfl⟩)
    · exact ledgerKey_nil_prefix file symbol
    · exact ⟨rest ++ Byte.hash :: symbol, by simp [ledgerKey]⟩
    · exact ⟨rest, by simp [ledgerKey]⟩

/-- Keys tell files apart whose paths have no hash signs. -/
theorem LedgerEntry.file_eq_of_prefix {path : Bytes} {e : LedgerEntry} (hpath : Byte.hash ∉ path)
    (he : Byte.hash ∉ e.file) (h : ledgerKey path [] <+: e.key) : e.file = path := by
  rcases ledgerKey_nil_prefix_iff.mp h with h | h | ⟨more, rfl, -⟩
  · exact h
  · exact absurd (h.subset (by simp [ledgerKey])) he
  · exact absurd (by simp [ledgerKey]) hpath

/-! ## Digests -/

namespace Ledger

/-- The digest that a ledger has under a key. -/
def digest? (l : Ledger) (k : Bytes) : Option Bytes := (l.find? k).map (·.digest)

variable {es : List LedgerEntry} {k : Bytes}

/-- The digest of a key is that of its last entry. -/
theorem digest?_ofEntries (es : List LedgerEntry) (k : Bytes) :
    (ofEntries es).digest? k = ((es.filter (·.key == k)).getLast?).map (·.digest) := by
  rw [digest?, ofEntries, find?_recordAll, ByteMap.find?_empty, Option.or_none]

/-- A key is in the ledger exactly if it has a digest. -/
theorem mem_keys_iff_digest? {l : Ledger} : k ∈ l.keys ↔ (l.digest? k).isSome := by
  rw [ByteMap.mem_keys_iff, ByteMap.contains, digest?, Option.isSome_map]

end Ledger

namespace Drift

variable {l l' : Ledger} {path : Bytes} {current : List Signature}
  {es es' : List LedgerEntry}

/-! ## Two ledgers -/

/-- Two entries give a signature the same status exactly if their digests agree. -/
theorem ofEntry_eq_iff {e e' : LedgerEntry} (s : Signature) :
    DriftStatus.ofEntry e s = DriftStatus.ofEntry e' s ↔ e.digest = e'.digest := by
  rw [DriftStatus.ofEntry, DriftStatus.ofEntry]
  by_cases h : s.digest = e.digest
  · rw [if_pos h, ← h]
    by_cases h' : s.digest = e'.digest <;> simp [h']
  · rw [if_neg h]
    by_cases h' : s.digest = e'.digest
    · simp [← h', Ne.symm h]
    · simp [h']

/-- The status of a signature tells which digest the ledger has for it, if any. -/
theorem status_eq_iff (s : Signature) :
    status l path s = status l' path s ↔
      l.digest? (ledgerKey path s.name) = l'.digest? (ledgerKey path s.name) := by
  have htracked : ∀ e, DriftStatus.ofEntry e s ≠ .notTracked := by
    intro e
    rw [DriftStatus.ofEntry]
    split <;> simp
  unfold status Ledger.digest?
  cases l.find? (ledgerKey path s.name) with
  | none =>
    cases l'.find? (ledgerKey path s.name) with
    | none => simp
    | some e' => simp [(htracked e').symm]
  | some e =>
    cases l'.find? (ledgerKey path s.name) with
    | none => simp [htracked e]
    | some e' => simp [ofEntry_eq_iff]

/-- Two ledgers have the same keys of a file exactly if they agree on every key with its prefix. -/
theorem keysOf_eq_iff :
    keysOf l path = keysOf l' path ↔ ∀ k, ledgerKey path [] <+: k → (k ∈ l.keys ↔ k ∈ l'.keys) := by
  have hrise : ∀ l : Ledger, (keysOf l path).Pairwise (· < ·) := by
    intro l
    rw [keysOf_eq_filter]
    exact (List.pairwise_map.mpr l.rising).filter _
  constructor
  · intro h k hk
    have hmem : k ∈ keysOf l path ↔ k ∈ keysOf l' path := by rw [h]
    simpa only [mem_keysOf_iff, hk, and_true] using hmem
  · intro h
    refine List.Pairwise.eq_of_mem_iff (hrise l) (hrise l') fun k => ?_
    rw [mem_keysOf_iff, mem_keysOf_iff]
    exact and_congr_left fun hk => h k hk

/-- **What a comparison sees.** Two ledgers give the same comparison exactly if they have the same
keys for the file and the same digests for the symbols that it has now. -/
theorem check_eq_iff :
    check l path current = check l' path current ↔
      keysOf l path = keysOf l' path ∧
        ∀ s ∈ current, l.digest? (ledgerKey path s.name) = l'.digest? (ledgerKey path s.name) := by
  constructor
  · intro h
    have hdigest : ∀ s ∈ current,
        l.digest? (ledgerKey path s.name) = l'.digest? (ledgerKey path s.name) := by
      intro s hs
      have hno : ∀ l : Ledger, ledgerKey path s.name ∉ gone l path current :=
        fun l hk => (mem_gone_iff.mp hk).2 s hs rfl
      -- the last signature of the name is the one whose status counts
      have hfilter : s ∈ current.filter (ledgerKey path ·.name == ledgerKey path s.name) := by
        simpa using hs
      obtain ⟨t, ht⟩ := Option.isSome_iff_exists.mp
        (List.getLast?_isSome.mpr (List.ne_nil_of_mem hfilter))
      have hname : ledgerKey path t.name = ledgerKey path s.name :=
        beq_iff_eq.mp (List.mem_filter.mp (List.mem_of_getLast? ht)).2
      have hstatus : (check l path current).statuses.find? (ledgerKey path s.name) =
          (check l' path current).statuses.find? (ledgerKey path s.name) := by rw [h]
      rw [find?_check, find?_check, if_neg (hno l), if_neg (hno l'), ht] at hstatus
      rw [← hname]
      exact (status_eq_iff t).mp (Option.some.inj hstatus)
    refine ⟨keysOf_eq_iff.mpr fun k hk => ?_, hdigest⟩
    by_cases hcur : ∃ s ∈ current, ledgerKey path s.name = k
    · obtain ⟨s, hs, rfl⟩ := hcur
      rw [Ledger.mem_keys_iff_digest?, Ledger.mem_keys_iff_digest?, hdigest s hs]
    · have hkeys : k ∈ (check l path current).statuses.keys ↔
          k ∈ (check l' path current).statuses.keys := by rw [h]
      simpa only [mem_keys_check_iff, hcur, false_or, hk, and_true] using hkeys
  · rintro ⟨hkeys, hdigest⟩
    have hpresent : present l path current = present l' path current := by
      refine List.foldl_ext _ _ _ fun d s hs => ?_
      rw [(status_eq_iff s).mpr (hdigest s hs)]
    rw [check_eq, check_eq, gone, gone, hpresent, hkeys]

/-- What is removed is a key of the ledger that begins like those of the file. -/
theorem mem_keys_of_removed {k : Bytes}
    (h : (check l path current).statuses.find? k = some .removed) :
    k ∈ l.keys ∧ ledgerKey path [] <+: k := by
  rw [find?_check] at h
  split at h
  · rename_i hk
    exact (mem_gone_iff.mp hk).1
  · -- no signature of the file has that status
    obtain ⟨s, -, hs⟩ := Option.map_eq_some_iff.mp h
    unfold status at hs
    split at hs
    · rw [DriftStatus.ofEntry] at hs
      split at hs <;> simp at hs
    · simp at hs

/-! ## The entries of one file -/

/-- Of two lists of entries the comparison sees the keys for the file and the last entry of each
symbol that the file has now. -/
theorem check_ofEntries_eq_iff :
    check (.ofEntries es) path current = check (.ofEntries es') path current ↔
      (∀ k, ledgerKey path [] <+: k → ((∃ e ∈ es, e.key = k) ↔ ∃ e ∈ es', e.key = k)) ∧
        ∀ s ∈ current,
          ((es.filter (·.key == ledgerKey path s.name)).getLast?).map (·.digest) =
            ((es'.filter (·.key == ledgerKey path s.name)).getLast?).map (·.digest) := by
  rw [check_eq_iff, keysOf_eq_iff]
  simp only [Ledger.digest?_ofEntries, Ledger.mem_keys_ofEntries_iff]

/-- If the keys of other files begin otherwise, the entries with the key of a symbol are entries of
the file. -/
theorem filter_key_of_own (hown : ∀ e ∈ es, ledgerKey path [] <+: e.key → e.file = path)
    (name : Bytes) :
    (es.filter (·.file == path)).filter (·.key == ledgerKey path name) =
      es.filter (·.key == ledgerKey path name) := by
  rw [List.filter_filter]
  refine List.filter_congr fun e he => ?_
  rw [Bool.and_eq_left_iff_imp]
  intro hkey
  have hprefix : ledgerKey path [] <+: e.key :=
    beq_iff_eq.mp hkey ▸ ledgerKey_nil_prefix path name
  exact beq_iff_eq.mpr (hown e he hprefix)

/-- The entries of the file have all keys with its prefix exactly if each of these keys is one of
the file's own. -/
theorem forall_key_own_iff :
    (∀ k, ledgerKey path [] <+: k →
      ((∃ e ∈ es, e.key = k) ↔ ∃ e ∈ es.filter (·.file == path), e.key = k)) ↔
      ∀ e ∈ es, ledgerKey path [] <+: e.key → ∃ e' ∈ es.filter (·.file == path), e'.key = e.key := by
  constructor
  · exact fun h e he hk => (h e.key hk).mp ⟨e, he, rfl⟩
  · intro h k hk
    constructor
    · rintro ⟨e, he, rfl⟩
      exact h e he hk
    · rintro ⟨e, he, rfl⟩
      exact ⟨e, (List.mem_filter.mp he).1, rfl⟩

/-- Nothing is seen of the entries of other files if their keys begin otherwise. -/
theorem check_ofEntries_of_own (hown : ∀ e ∈ es, ledgerKey path [] <+: e.key → e.file = path) :
    check (.ofEntries es) path current =
      check (.ofEntries (es.filter (·.file == path))) path current := by
  rw [check_ofEntries_eq_iff, forall_key_own_iff]
  refine ⟨fun e he hk => ⟨e, ?_, rfl⟩, fun s _ => by rw [filter_key_of_own hown]⟩
  exact List.mem_filter.mpr ⟨he, beq_iff_eq.mpr (hown e he hk)⟩

/-- **Other files.** A comparison sees nothing of the entries of other files exactly if every key
that begins like those of the file is the key of an entry of the file, and the last entry with the
key of a symbol that the file has now has the digest of the last such entry of the file. So it is if
all entries whose keys begin in this way are entries of the file, and then what is removed was
recorded for the file; and so it is if no path has a hash sign in it. -/
theorem check_ofEntries_own (es : List LedgerEntry) (path : Bytes) (current : List Signature) :
    let own := es.filter (·.file == path)
    (check (.ofEntries es) path current = check (.ofEntries own) path current ↔
      (∀ e ∈ es, ledgerKey path [] <+: e.key → ∃ e' ∈ own, e'.key = e.key) ∧
        ∀ s ∈ current,
          ((es.filter (·.key == ledgerKey path s.name)).getLast?).map (·.digest) =
            ((own.filter (·.key == ledgerKey path s.name)).getLast?).map (·.digest)) ∧
    ((∀ e ∈ es, ledgerKey path [] <+: e.key → e.file = path) →
      check (.ofEntries es) path current = check (.ofEntries own) path current ∧
        ∀ k, (check (.ofEntries es) path current).statuses.find? k = some .removed →
          ∃ e ∈ own, e.key = k) ∧
    (Byte.hash ∉ path → (∀ e ∈ es, Byte.hash ∉ e.file) →
      check (.ofEntries es) path current = check (.ofEntries own) path current) := by
  intro own
  refine ⟨?iff, fun hown => ⟨check_ofEntries_of_own hown, fun k hk => ?removed⟩, ?paths⟩
  case iff => rw [check_ofEntries_eq_iff, forall_key_own_iff]
  case removed =>
    rw [check_ofEntries_of_own hown] at hk
    exact Ledger.mem_keys_ofEntries_iff.mp (mem_keys_of_removed hk).1
  case paths =>
    intro hpath hes
    exact check_ofEntries_of_own fun e he hk => e.file_eq_of_prefix hpath (hes e he) hk

namespace IsolationSample

/-- The path of the sample file. -/
def file : Bytes := bytes "a"

/-- An entry of the samples. -/
def entry (file symbol : String) : LedgerEntry :=
  { file := bytes file, symbol := bytes symbol, digest := bytes "0" }

/-- The sample file's own entry. -/
def own : LedgerEntry := entry "a" "f"

/-- Its path begins with the same letter, but does not go on with a hash sign. -/
def beside : LedgerEntry := entry "ab" "f"

/-- Its path goes on with a hash sign. -/
def below : LedgerEntry := entry "a#b" "f"

/-- It has the key of `below`. -/
def above : LedgerEntry := entry "a" "b#f"

/-- The signature that is current in the sample file. -/
def function : Signature := { name := bytes "f", text := bytes "f()" }

end IsolationSample

open IsolationSample in
/-- The entry of `ab` is not seen when `a` is compared, and what is removed is the entry of `a`. -/
theorem check_ofEntries_own_sample :
    (∀ e ∈ [own, beside], ledgerKey file [] <+: e.key → e.file = file) ∧
      check (.ofEntries [own, beside]) file [] =
        check (.ofEntries ([own, beside].filter (·.file == file))) file [] ∧
      (check (.ofEntries [own, beside]) file []).statuses.find? own.key = some .removed ∧
      ∃ e ∈ [own, beside].filter (·.file == file), e.key = own.key := by
  have hown : ∀ e ∈ [own, beside], ledgerKey file [] <+: e.key → e.file = file := by
    decide +kernel
  have hremoved : (check (.ofEntries [own, beside]) file []).statuses.find? own.key =
      some .removed := by
    decide +kernel
  obtain ⟨heq, hkey⟩ := (check_ofEntries_own [own, beside] file []).2.1 hown
  exact ⟨hown, heq, hremoved, hkey own.key hremoved⟩

open IsolationSample in
/-- The entry of `a#b` is removed when `a` is compared, and the entry of `a` is the one that is
found for the symbol of `a#b`; neither is so without the other file's entry. -/
theorem check_ofEntries_below_above :
    (below.file ≠ file ∧
      (check (.ofEntries [below]) file []).statuses.find? below.key = some .removed ∧
      check (.ofEntries [below]) file [] ≠
        check (.ofEntries ([below].filter (·.file == file))) file []) ∧
    (above.file ≠ below.file ∧
      check (.ofEntries [above]) below.file [function] ≠
        check (.ofEntries ([above].filter (·.file == below.file))) below.file [function]) := by
  refine ⟨⟨by decide +kernel, by decide +kernel, fun heq => ?_⟩, by decide +kernel, fun heq => ?_⟩
  · have hkeys := (check_eq_iff.mp heq).1
    exact absurd hkeys (by decide +kernel)
  · have hdigest := (check_eq_iff.mp heq).2 function (by simp)
    exact absurd hdigest (by decide +kernel)

end Drift

end SignatureLedger
