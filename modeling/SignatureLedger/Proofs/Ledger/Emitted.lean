import SignatureLedger.Command.Report
import SignatureLedger.Proofs.Ledger.Lines
import SignatureLedger.Proofs.Signature.Layout
import SignatureLedger.Proofs.Signature.Naming

/-!
# Emitting a ledger and checking against it

The ledger of several files is written, read back, and compared with the same files. The file
format holds all that the comparison needs, except that a key must stand in one column of one line:
names of namespaces reach it as they stand in the source, and can have tabs and line feeds in them.
Without those everything is in sync, and with one of them it is not (`roundTrips_iff`).
-/

namespace SignatureLedger

/-! ## Keys of several files -/

/-- A path that can stand before the hash mark of a key. -/
structure IsKeyPath (path : Bytes) : Prop where
  ne_nil : path ≠ []
  no_hash : Byte.hash ∉ path
  no_tab : Byte.tab ∉ path
  no_lineFeed : Byte.lineFeed ∉ path

instance (path : Bytes) : Decidable (IsKeyPath path) :=
  decidable_of_iff
    (path ≠ [] ∧ Byte.hash ∉ path ∧ Byte.tab ∉ path ∧ Byte.lineFeed ∉ path)
    ⟨fun ⟨h₁, h₂, h₃, h₄⟩ => ⟨h₁, h₂, h₃, h₄⟩, fun ⟨h₁, h₂, h₃, h₄⟩ => ⟨h₁, h₂, h₃, h₄⟩⟩

/-- Without hash marks in the paths a key says where it belongs. -/
theorem IsKeyPath.ledgerKey_inj {p q m n : Bytes} (hp : IsKeyPath p) (hq : IsKeyPath q)
    (h : ledgerKey p m = ledgerKey q n) : p = q ∧ m = n := by
  have hsplit := congrArg (Bytes.splitOn Byte.hash) h
  rw [ledgerKey, ledgerKey, Bytes.splitOn_append_cons hp.no_hash,
    Bytes.splitOn_append_cons hq.no_hash] at hsplit
  obtain rfl := (List.cons.inj hsplit).1
  exact ⟨rfl, SignatureLedger.ledgerKey_inj.mp h⟩

section Emitted

variable {as : List Analysis} {now : Int64}

/-- Analyses whose keys are all different: of different files, and each with different names. -/
structure Separate (as : List Analysis) : Prop where
  paths : (as.map (·.path)).Nodup
  keyPath : ∀ a ∈ as, IsKeyPath a.path
  names : ∀ a ∈ as, a.names.Nodup

/-- The ledger of several analyses. -/
def emitted (now : Int64) (as : List Analysis) : Ledger :=
  .ofEntries (as.flatMap (·.entries now))

/-- Analyses of different files give entries with different keys. -/
theorem Separate.nodup_keys (h : Separate as) :
    ((as.flatMap (·.entries now)).map (·.key)).Nodup := by
  rw [List.map_flatMap, List.nodup_flatMap]
  constructor
  · intro a ha
    rw [Analysis.keys_entries]
    exact (h.names a ha).map fun _ _ => ledgerKey_inj.mp
  · have hpaths := List.pairwise_map.mp h.paths
    refine hpaths.imp_of_mem fun {a b} ha hb hne => ?_
    intro k hka hkb
    obtain ⟨s, -, hs⟩ := Analysis.mem_keys_entries_iff.mp (List.mem_map.mp hka)
    obtain ⟨t, -, ht⟩ := Analysis.mem_keys_entries_iff.mp (List.mem_map.mp hkb)
    exact hne ((h.keyPath a ha).ledgerKey_inj (h.keyPath b hb) (hs.trans ht.symm)).1

/-- Every symbol is found. -/
theorem Separate.find?_emitted (h : Separate as) {a : Analysis} (ha : a ∈ as) {s : Signature}
    (hs : s ∈ a.signatures) :
    (emitted now as).find? (ledgerKey a.path s.name) = some (.ofSignature a.path now s) := by
  have hmem : LedgerEntry.ofSignature a.path now s ∈ as.flatMap (·.entries now) :=
    List.mem_flatMap.mpr ⟨a, ha, List.mem_map_of_mem hs⟩
  rw [emitted, Ledger.ofEntries, Ledger.find?_recordAll]
  exact congrArg (Option.or · _) (ByteMap.getLast?_filter_of_nodup h.nodup_keys hmem)

/-- Nothing but symbols is found. -/
theorem exists_of_find?_emitted {k : Bytes} {e : LedgerEntry}
    (h : (emitted now as).find? k = some e) :
    ∃ a ∈ as, ∃ s ∈ a.signatures, k = ledgerKey a.path s.name ∧ e = .ofSignature a.path now s := by
  rw [emitted, Ledger.ofEntries, Ledger.find?_recordAll, ByteMap.find?_empty, Option.or_none] at h
  obtain ⟨hmem, hkey⟩ := List.mem_filter.mp (List.mem_of_getLast? h)
  obtain ⟨a, ha, he⟩ := List.mem_flatMap.mp hmem
  obtain ⟨s, hs, rfl⟩ := List.mem_map.mp he
  exact ⟨a, ha, s, hs, (beq_iff_eq.mp hkey).symm, rfl⟩

/-! ## Symbols that can be written -/

/-- A symbol can be written unless its name has a tab or a line feed in it. Its key ends in a byte
of a word, and its text is in normal form, which has no line feeds and ends in no blank. -/
theorem writable_ofSignature {options : AnalysisOptions} {path source : Bytes} {s : Signature}
    (hpath : IsKeyPath path) (hnow : 0 ≤ now)
    (hs : s ∈ (analyze options path source).signatures) (hname : ∀ b ∈ s.name, Ledger.IsPlain b) :
    Ledger.Writable (ledgerKey path s.name) (.ofSignature path now s) := by
  have hword : EndsInWord s.name := endsInWord_of_mem_signatures hs
  obtain ⟨o, -, hoffer⟩ := exists_offer_of_mem_signatures hs
  have htext : s.text = Normal.layout (Normal.strip o.symbol.signature.text) := by
    rw [hoffer]
    rfl
  exact {
    mem_key := List.mem_append_right _ List.mem_cons_self
    head_key := by
      rw [ledgerKey, List.head?_append_of_ne_nil _ hpath.ne_nil]
      exact fun hhead => hpath.no_hash (List.mem_of_mem_head? hhead)
    last_key := by
      rw [ledgerKey, List.getLast?_append_of_ne_nil _ (by simp),
        List.getLast?_cons_of_ne_nil hword.ne_nil]
      exact hword.getLast?_ne (by decide)
    plain_key := by
      intro b hb
      rcases List.mem_append.mp hb with hb | hb
      · exact ⟨fun heq => hpath.no_tab (heq ▸ hb), fun heq => hpath.no_lineFeed (heq ▸ hb)⟩
      · rcases List.mem_cons.mp hb with rfl | hb
        · exact ⟨by decide, by decide⟩
        · exact hname b hb
    digest := Ledger.isDigest_hex _
    doc := rfl
    plain_doc := fun b hb => absurd hb List.not_mem_nil
    updated := Int64.le_iff_toInt_le.mp hnow
    plain_text := by
      intro t ht b hb
      obtain rfl : s.text = t := Option.some.inj ht
      rw [htext] at hb
      rcases Normal.mem_layout hb with rfl | hb
      · exact ⟨by decide, by decide⟩
      · refine ⟨?_, ?_⟩ <;> rintro rfl <;> exact absurd hb (by decide)
    last_text := by
      intro t ht hlast
      obtain rfl : s.text = t := Option.some.inj ht
      rw [htext] at hlast
      exact absurd (Normal.isSpace_of_getLast?_layout hlast) (by decide) }

end Emitted

namespace Command

/-! ## The round trip -/

/-- The outcomes for files that can be read, given by their paths and contents. -/
def readable (plan : Plan) (files : List (Bytes × Bytes)) : List Outcome :=
  files.map fun f => Outcome.of plan f.1 (.file f.2)

/-- The ledger that is emitted for the files reads back without a remark, and compared with it the
same files have every symbol in sync, and nothing drifted, not tracked or removed. -/
def RoundTrips (plan : Plan) (now : Int64) (files : List (Bytes × Bytes)) : Prop :=
  let outcomes := readable plan files
  let reading := Ledger.parse (extractLedger now outcomes).render
  reading.error? = none ∧ reading.warnings = [] ∧
    ∀ a d, (a, d) ∈ drifts reading.ledger outcomes →
      (∀ s ∈ a.signatures, d.statuses.find? (ledgerKey a.path s.name) = some .inSync) ∧
      d.inSync = a.signatures.length ∧ d.drifted = 0 ∧ d.notTracked = 0 ∧ d.removed = 0

section

variable {plan : Plan} {now : Int64} {files : List (Bytes × Bytes)} {a : Analysis}

/-- Files that can be read are analysed one by one, each under its shown path. -/
theorem analyses_readable (plan : Plan) (files : List (Bytes × Bytes)) :
    analyses (readable plan files) = files.map fun f =>
      analyze plan.options (SourceFile.displayPath f.1) (SourceFile.decode f.2) := by
  rw [analyses, readable, List.filterMap_map]
  exact congrFun List.filterMap_eq_map files

/-- Each of the analyses is that of one of the files. -/
theorem exists_of_mem_analyses (ha : a ∈ analyses (readable plan files)) :
    ∃ f ∈ files,
      a = analyze plan.options (SourceFile.displayPath f.1) (SourceFile.decode f.2) := by
  rw [analyses_readable] at ha
  obtain ⟨f, hf, rfl⟩ := List.mem_map.mp ha
  exact ⟨f, hf, rfl⟩

/-- The ledger that is written holds the entries of all the analyses. -/
theorem extractLedger_eq (now : Int64) (outcomes : List Outcome) :
    extractLedger now outcomes = emitted now (analyses outcomes) := by
  have hids : ∀ e ∈ (analyses outcomes).flatMap (·.entries now), e.id = e.key := by
    intro e he
    obtain ⟨a, -, he⟩ := List.mem_flatMap.mp he
    exact Analysis.id_of_mem_entries he
  rw [emitted, Ledger.ofEntries, ← Ledger.foldl_store_eq _ hids, List.foldl_flatMap]
  rfl

/-- Files that are shown under different paths have separate analyses. -/
theorem separate_readable
    (hdistinct : (files.map fun f => SourceFile.displayPath f.1).Nodup)
    (hpaths : ∀ f ∈ files, IsKeyPath (SourceFile.displayPath f.1)) :
    Separate (analyses (readable plan files)) where
  paths := by
    rw [analyses_readable, List.map_map]
    exact hdistinct
  keyPath := by
    intro a ha
    obtain ⟨f, hf, rfl⟩ := exists_of_mem_analyses ha
    exact hpaths f hf
  names := by
    intro a ha
    obtain ⟨f, hf, rfl⟩ := exists_of_mem_analyses ha
    exact Analysis.nodup_names _ _ _

/-- No analysis records a name twice. -/
theorem nodup_names_of_mem (ha : a ∈ analyses (readable plan files)) : a.names.Nodup := by
  obtain ⟨f, -, rfl⟩ := exists_of_mem_analyses ha
  exact Analysis.nodup_names _ _ _

/-- Each analysis is compared with the ledger, under its own path. -/
theorem mem_drifts_iff {ledger : Ledger} {outcomes : List Outcome} {d : Drift} :
    (a, d) ∈ drifts ledger outcomes ↔
      a ∈ analyses outcomes ∧ d = Drift.check ledger a.path a.signatures := by
  rw [drifts, List.mem_map]
  constructor
  · rintro ⟨a', ha, heq⟩
    obtain ⟨rfl, rfl⟩ := Prod.mk.inj heq
    exact ⟨ha, rfl⟩
  · rintro ⟨ha, rfl⟩
    exact ⟨a, ha, rfl⟩

/-- A name with a tab or a line feed in it is not found again. -/
theorem plain_of_roundTrips (h : RoundTrips plan now files)
    (ha : a ∈ analyses (readable plan files)) {s : Signature} (hs : s ∈ a.signatures) :
    ∀ b ∈ s.name, Ledger.IsPlain b := by
  have hfound := (h.2.2 a _ (mem_drifts_iff.mpr ⟨ha, rfl⟩)).1 s hs
  rw [Drift.find?_check_of_mem (nodup_names_of_mem ha) hs, Option.some_inj] at hfound
  -- what is in sync is in the ledger, where no key has such a byte
  have hkey : ledgerKey a.path s.name ∈
      (Ledger.parse (extractLedger now (readable plan files)).render).ledger.keys := by
    rw [ByteMap.mem_keys_iff, ByteMap.contains, ← Option.ne_none_iff_isSome]
    intro hnone
    rw [Drift.status, hnone] at hfound
    exact absurd hfound (by simp)
  intro b hb
  exact Ledger.plainKeys_parse _ _ hkey b (List.mem_append_right _ (List.mem_cons_of_mem _ hb))

/-- Names without tabs and line feeds are found again. Every line is read as an entry with the key
it was written for, and no other file has that key. -/
theorem roundTrips_of_plain (hnow : 0 ≤ now) (hseparate : Separate (analyses (readable plan files)))
    (hplain : ∀ a ∈ analyses (readable plan files), ∀ s ∈ a.signatures,
      ∀ b ∈ s.name, Ledger.IsPlain b) : RoundTrips plan now files := by
  have hwritable : ∀ x ∈ (extractLedger now (readable plan files)).toList,
      Ledger.Writable x.1 x.2 := by
    intro x hx
    have hfind : (emitted now (analyses (readable plan files))).find? x.1 = some x.2 :=
      ByteMap.mem_entries_iff.mp (extractLedger_eq now _ ▸ hx)
    obtain ⟨a, ha, s, hs, hkey, hentry⟩ := exists_of_find?_emitted hfind
    obtain ⟨f, hf, rfl⟩ := exists_of_mem_analyses ha
    rw [hkey, hentry]
    exact writable_ofSignature (hseparate.keyPath _ ha) hnow hs (hplain _ ha s hs)
  have hread : ∀ x ∈ (extractLedger now (readable plan files)).toList,
      Ledger.ReadsAs (Ledger.entryLine x.1 x.2) (Ledger.resplit x.1 x.2) ∧
        (Ledger.resplit x.1 x.2).key = x.1 := fun x hx => (hwritable x hx).readsAs
  have hfind := Ledger.find?_parse_render hread
  have hparse := Ledger.parse_render hread
  refine ⟨by rw [hparse], by rw [hparse], fun a d hd => ?_⟩
  obtain ⟨ha, rfl⟩ := mem_drifts_iff.mp hd
  have hnames := hseparate.names a ha
  have hstatus : ∀ s ∈ a.signatures, Drift.status
      (Ledger.parse (extractLedger now (readable plan files)).render).ledger a.path s =
        .inSync := by
    intro s hs
    rw [Drift.status, hfind, extractLedger_eq, hseparate.find?_emitted ha hs]
    show DriftStatus.ofEntry (Ledger.resplit _ _) s = .inSync
    rw [DriftStatus.ofEntry, Ledger.digest_resplit]
    exact if_pos rfl
  have hkeys : ∀ k ∈ (Ledger.parse (extractLedger now (readable plan files)).render).ledger.keys,
      ledgerKey a.path [] <+: k → ∃ s ∈ a.signatures, ledgerKey a.path s.name = k := by
    rintro k hk ⟨n, rfl⟩
    rw [ByteMap.mem_keys_iff, ByteMap.contains, hfind, Option.isSome_map] at hk
    obtain ⟨e, he⟩ := Option.isSome_iff_exists.mp hk
    rw [extractLedger_eq] at he
    obtain ⟨b, hb, s, hs, hkey, -⟩ := exists_of_find?_emitted he
    have hkey' : ledgerKey a.path n = ledgerKey b.path s.name := by rw [← hkey]; simp [ledgerKey]
    have hpath := ((hseparate.keyPath a ha).ledgerKey_inj (hseparate.keyPath b hb) hkey').1
    obtain rfl := List.inj_on_of_nodup_map hseparate.paths ha hb hpath
    exact ⟨s, hs, hkey.symm⟩
  obtain ⟨-, hcounts⟩ := Drift.check_of_inSync hnames hstatus hkeys
  exact ⟨fun s hs => by rw [Drift.find?_check_of_mem hnames hs, hstatus s hs], hcounts⟩

/-- **A ledger survives its file, up to names that it can not hold.** For files with distinct paths
that can stand in a key, the emitted ledger reads back without a remark and has everything in sync
exactly if no symbol has a tab or a line feed in its name. -/
theorem roundTrips_iff (plan : Plan) (now : Int64) (files : List (Bytes × Bytes)) (hnow : 0 ≤ now)
    (hdistinct : (files.map fun f => SourceFile.displayPath f.1).Nodup)
    (hpaths : ∀ f ∈ files, IsKeyPath (SourceFile.displayPath f.1)) :
    RoundTrips plan now files ↔
      ∀ a ∈ analyses (readable plan files), ∀ s ∈ a.signatures,
        Byte.tab ∉ s.name ∧ Byte.lineFeed ∉ s.name := by
  constructor
  · intro h a ha s hs
    have hplain := plain_of_roundTrips h ha hs
    exact ⟨fun hb => (hplain _ hb).1 rfl, fun hb => (hplain _ hb).2 rfl⟩
  · intro h
    refine roundTrips_of_plain hnow (separate_readable hdistinct hpaths) fun a ha s hs b hb => ?_
    obtain ⟨htab, hline⟩ := h a ha s hs
    exact ⟨fun heq => htab (heq ▸ hb), fun heq => hline (heq ▸ hb)⟩

end

namespace EmittedSample

/-- The plan of the samples, all options as by default. -/
def plan : Plan := { options := {}, language := .english, context := 2 }

/-- Two files, one of them with a namespace of two names. -/
def files : List (Bytes × Bytes) :=
  [(bytes "./src/a.ts", bytes "export namespace A.B \x7b export const c = 1 \x7d"),
    (bytes "src/b.ts", bytes "export function f(): void \x7b\x7d\nexport type T = string;\n")]

/-- A file where a line ends between the two names of a namespace. -/
def brokenName : List (Bytes × Bytes) :=
  [(bytes "a.ts", bytes "export namespace A.\nB \x7b export const c = 1 \x7d")]

end EmittedSample

/-- Names on one line survive. -/
theorem roundTrips_files :
    (0 : Int64) ≤ 1700000000000
      ∧ (EmittedSample.files.map fun f => SourceFile.displayPath f.1).Nodup
      ∧ (∀ f ∈ EmittedSample.files, IsKeyPath (SourceFile.displayPath f.1))
      ∧ RoundTrips EmittedSample.plan 1700000000000 EmittedSample.files := by
  have hnow : (0 : Int64) ≤ 1700000000000 := by decide
  have hdistinct : (EmittedSample.files.map fun f => SourceFile.displayPath f.1).Nodup := by
    decide +kernel
  have hpaths : ∀ f ∈ EmittedSample.files, IsKeyPath (SourceFile.displayPath f.1) := by
    decide +kernel
  exact ⟨hnow, hdistinct, hpaths,
    (roundTrips_iff EmittedSample.plan _ _ hnow hdistinct hpaths).mpr (by decide +kernel)⟩

/-- A line that ends between the names of a namespace breaks the line of the ledger. -/
theorem not_roundTrips_brokenName :
    (EmittedSample.brokenName.map fun f => SourceFile.displayPath f.1).Nodup
      ∧ (∀ f ∈ EmittedSample.brokenName, IsKeyPath (SourceFile.displayPath f.1))
      ∧ ¬ RoundTrips EmittedSample.plan 1700000000000 EmittedSample.brokenName := by
  refine ⟨by decide +kernel, by decide +kernel, fun h => ?_⟩
  have hbroken : ∃ a ∈ analyses (readable EmittedSample.plan EmittedSample.brokenName),
      ∃ s ∈ a.signatures, Byte.lineFeed ∈ s.name := by decide +kernel
  obtain ⟨a, ha, s, hs, hline⟩ := hbroken
  exact (plain_of_roundTrips h ha hs _ hline).2 rfl

end Command

end SignatureLedger
