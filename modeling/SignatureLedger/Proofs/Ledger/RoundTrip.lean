import SignatureLedger.Proofs.Ledger.Lines

/-!
# Ledgers that survive their text form

The text form has one place for each part of an entry, and a few spellings for a doc reference. An
entry whose parts keep out of each other's way (`Storable`) is read back as it was, and a ledger of
such entries is read back whole and without a remark (`parse_render_of_storable`).
-/

namespace SignatureLedger

/-! ## Maps with the same lookups -/

/-- A map is known by its lookups, since the order of its entries is the order of their keys. -/
theorem ByteMap.ext_find? {α : Type} {m n : ByteMap α} (h : ∀ k, m.find? k = n.find? k) :
    m = n := by
  have hmem : ∀ x, x ∈ m.entries ↔ x ∈ n.entries := by
    rintro ⟨k, v⟩
    rw [ByteMap.mem_entries_iff, ByteMap.mem_entries_iff, h k]
  have hperm : m.entries.Perm n.entries :=
    (List.perm_ext_iff_of_nodup (ByteMap.nodup_keys m).of_map (ByteMap.nodup_keys n).of_map).mpr
      hmem
  have hentries : m.entries = n.entries := by
    refine hperm.eq_of_pairwise ?_ m.rising n.rising
    intro a b _ _ hab hba
    exact absurd (List.lt_trans hab hba) (List.lt_irrefl _)
  obtain ⟨es, hes⟩ := m
  obtain ⟨fs, hfs⟩ := n
  obtain rfl : es = fs := hentries
  rfl

namespace Ledger

open Byte

/-! ## Doc references -/

/-- A decimal number: digits, and at least one. -/
def IsNumber (s : Bytes) : Prop := s ≠ [] ∧ ∀ b ∈ s, isDigit b = true

/-- A decimal number, or two with a dash between them. -/
def IsRange (s : Bytes) : Prop :=
  IsNumber s ∨ ∃ u v, s = u ++ minus :: v ∧ IsNumber u ∧ IsNumber v

/-- A doc reference that the text form can hold: none; a path with lines; or a path alone, which
must not look like one with lines. -/
inductive StorableDoc : DocRef → Prop
  | none : StorableDoc {}
  | lines {path : Bytes} {first last : Nat} (hne : path ≠ []) (hplain : ∀ b ∈ path, IsPlain b)
      (hfirst : 1 ≤ first) (hle : first ≤ last) (hlast : last < 2 ^ 32) :
      StorableDoc ⟨path, first, last⟩
  | whole {path : Bytes} (hne : path ≠ []) (hplain : ∀ b ∈ path, IsPlain b)
      (hrange : ∀ u r, path = u ++ colon :: r → ¬ IsRange r) : StorableDoc ⟨path, 0, 0⟩

/-- A range is digits and at most a dash. -/
theorem not_isRange_of_mem {b : UInt8} {s : Bytes} (hb : b ∈ s) (hdigit : isDigit b = false)
    (hminus : b ≠ minus) : ¬ IsRange s := by
  have hnumber : ∀ {t : Bytes}, IsNumber t → b ∉ t := by
    intro t ht hbt
    rw [ht.2 b hbt] at hdigit
    exact absurd hdigit (by decide)
  rintro (hs | ⟨u, v, rfl, hu, hv⟩)
  · exact hnumber hs hb
  · rcases List.mem_append.mp hb with hbu | hbv
    · exact hnumber hu hbu
    · rcases List.mem_cons.mp hbv with heq | hbv
      · exact hminus heq
      · exact hnumber hv hbv

/-- No other byte than a digit stands in a number. -/
theorem not_mem_decimal {b : UInt8} (hb : isDigit b = false) (n : Nat) : b ∉ decimal n := by
  intro hmem
  rw [isDigit_of_mem_decimal hmem] at hb
  exact absurd hb (by decide)

/-- Where a byte does not stand, the text is taken whole up to it. -/
theorem takeWhile_ne_of_not_mem {b : UInt8} {s : Bytes} (h : b ∉ s) :
    s.takeWhile (· != b) = s := by
  rw [List.takeWhile_eq_self_iff]
  intro c hc
  simpa using fun heq : c = b => h (heq ▸ hc)

/-- A text without the byte is taken up to the first one behind it. -/
theorem takeWhile_ne_append_cons {b : UInt8} {s : Bytes} (h : b ∉ s) (t : Bytes) :
    (s ++ b :: t).takeWhile (· != b) = s := by
  have hall : ∀ c ∈ s, (c != b) = true := by
    intro c hc
    simpa using fun heq : c = b => h (heq ▸ hc)
  rw [List.takeWhile_append_of_pos hall, List.takeWhile_cons_of_neg (by simp), List.append_nil]

/-- One number stands for both ends. -/
theorem lineRange?_decimal {n : Nat} (h : n < 10 ^ 19) :
    lineRange? (decimal n) = some (n, n) := by
  rw [lineRange?, takeWhile_ne_of_not_mem (not_mem_decimal (by decide) n), if_pos rfl,
    number?_decimal h, Option.map_some]

/-- Two numbers with a dash between them. -/
theorem lineRange?_dash {m n : Nat} (hm : m < 10 ^ 19) (hn : n < 10 ^ 19) :
    lineRange? (decimal m ++ minus :: decimal n) = some (m, n) := by
  have hlen : (decimal m).length ≠ (decimal m ++ minus :: decimal n).length := by
    rw [List.length_append, List.length_cons]
    omega
  have hdrop : (decimal m ++ minus :: decimal n).drop ((decimal m).length + 1) = decimal n := by
    rw [← List.drop_drop, List.drop_left, List.drop_one, List.tail_cons]
  rw [lineRange?, takeWhile_ne_append_cons (not_mem_decimal (by decide) m), if_neg hlen, hdrop,
    number?_decimal hm, number?_decimal hn]
  rfl

/-- What is read as a number is one. -/
theorem isNumber_of_number? {s : Bytes} {n : Nat} (h : number? s = some n) : IsNumber s := by
  unfold number? at h
  split at h
  · exact absurd h (by simp)
  · rename_i hs
    simp only [Bool.or_eq_true, not_or, Bool.not_eq_true, List.isEmpty_eq_false_iff,
      Bool.not_eq_eq_eq_not] at hs
    exact ⟨hs.1.1, List.all_eq_true.mp (by simpa using hs.2)⟩

/-- What is read as a range is one. -/
theorem isRange_of_lineRange? {s : Bytes} {r : Nat × Nat} (h : lineRange? s = some r) :
    IsRange s := by
  unfold lineRange? at h
  dsimp only at h
  split at h
  · obtain ⟨n, hn, -⟩ := Option.map_eq_some_iff.mp h
    exact .inl (isNumber_of_number? hn)
  · rename_i hlen
    obtain ⟨lo, hlo, h⟩ := Option.bind_eq_some_iff.mp h
    obtain ⟨hi, hhi, -⟩ := Option.bind_eq_some_iff.mp h
    have hdash : minus ∈ s := by
      by_contra hno
      exact hlen (by rw [takeWhile_ne_of_not_mem hno])
    -- the text is split at its first dash
    obtain ⟨u, v, rfl, hu⟩ := List.eq_append_cons_of_mem hdash
    rw [takeWhile_ne_append_cons hu] at hlo hhi
    rw [← List.drop_drop, List.drop_left, List.drop_one, List.tail_cons] at hhi
    exact .inr ⟨u, v, rfl, isNumber_of_number? hlo, isNumber_of_number? hhi⟩

/-- The lines as they are written behind the colon. -/
def renderLines (first last : Nat) : Bytes :=
  decimal first ++ (if last = first then [] else minus :: decimal last)

/-- No colon stands in a written range. -/
theorem colon_not_mem_renderLines (first last : Nat) : colon ∉ renderLines first last := by
  have hdigits := not_mem_decimal (b := colon) (by decide)
  have hne : colon ≠ minus := by decide
  unfold renderLines
  split
  · simp [hdigits]
  · simp [hdigits, hne]

/-- A written range is read as itself. -/
theorem lineRange?_renderLines {first last : Nat} (hfirst : first < 10 ^ 19)
    (hlast : last < 10 ^ 19) : lineRange? (renderLines first last) = some (first, last) := by
  unfold renderLines
  split
  · rename_i heq
    rw [List.append_nil, lineRange?_decimal hfirst, heq]
  · exact lineRange?_dash hfirst hlast

/-- A reference with lines is its path, a colon and the range. -/
theorem renderDocRef_of_lines {path : Bytes} {first : Nat} (hne : path ≠ []) (hfirst : 1 ≤ first)
    (last : Nat) :
    renderDocRef ⟨path, first, last⟩ = path ++ colon :: renderLines first last := by
  have hempty : path.isEmpty = false := List.isEmpty_eq_false_iff.mpr hne
  rw [renderDocRef, hempty, if_neg Bool.false_ne_true, if_neg (by dsimp only; omega), renderLines,
    List.append_assoc, List.cons_append]

/-- A reference without lines is its path. -/
theorem renderDocRef_of_whole {path : Bytes} (hne : path ≠ []) :
    renderDocRef ⟨path, 0, 0⟩ = path := by
  have hempty : path.isEmpty = false := List.isEmpty_eq_false_iff.mpr hne
  rw [renderDocRef, hempty, if_neg Bool.false_ne_true, if_pos rfl]

/-- Without a range behind its last colon a path is read as it stands. -/
theorem docRef?_of_whole {path : Bytes} (hrange : ∀ u r, path = u ++ colon :: r → ¬ IsRange r) :
    docRef? path = some { path } := by
  unfold docRef?
  cases hsplit : path.splitLast? colon with
  | none => rfl
  | some ur =>
    obtain ⟨u, r⟩ := ur
    dsimp only
    cases hlines : lineRange? r with
    | none => rfl
    | some lines =>
      exact absurd (isRange_of_lineRange? hlines) (hrange u r (Bytes.eq_of_splitLast? hsplit))

/-- The text of a reference with lines is read as that reference. -/
theorem docRef?_of_lines {first last : Nat} (path : Bytes) (hfirst : 1 ≤ first)
    (hle : first ≤ last) (hlast : last < 2 ^ 32) :
    docRef? (path ++ colon :: renderLines first last) = some ⟨path, first, last⟩ := by
  have hword : ¬ (first = 0 ∨ last < first ∨ UInt32.size ≤ last) := by
    have : UInt32.size = 2 ^ 32 := rfl
    omega
  rw [docRef?, Bytes.splitLast?_append_cons (colon_not_mem_renderLines first last)]
  dsimp only
  rw [lineRange?_renderLines (by omega) (by omega)]
  dsimp only
  rw [if_neg hword]

/-- **A doc reference reads back.** -/
theorem docColumn_renderDocRef {d : DocRef} (h : StorableDoc d) :
    docColumn (renderDocRef d) = .ok d := by
  cases h with
  | none => rfl
  | lines hne hplain hfirst hle hlast =>
    rw [renderDocRef_of_lines hne hfirst, docColumn, docRef?_of_lines _ hfirst hle hlast]
    simp
  | whole hne hplain hrange =>
    rw [renderDocRef_of_whole hne, docColumn, docRef?_of_whole hrange, if_neg (by simpa using hne)]

/-- A reference that can be stored is written in plain bytes. Behind the path there are only digits,
a colon and a dash. -/
theorem plain_renderDocRef {d : DocRef} (h : StorableDoc d) :
    ∀ b ∈ renderDocRef d, IsPlain b := by
  cases h with
  | none => exact fun b hb => absurd hb List.not_mem_nil
  | @lines path first last hne hplain hfirst hle hlast =>
    intro b hb
    have hdigit : ∀ n, b ∈ decimal n → IsPlain b := fun n hn =>
      isPlain_of_isDigit (isDigit_of_mem_decimal hn)
    have hsign : IsPlain colon ∧ IsPlain minus := by
      simp only [IsPlain]
      decide
    rw [renderDocRef_of_lines hne hfirst, List.mem_append, List.mem_cons, renderLines] at hb
    rcases hb with hb | rfl | hb
    · exact hplain b hb
    · exact hsign.1
    · split at hb
      · rw [List.append_nil] at hb
        exact hdigit first hb
      · rw [List.mem_append, List.mem_cons] at hb
        rcases hb with hb | rfl | hb
        · exact hdigit first hb
        · exact hsign.2
        · exact hdigit last hb
  | whole hne hplain hrange => rwa [renderDocRef_of_whole hne]

/-! ## Entries -/

/-- The digits of a digest. -/
def digestDigits : Bytes := bytes "0123456789abcdef"

/-- An entry that the text form can hold, under its own key. Its columns have no tabs and no line
feeds in them, and the digest has 64 digits. -/
structure Storable (key : Bytes) (e : LedgerEntry) : Prop where
  key_eq : key = e.file ++ hash :: e.symbol
  id : e.id = key
  plain_key : ∀ b ∈ key, IsPlain b
  file_ne : e.file ≠ []
  head_file : e.file.head? ≠ some hash
  symbol_ne : e.symbol ≠ []
  symbol_hash : hash ∉ e.symbol
  digest_length : e.digest.length = 64
  digest_digits : ∀ b ∈ e.digest, b ∈ digestDigits
  updated : 0 ≤ e.updated
  doc : StorableDoc e.doc
  plain_text : ∀ t ∈ e.text?, ∀ b ∈ t, IsPlain b
  last_text : ∀ t ∈ e.text?, t.getLast? ≠ some carriageReturn

/-- Sixty-four hexadecimal digits are a digest. -/
theorem isDigest_of_digits {d : Bytes} (hlen : d.length = 64) (h : ∀ b ∈ d, b ∈ digestDigits) :
    isDigest d = true := by
  have hdigit : ∀ b ∈ digestDigits, (isDigit b || (0x61 ≤ b && b ≤ 0x66)) = true := by
    decide +kernel
  rw [isDigest, hlen, beq_self_eq_true, Bool.true_and, List.all_eq_true]
  exact fun b hb => hdigit b (h b hb)

namespace Storable

variable {key : Bytes} {e : LedgerEntry}

/-- What can be stored can be written. -/
theorem writable (h : Storable key e) : Writable key e where
  mem_key := by
    rw [h.key_eq]
    exact List.mem_append_right _ List.mem_cons_self
  head_key := by
    rw [h.key_eq, List.head?_append_of_ne_nil _ h.file_ne]
    exact h.head_file
  last_key := by
    rw [h.key_eq, List.getLast?_append_of_ne_nil _ (by simp),
      List.getLast?_cons_of_ne_nil h.symbol_ne]
    exact fun hlast => h.symbol_hash (List.mem_of_getLast? hlast)
  plain_key := h.plain_key
  digest := isDigest_of_digits h.digest_length h.digest_digits
  doc := docColumn_renderDocRef h.doc
  plain_doc := plain_renderDocRef h.doc
  updated := Int64.le_iff_toInt_le.mp h.updated
  plain_text := h.plain_text
  last_text := h.last_text

/-- The key is split where it was joined: the symbol has no hash mark. -/
theorem resplit_eq (h : Storable key e) : resplit key e = e := by
  have hfile : e.file.isEmpty = false := List.isEmpty_eq_false_iff.mpr h.file_ne
  have hsymbol : e.symbol.isEmpty = false := List.isEmpty_eq_false_iff.mpr h.symbol_ne
  have hid : e.id = e.file ++ hash :: e.symbol := h.id.trans h.key_eq
  rw [h.key_eq, resplit, splitKey?, Bytes.splitLast?_append_cons h.symbol_hash]
  simp only [hfile, hsymbol, Bool.or_self, Bool.false_eq_true, if_false, ← hid]

/-- The line of an entry is read as the entry. -/
theorem readsAs (h : Storable key e) : ReadsAs (entryLine key e) e ∧ e.key = key := by
  have hread := h.writable.readsAs
  rwa [h.resplit_eq] at hread

end Storable

/-! ## Ledgers -/

/-- **A ledger survives its text form.** If every entry can be stored, the text is read without an
error or a warning, and gives the same ledger. -/
theorem parse_render_of_storable (l : Ledger) (h : ∀ x ∈ l.toList, Storable x.1 x.2) :
    parse l.render = { ledger := l, warnings := [], error? := none } := by
  have hread : ∀ x ∈ l.toList, ReadsAs (entryLine x.1 x.2) x.2 ∧ x.2.key = x.1 :=
    fun x hx => (h x hx).readsAs
  have hledger : (parse l.render).ledger = l := by
    apply ByteMap.ext_find?
    intro k
    rw [find?_parse_render hread]
    exact Option.map_id'
  rw [parse_render hread] at hledger ⊢
  exact congrArg (fun l : Ledger => ({ ledger := l } : Reading)) hledger

namespace RoundTripSample

/-- An entry with all there is. -/
def full : LedgerEntry :=
  { file := bytes "src/#a.ts", symbol := bytes "A.f", digest := List.replicate 64 0x61
    text? := some (bytes "f(): void"), doc := ⟨bytes "doc/a.md", 3, 12⟩, updated := 17 }

/-- An entry with an empty text and a document that is read with its colon. -/
def marked : LedgerEntry :=
  { file := bytes "b", symbol := bytes "g", digest := List.replicate 64 0x30
    text? := some [], doc := ⟨bytes "C:x-1", 0, 0⟩ }

/-- An entry without a text and without a document. -/
def bare : LedgerEntry :=
  { file := bytes "c", symbol := bytes "h", digest := List.replicate 64 0x39 }

/-- The sample ledger: one entry with all texts, one marked, one bare. -/
def ledger : Ledger := ofEntries [full, marked, bare]

/-- The only colon is the one behind the drive letter, and no number follows it. -/
theorem storableDoc_marked : StorableDoc marked.doc := by
  refine .whole (by decide +kernel) (by decide +kernel) ?_
  intro u r heq
  have hcolon : colon ∉ u := by
    have hcount : (bytes "C:x-1").count colon = 1 := by decide +kernel
    rw [heq, List.count_append, List.count_cons_self] at hcount
    exact List.count_eq_zero.mp (by omega)
  have hu : u = bytes "C" := by
    rw [← takeWhile_ne_append_cons hcolon r, ← heq]
    decide +kernel
  have hr : bytes "C" ++ colon :: bytes "x-1" = bytes "C" ++ colon :: r := by
    rw [← hu, ← heq, hu]
    decide +kernel
  rw [List.append_cancel_left_eq, List.cons_inj_right] at hr
  exact not_isRange_of_mem (b := 0x78) (hr ▸ by decide +kernel) (by decide) (by decide)

theorem storable_full : Storable full.key full where
  key_eq := rfl
  id := rfl
  plain_key := by decide +kernel
  file_ne := by decide +kernel
  head_file := by decide +kernel
  symbol_ne := by decide +kernel
  symbol_hash := by decide +kernel
  digest_length := by decide +kernel
  digest_digits := by decide +kernel
  updated := by decide +kernel
  doc := .lines (by decide +kernel) (by decide +kernel) (by decide) (by decide) (by decide)
  plain_text := by decide +kernel
  last_text := by decide +kernel

theorem storable_marked : Storable marked.key marked where
  key_eq := rfl
  id := rfl
  plain_key := by decide +kernel
  file_ne := by decide +kernel
  head_file := by decide +kernel
  symbol_ne := by decide +kernel
  symbol_hash := by decide +kernel
  digest_length := by decide +kernel
  digest_digits := by decide +kernel
  updated := by decide +kernel
  doc := storableDoc_marked
  plain_text := by decide +kernel
  last_text := by decide +kernel

theorem storable_bare : Storable bare.key bare where
  key_eq := rfl
  id := rfl
  plain_key := by decide +kernel
  file_ne := by decide +kernel
  head_file := by decide +kernel
  symbol_ne := by decide +kernel
  symbol_hash := by decide +kernel
  digest_length := by decide +kernel
  digest_digits := by decide +kernel
  updated := by decide +kernel
  doc := .none
  plain_text := fun _ h => nomatch h
  last_text := fun _ h => nomatch h

end RoundTripSample

open RoundTripSample in
/-- Lines, a colon in a path, a hash mark in a file name, an empty text and none. -/
theorem parse_render_ledger :
    (∀ x ∈ RoundTripSample.ledger.toList, Storable x.1 x.2) ∧
      parse RoundTripSample.ledger.render = { ledger := RoundTripSample.ledger } := by
  have hlist : ledger.toList = [(marked.key, marked), (bare.key, bare), (full.key, full)] := by
    decide +kernel
  have hstore : ∀ x ∈ ledger.toList, Storable x.1 x.2 := by
    rw [hlist]
    simp [storable_full, storable_marked, storable_bare]
  exact ⟨hstore, parse_render_of_storable ledger hstore⟩

end Ledger

end SignatureLedger
