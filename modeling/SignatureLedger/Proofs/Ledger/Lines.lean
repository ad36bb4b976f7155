import SignatureLedger.Ledger.Format
import SignatureLedger.Proofs.Ledger.Recording
import SignatureLedger.Proofs.Text.Bytes

/-!
# Ledgers as lines

A rendered ledger is read line by line. If each line reads as an entry with its old key (`ReadsAs`),
the whole text reads without a remark, and every key finds the entry of its line (`parse_render`,
`find?_parse_render`). What the columns of an entry need for this is said by `Writable`. Keys that
are read have neither a tab nor a line feed in them (`plainKeys_parse`), so no other key survives:
every entry that is read comes from a line of the text (`fromLines_parse`).
-/

namespace SignatureLedger.Ledger

open Byte

/-- The line of an entry, without the line feed. -/
def entryLine (key : Bytes) (e : LedgerEntry) : Bytes :=
  key ++ tab :: (e.digest ++ tab :: (renderDocRef e.doc ++ tab :: (signedDecimal e.updated.toInt
    ++ (match e.text? with
      | some t => tab :: t
      | none => []))))

/-- A rendered entry is its line with a line feed. -/
theorem renderEntry_eq (key : Bytes) (e : LedgerEntry) :
    renderEntry key e = entryLine key e ++ [lineFeed] := by
  rw [renderEntry, entryLine]
  cases e.text? <;> simp

/-! ## Columns of a line -/

/-- A key that splits is put together from its parts. -/
theorem ledgerKey_of_splitKey? {key file symbol : Bytes} (h : splitKey? key = some (file, symbol)) :
    ledgerKey file symbol = key := by
  unfold splitKey? at h
  split at h
  · rename_i u v hsplit
    split at h
    · exact absurd h (by simp)
    · obtain ⟨rfl, rfl⟩ := Prod.mk.inj (Option.some.inj h)
      exact (Bytes.eq_of_splitLast? hsplit).symm
  · exact absurd h (by simp)

/-- The columns of a line, and what the entry has from them. -/
structure Columns (line : Bytes) (e : LedgerEntry) (more : List Bytes) : Prop where
  split : Bytes.splitOn tab line = e.key :: e.digest :: more
  key : splitKey? e.key = some (e.file, e.symbol)
  id : e.id = e.key
  digest : isDigest e.digest = true
  doc : docColumn (more.getD 0 []) = .ok e.doc
  updated : updatedColumn (more.getD 1 []) = .ok e.updated
  text : e.text? = more[2]?

/-- An entry is made of the columns of its line. There is one case for each fault that a line can
have, and in none of them an entry comes out. -/
theorem exists_columns {line : Bytes} {e : LedgerEntry} (h : entryOfLine line = .ok e) :
    ∃ more, Columns line e more := by
  unfold entryOfLine at h
  split at h
  · rename_i key digest more hline
    split at h
    · exact absurd h (by simp)
    · split at h
      · exact absurd h (by simp)
      · rename_i file symbol hsplit
        split at h
        · exact absurd h (by simp)
        · rename_i hdigest
          cases hdoc : docColumn (more.getD 0 []) with
          | error fault => rw [hdoc] at h; exact absurd h (by simp [bind, Except.bind])
          | ok doc =>
            cases hupdated : updatedColumn (more.getD 1 []) with
            | error fault =>
              rw [hdoc, hupdated] at h
              exact absurd h (by simp [bind, Except.bind])
            | ok updated =>
              rw [hdoc, hupdated] at h
              obtain rfl := Except.ok.inj h
              have hkey : ledgerKey file symbol = key := ledgerKey_of_splitKey? hsplit
              exact ⟨more, by rw [hline, LedgerEntry.key, hkey],
                by rw [LedgerEntry.key, hkey, hsplit],
                hkey.symm, by simpa using hdigest, hdoc, hupdated, rfl⟩
  · exact absurd h (by simp)

/-! ## Reading lines -/

/-- The line is read as the entry. -/
structure ReadsAs (line : Bytes) (e : LedgerEntry) : Prop where
  ne_nil : line ≠ []
  head : line.head? ≠ some hash
  last : line.getLast? ≠ some carriageReturn
  whole : lineFeed ∉ line
  entry : entryOfLine line = .ok e

variable {line : Bytes} {e : LedgerEntry} {r : Reading}

/-- Without a carriage return at its end, a line stays whole. -/
theorem dropReturn_of_ne (h : line.getLast? ≠ some carriageReturn) : dropReturn line = line :=
  if_neg h

/-- A line with a new key adds its entry. -/
theorem addLine_of_readsAs (h : ReadsAs line e) (hnew : r.ledger.find? e.key = none)
    (number : Nat) :
    r.addLine number (dropReturn line) = { r with ledger := r.ledger.record e } := by
  have hempty : line.isEmpty = false := List.isEmpty_eq_false_iff.mpr h.ne_nil
  obtain ⟨more, hcolumns⟩ := exists_columns h.entry
  have hcontains : r.ledger.contains e.id = false := by
    rw [hcolumns.id, ByteMap.contains, hnew]
    rfl
  have hstore : r.ledger.store e = r.ledger.record e := by rw [store, record, hcolumns.id]
  rw [dropReturn_of_ne h.last, Reading.addLine, hempty, if_neg Bool.false_ne_true, if_neg h.head,
    h.entry]
  simp only [hcontains, hstore, Bool.false_eq_true, if_false]

/-- Lines with new keys add their entries one after the other. By induction on the lines, which end
with an empty one. -/
theorem addLines_of_readsAs {xs : List (Bytes × LedgerEntry)}
    {read : Bytes × LedgerEntry → LedgerEntry}
    (hread : ∀ x ∈ xs, ReadsAs (entryLine x.1 x.2) (read x) ∧ (read x).key = x.1)
    (hkeys : (xs.map (·.1)).Nodup) (hr : r.error? = none)
    (hnew : ∀ x ∈ xs, r.ledger.find? x.1 = none) (number : Nat) :
    r.addLines number (xs.map (fun x => entryLine x.1 x.2) ++ [[]]) =
      { r with ledger := r.ledger.recordAll (xs.map read) } := by
  induction xs generalizing r number with
  | nil =>
    -- the empty text behind the last line feed
    have hlast : r.addLine number (dropReturn []) = r := rfl
    rw [List.map_nil, List.nil_append, Reading.addLines, hlast]
    exact ite_self r
  | cons x xs ih =>
    obtain ⟨hline, hkey⟩ := hread x List.mem_cons_self
    obtain ⟨hx, hxs⟩ := List.nodup_cons.mp hkeys
    have hstep := addLine_of_readsAs hline (hkey ▸ hnew x List.mem_cons_self) number
    rw [List.map_cons, List.cons_append, Reading.addLines, hstep]
    simp only [hr, Option.isSome_none, Bool.false_eq_true, if_false]
    refine ih (fun y hy => hread y (List.mem_cons_of_mem x hy)) hxs rfl ?_ (number + 1)
    intro y hy
    have hne : y.1 ≠ x.1 := fun heq => hx (List.mem_map.mpr ⟨y, hy, heq⟩)
    rw [record, hkey, ByteMap.find?_insert_of_ne hne]
    exact hnew y (List.mem_cons_of_mem x hy)

/-! ## Reading a rendered ledger -/

variable {l : Ledger} {read : Bytes × LedgerEntry → LedgerEntry}

/-- Entries without line feeds are the lines that the text splits into, with an empty one at the
end. -/
theorem splitOn_lines {xs : List (Bytes × LedgerEntry)}
    (h : ∀ x ∈ xs, lineFeed ∉ entryLine x.1 x.2) :
    Bytes.splitOn lineFeed (xs.flatMap fun (key, e) => renderEntry key e) =
      xs.map (fun x => entryLine x.1 x.2) ++ [[]] := by
  induction xs with
  | nil => rfl
  | cons x xs ih =>
    rw [List.flatMap_cons]
    show Bytes.splitOn lineFeed (renderEntry x.1 x.2 ++ _) = _
    rw [renderEntry_eq, List.append_assoc, List.singleton_append,
      Bytes.splitOn_append_cons (h x List.mem_cons_self),
      ih fun y hy => h y (List.mem_cons_of_mem x hy)]
    rfl

/-- The header adds nothing. -/
theorem addLine_header (r : Reading) (number : Nat) : r.addLine number (dropReturn header) = r := by
  have hreturn : dropReturn header = header := by decide +kernel
  have hempty : header.isEmpty = false := by decide +kernel
  have hhead : header.head? = some hash := by decide +kernel
  rw [hreturn, Reading.addLine, hempty, if_neg Bool.false_ne_true, if_pos hhead, bne_self_eq_false,
    Bool.and_false, if_neg Bool.false_ne_true]

/-- **A rendered ledger reads back line by line**, without a remark. -/
theorem parse_render
    (h : ∀ x ∈ l.toList, ReadsAs (entryLine x.1 x.2) (read x) ∧ (read x).key = x.1) :
    parse l.render = { ledger := ofEntries (l.toList.map read) } := by
  have hheader : lineFeed ∉ header := by decide +kernel
  have hkeys : (l.toList.map (·.1)).Nodup := ByteMap.nodup_keys l
  rw [parse, render, Bytes.splitOn_append_cons hheader, splitOn_lines fun x hx => (h x hx).1.whole,
    Reading.addLines, addLine_header]
  exact addLines_of_readsAs h hkeys rfl (fun _ _ => rfl) _

/-- Every key finds the entry that its line is read as. The keys of a ledger are all different, so
that no entry takes the place of another. -/
theorem find?_parse_render
    (h : ∀ x ∈ l.toList, ReadsAs (entryLine x.1 x.2) (read x) ∧ (read x).key = x.1) (k : Bytes) :
    (parse l.render).ledger.find? k = (l.find? k).map fun e => read (k, e) := by
  have hmap : (l.toList.map read).map (·.key) = l.keys := by
    rw [List.map_map]
    exact List.map_congr_left fun x hx => (h x hx).2
  have hnodup : ((l.toList.map read).map (·.key)).Nodup := hmap ▸ ByteMap.nodup_keys l
  rw [parse_render h]
  show (ofEntries (l.toList.map read)).find? k = _
  rw [ofEntries, find?_recordAll, ByteMap.find?_empty, Option.or_none]
  cases hfind : l.find? k with
  | none =>
    rw [Option.map_none, List.getLast?_eq_none_iff, List.filter_eq_nil_iff]
    intro e he heq
    have hk : k ∈ l.keys := hmap ▸ List.mem_map.mpr ⟨e, he, beq_iff_eq.mp heq⟩
    rw [ByteMap.mem_keys_iff, ByteMap.contains, hfind] at hk
    exact absurd hk (by simp)
  | some e =>
    have he : (k, e) ∈ l.toList := ByteMap.mem_entries_iff.mpr hfind
    have hlast := ByteMap.getLast?_filter_of_nodup hnodup (List.mem_map_of_mem he)
    rw [(h _ he).2] at hlast
    rw [hlast, Option.map_some]

/-! ## Columns -/

/-- A number that is not negative is written without a sign. -/
theorem signedDecimal_of_nonneg {n : Int} (h : 0 ≤ n) : signedDecimal n = decimal n.toNat := by
  rw [signedDecimal, if_neg (by omega), show n.natAbs = n.toNat by omega]

/-- A number that was written is read as itself, as long as it has at most nineteen digits. -/
theorem number?_decimal {n : Nat} (h : n < 10 ^ 19) : number? (decimal n) = some n := by
  have hempty : (decimal n).isEmpty = false := List.isEmpty_eq_false_iff.mpr (decimal_ne_nil n)
  have hlen : (decimal n).length ≤ 19 := (length_decimal_le_iff (by decide)).mpr h
  have hall : (decimal n).all isDigit = true := List.all_eq_true.mpr fun _ => isDigit_of_mem_decimal
  rw [number?, hempty, hall, digitsValue_decimal]
  simp [hlen]

/-- A time that is not before the origin reads back. -/
theorem updatedColumn_signedDecimal {t : Int64} (h : 0 ≤ t.toInt) :
    updatedColumn (signedDecimal t.toInt) = .ok t := by
  have hlt : t.toInt.toNat < 10 ^ 19 := by
    have := t.toInt_lt
    omega
  have hempty : (decimal t.toInt.toNat).isEmpty = false :=
    List.isEmpty_eq_false_iff.mpr (decimal_ne_nil _)
  have hback : Int64.ofNat t.toInt.toNat = t :=
    Int64.ofNat_toNatClampNeg t (Int64.le_iff_toInt_le.mpr h)
  rw [signedDecimal_of_nonneg h, updatedColumn, hempty, if_neg Bool.false_ne_true,
    number?_decimal hlt]
  exact congrArg Except.ok hback

theorem signedDecimal_of_neg {n : Int} (h : n < 0) :
    signedDecimal n = minus :: decimal n.natAbs := if_pos h

/-- A number in decimal is digits and at most a sign. -/
theorem isDigit_or_minus_of_mem_signedDecimal {n : Int} {b : UInt8} (hb : b ∈ signedDecimal n) :
    isDigit b = true ∨ b = minus := by
  rcases Int.lt_or_le n 0 with hneg | hnonneg
  · rw [signedDecimal_of_neg hneg] at hb
    rcases List.mem_cons.mp hb with rfl | hb
    · exact .inr rfl
    · exact .inl (isDigit_of_mem_decimal hb)
  · exact .inl (isDigit_of_mem_decimal (signedDecimal_of_nonneg hnonneg ▸ hb))

/-- The lowest digit of a word is below 16. -/
theorem and_fifteen_lt (w : UInt32) : (w &&& 0xF).toUInt8 < 16 := by
  have hle : (w &&& 0xF).toNat ≤ 15 := by
    rw [UInt32.toNat_and]
    exact Nat.and_le_right
  rw [UInt8.lt_iff_toNat_lt, UInt32.toNat_toUInt8]
  show (w &&& 0xF).toNat % 256 < 16
  omega

/-- The digit of a number below 16 is one of the lower-case digits. -/
theorem isDigit_hexDigit_or {n : UInt8} (h : n < 16) :
    (isDigit (hexDigit n) || (0x61 ≤ hexDigit n && hexDigit n ≤ 0x66)) = true := by
  have hlt : n.toNat < 16 := h
  obtain ⟨k, rfl⟩ : ∃ k : Fin 16, n = UInt8.ofNat k := ⟨⟨n.toNat, hlt⟩, by simp⟩
  revert k
  decide

/-- What the hash function writes can stand in the column of a digest. -/
theorem isDigest_hex (message : Bytes) : isDigest (Sha256.hex message) = true := by
  rw [Sha256.hex, Sha256.Digest.finish]
  generalize Sha256.Digest.closed _ = state
  rw [isDigest, Bool.and_eq_true]
  refine ⟨rfl, List.all_eq_true.mpr fun b hb => ?_⟩
  obtain ⟨w, -, hb⟩ := List.mem_flatMap.mp hb
  obtain ⟨s, -, rfl⟩ := List.mem_map.mp hb
  exact isDigit_hexDigit_or (and_fifteen_lt _)

/-- A key with a hash mark inside is split. -/
theorem exists_splitKey? {key : Bytes} (hmem : hash ∈ key) (hhead : key.head? ≠ some hash)
    (hlast : key.getLast? ≠ some hash) :
    ∃ file symbol, splitKey? key = some (file, symbol) := by
  obtain ⟨file, symbol, rfl, -, hsplit⟩ := Bytes.exists_splitLast? hmem
  have hfile : file.isEmpty = false := by
    cases file with
    | nil => exact absurd rfl hhead
    | cons b file => rfl
  have hsymbol : symbol.isEmpty = false := by
    cases symbol with
    | nil => exact absurd List.getLast?_concat hlast
    | cons b symbol => rfl
  refine ⟨file, symbol, ?_⟩
  rw [splitKey?, hsplit]
  simp only [hfile, hsymbol, Bool.or_self, Bool.false_eq_true, if_false]

/-- The entry with the key for its name, and with the file and the symbol that the key is split
into. -/
def resplit (key : Bytes) (e : LedgerEntry) : LedgerEntry :=
  match splitKey? key with
  | some (file, symbol) => { e with file, symbol, id := key }
  | none => e

/-- Splitting the key anew leaves the digest alone. -/
theorem digest_resplit (key : Bytes) (e : LedgerEntry) : (resplit key e).digest = e.digest := by
  unfold resplit
  split <;> rfl

/-! ## Entries that can be written -/

/-- The byte can stand in a column. -/
def IsPlain (b : UInt8) : Prop := b ≠ tab ∧ b ≠ lineFeed

instance : DecidablePred IsPlain := fun _ => inferInstanceAs (Decidable (_ ∧ _))

/-- A digit is plain. -/
theorem isPlain_of_isDigit {b : UInt8} (h : isDigit b = true) : IsPlain b := by
  refine ⟨?_, ?_⟩ <;> rintro rfl <;> exact absurd h (by decide)

/-- The columns of an entry can stand beside each other on one line. -/
structure PlainColumns (key : Bytes) (e : LedgerEntry) : Prop where
  key : ∀ b ∈ key, IsPlain b
  digest : ∀ b ∈ e.digest, IsPlain b
  doc : ∀ b ∈ renderDocRef e.doc, IsPlain b
  text : ∀ t ∈ e.text?, ∀ b ∈ t, IsPlain b

/-- A number with its sign is plain. -/
theorem plain_signedDecimal (n : Int) : ∀ b ∈ signedDecimal n, IsPlain b := by
  intro b hb
  rcases isDigit_or_minus_of_mem_signedDecimal hb with hdigit | rfl
  · exact isPlain_of_isDigit hdigit
  · exact ⟨by decide, by decide⟩

/-- A plain text has no tab. -/
theorem tab_not_mem {s : Bytes} (h : ∀ b ∈ s, IsPlain b) : tab ∉ s := fun hb => (h tab hb).1 rfl

/-- A plain text has no line feed. -/
theorem lineFeed_not_mem {s : Bytes} (h : ∀ b ∈ s, IsPlain b) : lineFeed ∉ s :=
  fun hb => (h lineFeed hb).2 rfl

/-- The columns of the line. -/
theorem PlainColumns.splitOn_entryLine {key : Bytes} (h : PlainColumns key e) :
    Bytes.splitOn tab (entryLine key e) =
      key :: e.digest :: renderDocRef e.doc :: signedDecimal e.updated.toInt :: e.text?.toList := by
  have hupdated := tab_not_mem (plain_signedDecimal e.updated.toInt)
  rw [entryLine, Bytes.splitOn_append_cons (tab_not_mem h.key),
    Bytes.splitOn_append_cons (tab_not_mem h.digest),
    Bytes.splitOn_append_cons (tab_not_mem h.doc)]
  cases htext : e.text? with
  | none => rw [List.append_nil, Bytes.splitOn_of_not_mem hupdated]; rfl
  | some t =>
    rw [Bytes.splitOn_append_cons hupdated,
      Bytes.splitOn_of_not_mem (tab_not_mem (h.text t htext))]
    rfl

/-- The line has no line feed. -/
theorem PlainColumns.lineFeed_not_mem_entryLine {key : Bytes} (h : PlainColumns key e) :
    lineFeed ∉ entryLine key e := by
  have hupdated := lineFeed_not_mem (plain_signedDecimal e.updated.toInt)
  have hkey := lineFeed_not_mem h.key
  have hdigest := lineFeed_not_mem h.digest
  have hdoc := lineFeed_not_mem h.doc
  have htab : lineFeed ≠ tab := by decide
  rw [entryLine]
  cases htext : e.text? with
  | none => simp [hkey, hdigest, hdoc, hupdated, htab]
  | some t =>
    have ht := lineFeed_not_mem (h.text t htext)
    simp [hkey, hdigest, hdoc, hupdated, htab, ht]

/-- The carriage return that is dropped is one of the last part. -/
theorem dropReturn_append {t : Bytes} (h : t ≠ []) (s : Bytes) :
    dropReturn (s ++ t) = s ++ dropReturn t := by
  unfold dropReturn
  rw [List.getLast?_append_of_ne_nil _ h]
  split
  · exact List.dropLast_append_of_ne_nil h
  · rfl

/-- What the end of a line loses is lost by the text, where there is one. -/
theorem dropReturn_entryLine (key : Bytes) (e : LedgerEntry) :
    dropReturn (entryLine key e) = entryLine key { e with text? := e.text?.map dropReturn } := by
  have hupdated : dropReturn (signedDecimal e.updated.toInt) = signedDecimal e.updated.toInt := by
    refine dropReturn_of_ne fun hlast => ?_
    rcases isDigit_or_minus_of_mem_signedDecimal (List.mem_of_getLast? hlast) with hdigit | hminus
    · exact absurd hdigit (by decide)
    · exact absurd hminus (by decide)
  have htab : ∀ t : Bytes, dropReturn (tab :: t) = tab :: dropReturn t := by
    intro t
    cases t with
    | nil => rfl
    | cons b t => exact dropReturn_append (List.cons_ne_nil b t) [tab]
  unfold entryLine
  rw [dropReturn_append (List.cons_ne_nil _ _), htab, dropReturn_append (List.cons_ne_nil _ _),
    htab, dropReturn_append (List.cons_ne_nil _ _), htab]
  cases e.text? with
  | none => simp only [List.append_nil, Option.map_none, hupdated]
  | some t => rw [dropReturn_append (List.cons_ne_nil _ _), htab, Option.map_some]

/-- What a key and an entry need so that their line reads back. The text may not end in a carriage
return, as a line is read without it. -/
structure Writable (key : Bytes) (e : LedgerEntry) : Prop where
  mem_key : hash ∈ key
  head_key : key.head? ≠ some hash
  last_key : key.getLast? ≠ some hash
  plain_key : ∀ b ∈ key, IsPlain b
  digest : isDigest e.digest = true
  doc : docColumn (renderDocRef e.doc) = .ok e.doc
  plain_doc : ∀ b ∈ renderDocRef e.doc, IsPlain b
  updated : 0 ≤ e.updated.toInt
  plain_text : ∀ t ∈ e.text?, ∀ b ∈ t, IsPlain b
  last_text : ∀ t ∈ e.text?, t.getLast? ≠ some carriageReturn

/-- A digest is plain. -/
theorem plain_digest {d : Bytes} (h : isDigest d = true) : ∀ b ∈ d, IsPlain b := by
  intro b hb
  rw [isDigest, Bool.and_eq_true] at h
  have hdigit := List.all_eq_true.mp h.2 b hb
  refine ⟨?_, ?_⟩ <;> rintro rfl <;> exact absurd hdigit (by decide)

namespace Writable

variable {key : Bytes}

/-- The columns of an entry that can be written are plain. -/
theorem plainColumns (h : Writable key e) : PlainColumns key e :=
  ⟨h.plain_key, plain_digest h.digest, h.plain_doc, h.plain_text⟩

/-- The line does not end with a carriage return. -/
theorem getLast?_entryLine (h : Writable key e) :
    (entryLine key e).getLast? ≠ some carriageReturn := by
  have htext : e.text?.map dropReturn = e.text? := by
    cases ht : e.text? with
    | none => rfl
    | some t => rw [Option.map_some, dropReturn_of_ne (h.last_text t ht)]
  have hkeep : dropReturn (entryLine key e) = entryLine key e := by
    rw [dropReturn_entryLine, htext]
  intro hlast
  -- a line without its last byte is shorter
  have hne : entryLine key e ≠ [] := by
    intro hnil
    rw [hnil] at hlast
    exact absurd hlast (by simp)
  rw [dropReturn, if_pos hlast] at hkeep
  have hlen := congrArg List.length hkeep
  rw [List.length_dropLast] at hlen
  have := List.length_pos_iff.mpr hne
  omega

/-- **A line reads back.** Only the place where the key is split may be another. -/
theorem readsAs (h : Writable key e) :
    ReadsAs (entryLine key e) (resplit key e) ∧ (resplit key e).key = key := by
  obtain ⟨file, symbol, hsplit⟩ := exists_splitKey? h.mem_key h.head_key h.last_key
  have hentry : resplit key e = { e with file, symbol, id := key } := by rw [resplit, hsplit]
  have hnil : key ≠ [] := List.ne_nil_of_mem h.mem_key
  have hcolumns : ∀ b : Bytes, (renderDocRef e.doc :: b :: e.text?.toList)[2]? = e.text? := by
    intro b
    cases e.text? <;> rfl
  have hlen : ∀ b : Bytes, ¬ 3 < (renderDocRef e.doc :: b :: e.text?.toList).length := by
    intro b
    cases e.text? <;> simp
  have hread : entryOfLine (entryLine key e) = .ok { e with file, symbol, id := key } := by
    rw [entryOfLine, h.plainColumns.splitOn_entryLine]
    simp only [if_neg (hlen _), hsplit, h.digest, hcolumns, List.getD_cons_zero,
      List.getD_cons_succ, h.doc, updatedColumn_signedDecimal h.updated]
    rfl
  have hhead : (entryLine key e).head? ≠ some hash := by
    rw [entryLine, List.head?_append_of_ne_nil _ hnil]
    exact h.head_key
  have hline : entryLine key e ≠ [] := by simp [entryLine, hnil]
  rw [hentry]
  exact ⟨⟨hline, hhead, h.getLast?_entryLine, h.plainColumns.lineFeed_not_mem_entryLine,
    hread⟩,
    ledgerKey_of_splitKey? hsplit⟩

end Writable

/-! ## Entries that are read -/

/-- The key of an entry is a column of its line. -/
theorem key_mem_splitOn (h : entryOfLine line = .ok e) : e.key ∈ Bytes.splitOn tab line := by
  obtain ⟨more, hcolumns⟩ := exists_columns h
  rw [hcolumns.split]
  exact List.mem_cons_self

/-- Every byte of the line that is left was in the line. -/
theorem mem_of_mem_dropReturn {b : UInt8} (h : b ∈ dropReturn line) : b ∈ line := by
  unfold dropReturn at h
  split at h
  · exact List.dropLast_subset _ h
  · exact h

/-- The line, without the return at its end, is no comment and reads as the entry. -/
structure FromLine (line : Bytes) (e : LedgerEntry) : Prop where
  head : (dropReturn line).head? ≠ some hash
  entry : entryOfLine (dropReturn line) = .ok e

/-- A column of a line can stand in a column again. -/
theorem isPlain_of_mem_splitOn {part : Bytes} (hline : lineFeed ∉ line)
    (hpart : part ∈ Bytes.splitOn tab (dropReturn line)) : ∀ b ∈ part, IsPlain b := by
  intro b hb
  obtain ⟨hmem, hne⟩ := Bytes.mem_of_mem_splitOn hpart hb
  exact ⟨hne, fun heq => hline (heq ▸ mem_of_mem_dropReturn hmem)⟩

/-- Every entry of the ledger is read from one of the lines and stands under its own key. -/
def FromLines (lines : List Bytes) (l : Ledger) : Prop :=
  ∀ k e, l.find? k = some e → e.key = k ∧ ∃ line ∈ lines, FromLine line e

section FromLines

variable {lines : List Bytes}

/-- Storing the entry of one of the lines keeps all entries from the lines. -/
theorem FromLines.store {l : Ledger} (h : FromLines lines l) (hline : line ∈ lines)
    (he : FromLine line e) : FromLines lines (l.store e) := by
  obtain ⟨more, hcolumns⟩ := exists_columns he.entry
  intro k e' hfind
  rw [Ledger.store, hcolumns.id, ByteMap.find?_insert] at hfind
  split at hfind
  · rename_i heq
    obtain rfl := Option.some.inj hfind
    exact ⟨heq.symm, line, hline, he⟩
  · exact h k e' hfind

/-- So does one step over a line. -/
theorem FromLines.addLine (h : FromLines lines r.ledger) (hline : line ∈ lines) (number : Nat) :
    FromLines lines (r.addLine number (dropReturn line)).ledger := by
  unfold Reading.addLine
  split
  · exact h
  split
  · split <;> exact h
  · rename_i hhead
    split
    · exact h
    · rename_i e he
      exact h.store hline ⟨hhead, he⟩

/-- So does reading all the lines. -/
theorem FromLines.addLines {rest : List Bytes} (h : FromLines lines r.ledger) (hrest : rest ⊆ lines)
    (number : Nat) : FromLines lines (r.addLines number rest).ledger := by
  induction rest generalizing r number with
  | nil => exact h
  | cons line rest ih =>
    have hstep := h.addLine (hrest List.mem_cons_self) number
    rw [Reading.addLines]
    split
    · exact hstep
    · exact ih hstep (List.subset_of_cons_subset hrest) _

/-- **Entries come from lines.** -/
theorem fromLines_parse (text : Bytes) :
    FromLines (Bytes.splitOn lineFeed text) (parse text).ledger :=
  FromLines.addLines (fun k e h => absurd h (by rw [ByteMap.find?_empty]; simp)) (List.Subset.refl _)
    1

end FromLines

/-- No line holds a line feed. -/
theorem lineFeed_not_mem_of_mem_splitOn {text : Bytes} (h : line ∈ Bytes.splitOn lineFeed text) :
    lineFeed ∉ line := fun hb => (Bytes.mem_of_mem_splitOn h hb).2 rfl

/-- Every key of the ledger can stand in a column. -/
def PlainKeys (l : Ledger) : Prop := ∀ k ∈ l.keys, ∀ b ∈ k, IsPlain b

/-- **Keys that are read have neither a tab nor a line feed.** -/
theorem plainKeys_parse (text : Bytes) : PlainKeys (parse text).ledger := by
  intro k hk
  rw [ByteMap.mem_keys_iff, ByteMap.contains] at hk
  obtain ⟨e, he⟩ := Option.isSome_iff_exists.mp hk
  obtain ⟨rfl, line, hline, hfrom⟩ := fromLines_parse text k e he
  exact isPlain_of_mem_splitOn (lineFeed_not_mem_of_mem_splitOn hline) (key_mem_splitOn hfrom.entry)

end SignatureLedger.Ledger
