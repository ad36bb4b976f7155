import SignatureLedger.Proofs.Ledger.RoundTrip

/-!
# Writing a ledger that was read

The lenient reader takes more than the writer can express: a time that does not fit a signed word,
lines of a document without a path, and a text that ends with a carriage return. A ledger that was
read and has none of these is written and read back as it is, and one with any of them is not
(`reread_iff`).
-/

namespace SignatureLedger

/-- The first part of a text that is split stands at its front. -/
theorem Bytes.prefix_of_splitOn {sep : UInt8} {s part : Bytes} {parts : List Bytes}
    (h : splitOn sep s = part :: parts) : part <+: s := by
  fun_induction splitOn sep s generalizing part parts with
  | case1 =>
    obtain ⟨rfl, -⟩ := List.cons.inj h
    exact List.nil_prefix
  | case2 =>
    obtain ⟨rfl, -⟩ := List.cons.inj h
    exact List.nil_prefix
  | case3 b s _ hnil => exact absurd hnil (splitOn_ne_nil sep s)
  | case4 b s _ first rest hs ih =>
    obtain ⟨rfl, -⟩ := List.cons.inj h
    exact List.cons_prefix_cons.mpr ⟨rfl, ih hs⟩

namespace Ledger

open Byte

variable {line : Bytes} {e : LedgerEntry}

/-! ## Doc references that are read -/

/-- What a column gives: no reference; the column as a path; or the lines behind its last colon. -/
inductive ReadDoc : Bytes → DocRef → Prop
  | none : ReadDoc [] {}
  | whole {s : Bytes} (hne : s ≠ []) : ReadDoc s { path := s }
  | lines {path range : Bytes} {first last : Nat} (hfirst : 1 ≤ first) (hle : first ≤ last)
      (hlast : last < 2 ^ 32) : ReadDoc (path ++ colon :: range) ⟨path, first, last⟩

/-- A column that is read as a reference gives one that was read. There is one case for each way
through the reader. -/
theorem readDoc_of_docColumn {s : Bytes} {d : DocRef} (h : docColumn s = .ok d) : ReadDoc s d := by
  unfold docColumn at h
  split at h
  · rename_i hempty
    obtain rfl := Except.ok.inj h
    obtain rfl := List.isEmpty_iff.mp hempty
    exact .none
  rename_i hempty
  have hne : s ≠ [] := fun hnil => hempty (List.isEmpty_iff.mpr hnil)
  split at h
  · rename_i hd
    obtain rfl := Except.ok.inj h
    unfold docRef? at hd
    split at hd
    · obtain rfl := Option.some.inj hd
      exact .whole hne
    · rename_i path range hsplit
      split at hd
      · obtain rfl := Option.some.inj hd
        exact .whole hne
      · split at hd
        · exact absurd hd (by simp)
        · rename_i lo hi _ hrange
          obtain rfl := Option.some.inj hd
          have hword : UInt32.size = 2 ^ 32 := rfl
          rw [Bytes.eq_of_splitLast? hsplit]
          exact .lines (by omega) (by omega) (by omega)
  · exact absurd h (by simp)

/-- A doc reference that was read reads back, unless it has lines and no path. -/
theorem docColumn_renderDocRef_of_read {s : Bytes} {d : DocRef} (h : docColumn s = .ok d)
    (hpath : d.path = [] → d = {}) : docColumn (renderDocRef d) = .ok d := by
  cases readDoc_of_docColumn h with
  | none => rfl
  | whole hne => rwa [renderDocRef_of_whole hne]
  | @lines path range first last hfirst hle hlast =>
    have hne : path ≠ [] := by
      intro hnil
      have hzero : first = 0 := congrArg DocRef.first (hpath hnil)
      omega
    have hempty : (path ++ colon :: renderLines first last).isEmpty = false := by simp
    rw [renderDocRef_of_lines hne hfirst, docColumn, hempty, if_neg Bool.false_ne_true,
      docRef?_of_lines path hfirst hle hlast]

/-- A reference that was read from a plain column is written as one. -/
theorem plain_renderDocRef_of_read {s : Bytes} {d : DocRef} (h : docColumn s = .ok d)
    (hs : ∀ b ∈ s, IsPlain b) : ∀ b ∈ renderDocRef d, IsPlain b := by
  cases readDoc_of_docColumn h with
  | none => exact hs
  | whole hne => rwa [renderDocRef_of_whole hne]
  | @lines path range first last hfirst hle hlast =>
    have hplain : ∀ b ∈ path, IsPlain b := fun b hb => hs b (List.mem_append_left _ hb)
    by_cases hne : path = []
    · rw [hne]
      exact fun b hb => absurd hb List.not_mem_nil
    · exact plain_renderDocRef (.lines hne hplain hfirst hle hlast)

/-! ## Entries that are read -/

/-- The parts of a key that is split. -/
theorem parts_of_splitKey? {key file symbol : Bytes} (h : splitKey? key = some (file, symbol)) :
    file ≠ [] ∧ symbol ≠ [] ∧ hash ∉ symbol := by
  unfold splitKey? at h
  split at h
  · rename_i u v hsplit
    split at h
    · exact absurd h (by simp)
    · rename_i hempty
      obtain ⟨rfl, rfl⟩ := Prod.mk.inj (Option.some.inj h)
      have hkey := Bytes.eq_of_splitLast? hsplit
      obtain ⟨u', v', -, hnot, hsplit'⟩ :=
        Bytes.exists_splitLast? (hkey ▸ List.mem_append_right u List.mem_cons_self)
      obtain ⟨rfl, rfl⟩ := Prod.mk.inj (Option.some.inj (hsplit.symm.trans hsplit'))
      simp only [Bool.or_eq_true, List.isEmpty_iff, not_or] at hempty
      exact ⟨hempty.1, hempty.2, hnot⟩
  · exact absurd h (by simp)

/-- The columns of an entry that was read can stand on a line again. -/
theorem FromLine.plainColumns (h : FromLine line e) (hline : lineFeed ∉ line) :
    PlainColumns e.key e := by
  obtain ⟨more, hcolumns⟩ := exists_columns h.entry
  have hplain : ∀ part ∈ e.key :: e.digest :: more, ∀ b ∈ part, IsPlain b :=
    fun part hpart => isPlain_of_mem_splitOn hline (hcolumns.split ▸ hpart)
  have hmore : ∀ part ∈ more, ∀ b ∈ part, IsPlain b := fun part hpart =>
    hplain part (List.mem_cons_of_mem _ (List.mem_cons_of_mem _ hpart))
  refine ⟨hplain _ List.mem_cons_self, plain_digest hcolumns.digest,
    plain_renderDocRef_of_read hcolumns.doc ?_, ?_⟩
  · -- a column that is missing is empty
    rw [List.getD_eq_getElem?_getD]
    cases hdoc : more[0]? with
    | none => exact fun b hb => absurd hb List.not_mem_nil
    | some doc => exact hmore doc (List.mem_of_getElem? hdoc)
  · intro t ht
    rw [hcolumns.text] at ht
    exact hmore t (List.mem_of_getElem? ht)

/-- What the text form can express of an entry that was read. -/
structure Expressible (e : LedgerEntry) : Prop where
  updated : 0 ≤ e.updated
  doc : e.doc.path = [] → e.doc = {}
  text : ∀ t ∈ e.text?, t.getLast? ≠ some carriageReturn

/-- An entry that was read can be written, if the text form can express it. -/
theorem FromLine.writable (h : FromLine line e) (hline : lineFeed ∉ line) (he : Expressible e) :
    Writable e.key e := by
  obtain ⟨more, hcolumns⟩ := exists_columns h.entry
  obtain ⟨hfile, hsymbol, hhash⟩ := parts_of_splitKey? hcolumns.key
  have hplain := h.plainColumns hline
  have hkey : e.key = e.file ++ hash :: e.symbol := rfl
  refine ⟨?_, ?_, ?_, hplain.key, hcolumns.digest,
    docColumn_renderDocRef_of_read hcolumns.doc he.doc, hplain.doc,
    Int64.le_iff_toInt_le.mp he.updated, hplain.text, he.text⟩
  · exact List.mem_append_right _ List.mem_cons_self
  · -- the line starts with its key
    obtain ⟨rest, hrest⟩ := Bytes.prefix_of_splitOn hcolumns.split
    have hhead := h.head
    rwa [← hrest, List.head?_append_of_ne_nil _ (by simp [hkey])] at hhead
  · rw [hkey, List.getLast?_append_of_ne_nil _ (by simp), List.getLast?_cons_of_ne_nil hsymbol]
    exact fun hlast => hhash (List.mem_of_getLast? hlast)

/-- The key of an entry that was read is split where it was. -/
theorem FromLine.resplit_eq (h : FromLine line e) : resplit e.key e = e := by
  obtain ⟨more, hcolumns⟩ := exists_columns h.entry
  rw [resplit, hcolumns.key]
  simp only [← hcolumns.id]

/-- An entry that its own line reads as can be expressed. A number with a sign, a range without a
path and a text that ends in a carriage return would be read as something else, or not at all. -/
theorem expressible_of_entryLine {key : Bytes} (hplain : PlainColumns key e)
    (h : entryOfLine (dropReturn (entryLine key e)) = .ok e) : Expressible e := by
  rw [dropReturn_entryLine] at h
  obtain ⟨more, hcolumns⟩ := exists_columns h
  have hplain' : PlainColumns key { e with text? := e.text?.map dropReturn } := by
    refine ⟨hplain.key, hplain.digest, hplain.doc, fun t ht b hb => ?_⟩
    obtain ⟨u, hu, rfl⟩ := Option.map_eq_some_iff.mp ht
    exact hplain.text u hu b (mem_of_mem_dropReturn hb)
  have hsplit := hplain'.splitOn_entryLine.symm.trans hcolumns.split
  obtain ⟨-, hsplit⟩ := List.cons.inj hsplit
  obtain ⟨-, rfl⟩ := List.cons.inj hsplit
  constructor
  · rw [Int64.le_iff_toInt_le]
    by_contra hneg
    -- no number starts with a sign
    have hupdated : updatedColumn (signedDecimal e.updated.toInt) = .ok e.updated := hcolumns.updated
    rw [signedDecimal_of_neg (by simpa using hneg)] at hupdated
    have hdigit : isDigit minus = false := by decide
    have hnone : number? (minus :: decimal e.updated.toInt.natAbs) = none := by
      rw [number?, List.all_cons, hdigit, Bool.false_and, Bool.not_false, Bool.or_true, if_pos rfl]
    rw [updatedColumn, hnone] at hupdated
    exact absurd hupdated (by simp)
  · intro hpath
    have hdoc : docColumn (renderDocRef e.doc) = .ok e.doc := hcolumns.doc
    rw [renderDocRef, hpath] at hdoc
    exact (Except.ok.inj hdoc).symm
  · intro t ht hlast
    have htext : e.text? = (e.text?.map dropReturn).toList[0]? := hcolumns.text
    rw [ht] at htext
    have hlen := congrArg List.length (Option.some.inj htext)
    rw [dropReturn, if_pos hlast, List.length_dropLast] at hlen
    have := List.length_pos_iff.mpr (List.ne_nil_of_mem (List.mem_of_getLast? hlast))
    omega

/-! ## Ledgers that are read -/

section Reread

variable {text : Bytes} {x : Bytes × LedgerEntry}

/-- Every entry of a ledger that was read has its line. -/
theorem exists_line_of_mem_parse (hx : x ∈ (parse text).ledger.toList) :
    x.2.key = x.1 ∧ ∃ line ∈ Bytes.splitOn lineFeed text, FromLine line x.2 :=
  fromLines_parse text x.1 x.2 (ByteMap.mem_entries_iff.mp hx)

/-- What was read has plain columns. -/
theorem plainColumns_of_mem_parse (hx : x ∈ (parse text).ledger.toList) :
    PlainColumns x.1 x.2 := by
  obtain ⟨hkey, line, hline, hfrom⟩ := exists_line_of_mem_parse hx
  exact hkey ▸ hfrom.plainColumns (lineFeed_not_mem_of_mem_splitOn hline)

/-- What can be expressed is read from its own line. -/
theorem readsAs_of_mem_parse (hx : x ∈ (parse text).ledger.toList) (he : Expressible x.2) :
    ReadsAs (entryLine x.1 x.2) x.2 ∧ x.2.key = x.1 := by
  obtain ⟨hkey, line, hline, hfrom⟩ := exists_line_of_mem_parse hx
  obtain ⟨hread, -⟩ := (hfrom.writable (lineFeed_not_mem_of_mem_splitOn hline) he).readsAs
  rw [hfrom.resplit_eq, hkey] at hread
  exact ⟨hread, hkey⟩

/-- What comes back from the text of a ledger is read from its own line. The header and the last
line of the text are no entries. -/
theorem entryOfLine_of_reread
    (hback : (parse (parse text).ledger.render).ledger = (parse text).ledger)
    (hx : x ∈ (parse text).ledger.toList) :
    entryOfLine (dropReturn (entryLine x.1 x.2)) = .ok x.2 := by
  have hheader : lineFeed ∉ header := by decide +kernel
  have hlines : ∀ y ∈ (parse text).ledger.toList, lineFeed ∉ entryLine y.1 y.2 :=
    fun y hy => (plainColumns_of_mem_parse hy).lineFeed_not_mem_entryLine
  obtain ⟨hkey, line, hline, hhead, hentry⟩ := exists_line_of_mem_parse (hback.symm ▸ hx)
  rw [render, Bytes.splitOn_append_cons hheader, splitOn_lines hlines, List.mem_cons,
    List.mem_append, List.mem_singleton] at hline
  rcases hline with rfl | hline | rfl
  · exact absurd (by decide +kernel) hhead
  · -- the line of another entry starts with another key
    obtain ⟨y, hy, rfl⟩ := List.mem_map.mp hline
    have hentry' := hentry
    rw [dropReturn_entryLine] at hentry'
    obtain ⟨more, hcolumns⟩ := exists_columns hentry'
    have hsame : y.1 = x.1 := by
      rw [← hkey]
      have hplain := plainColumns_of_mem_parse hy
      have hsplit := hcolumns.split
      rw [entryLine, Bytes.splitOn_append_cons (tab_not_mem hplain.key)] at hsplit
      exact (List.cons.inj hsplit).1
    have hfind := ByteMap.mem_entries_iff.mp hy
    rw [hsame, ByteMap.mem_entries_iff.mp hx] at hfind
    rwa [hsame, ← Option.some.inj hfind] at hentry
  · exact absurd hentry (by simp [dropReturn, entryOfLine, Bytes.splitOn])

end Reread

/-- **Writing what was read.** The ledger of a text is written and read back as it is, without a
remark, exactly if each of its entries can be expressed. -/
theorem reread_iff (text : Bytes) :
    parse (parse text).ledger.render = { ledger := (parse text).ledger } ↔
      ∀ x ∈ (parse text).ledger.toList, Expressible x.2 := by
  constructor
  · intro h x hx
    exact expressible_of_entryLine (plainColumns_of_mem_parse hx)
      (entryOfLine_of_reread (by rw [h]) hx)
  · intro h
    have hread : ∀ x ∈ (parse text).ledger.toList,
        ReadsAs (entryLine x.1 x.2) x.2 ∧ x.2.key = x.1 :=
      fun x hx => readsAs_of_mem_parse hx (h x hx)
    have hledger : (parse (parse text).ledger.render).ledger = (parse text).ledger := by
      apply ByteMap.ext_find?
      intro k
      rw [find?_parse_render hread]
      exact Option.map_id'
    rw [parse_render hread] at hledger ⊢
    exact congrArg (fun l : Ledger => ({ ledger := l } : Reading)) hledger

namespace RereadSample

/-- A line with a key, a digest and the given columns behind them. -/
def entryText (columns : String) : Bytes :=
  bytes "f#s\t" ++ List.replicate 64 0x61 ++ bytes columns ++ [lineFeed]

/-- A time of 19 digits that does not fit a signed word. -/
def lateTime : Bytes := entryText "\t\t9999999999999999999"

/-- Lines of a document that has no path. -/
def linesAlone : Bytes := entryText "\t:12"

/-- A text that ends with a return, before the one of the line. -/
def twoReturns : Bytes := entryText "\t\t0\tt\r\r"

/-- The text is read without a remark, and its ledger does not come back. -/
def Loses (text : Bytes) : Prop :=
  (parse text).error? = none ∧ (parse text).warnings = [] ∧
    parse (parse text).ledger.render ≠ { ledger := (parse text).ledger }

/-- It is enough that the lists of the entries differ. -/
theorem Loses.of_toList {text : Bytes}
    (h : (parse text).error? = none ∧ (parse text).warnings = [] ∧
      (parse (parse text).ledger.render).ledger.toList ≠ (parse text).ledger.toList) :
    Loses text :=
  ⟨h.1, h.2.1, fun hback => h.2.2 (congrArg (·.ledger.toList) hback)⟩

end RereadSample

open RereadSample in
/-- Each of the three loses its entry. -/
theorem not_reread_samples : Loses lateTime ∧ Loses linesAlone ∧ Loses twoReturns :=
  ⟨.of_toList (by decide +kernel), .of_toList (by decide +kernel), .of_toList (by decide +kernel)⟩

end Ledger

end SignatureLedger
