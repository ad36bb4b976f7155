import SignatureLedger.Proofs.Ledger.Reread

/-!
# What is accepted from a text

A line that is neither empty nor a comment has one of two ends: it has the shape of an entry
(`EntryText`) and its entry is stored, or it has not and is skipped with one remark
(`entryOfLine_eq_ok_iff`). So reading a text is a run over its lines (`Run`), the ledger is what the
stored entries make, the last one of each key, and every entry in it is sound
(`sound_parse`).
-/

namespace SignatureLedger

namespace Ledger

open Byte

/-! ## Numbers, ranges and doc references -/

/-- Up to nineteen decimal digits, and the number that they stand for. -/
structure NumberText (s : Bytes) (n : Nat) : Prop where
  number : IsNumber s
  short : s.length ≤ 19
  value : s.digitsValue = n

/-- The numbers that are read are the texts of numbers. -/
theorem number?_eq_some_iff {s : Bytes} {n : Nat} : number? s = some n ↔ NumberText s n := by
  unfold number?
  split
  · rename_i hbad
    simp only [Bool.or_eq_true, List.isEmpty_iff, decide_eq_true_eq, Bool.not_eq_true',
      List.all_eq_false] at hbad
    refine iff_of_false (by simp) fun h => ?_
    rcases hbad with (hnil | hlong) | ⟨b, hb, hdigit⟩
    · exact h.number.1 hnil
    · exact absurd h.short (by omega)
    · exact hdigit (h.number.2 b hb)
  · rename_i hgood
    simp only [Bool.or_eq_true, List.isEmpty_iff, decide_eq_true_eq, Bool.not_eq_true',
      List.all_eq_false, not_or, not_exists, not_and, not_not, Nat.not_lt] at hgood
    constructor
    · intro h
      exact ⟨⟨hgood.1.1, hgood.2⟩, hgood.1.2, Option.some.inj h⟩
    · intro h
      rw [h.value]

/-- A number that is both ends, or two numbers with a dash between them. -/
inductive RangeText : Bytes → Nat → Nat → Prop
  | one {s : Bytes} {n : Nat} (hs : NumberText s n) : RangeText s n n
  | two {s t : Bytes} {lo hi : Nat} (hs : NumberText s lo) (ht : NumberText t hi) :
      RangeText (s ++ minus :: t) lo hi

/-- No other byte than a digit stands in the text of a number. -/
theorem NumberText.not_mem {s : Bytes} {n : Nat} (h : NumberText s n) {b : UInt8}
    (hb : isDigit b = false) : b ∉ s := by
  intro hmem
  rw [h.number.2 b hmem] at hb
  exact absurd hb (by decide)

/-- The ranges of lines that are read are the texts of ranges. A text without a dash is one number;
with a dash it is two, which have none in them. -/
theorem lineRange?_eq_some_iff {s : Bytes} {lo hi : Nat} :
    lineRange? s = some (lo, hi) ↔ RangeText s lo hi := by
  have hlen : ∀ u v : Bytes, u.length ≠ (u ++ minus :: v).length := by
    intro u v
    rw [List.length_append, List.length_cons]
    omega
  have hdrop : ∀ u v : Bytes, (u ++ minus :: v).drop (u.length + 1) = v := by
    intro u v
    rw [← List.drop_drop, List.drop_left, List.drop_one, List.tail_cons]
  constructor
  · intro h
    unfold lineRange? at h
    dsimp only at h
    split at h
    · obtain ⟨n, hn, heq⟩ := Option.map_eq_some_iff.mp h
      obtain ⟨rfl, rfl⟩ := Prod.mk.inj heq
      exact .one (number?_eq_some_iff.mp hn)
    · rename_i hdash
      obtain ⟨m, hm, h⟩ := Option.bind_eq_some_iff.mp h
      obtain ⟨n, hn, h⟩ := Option.bind_eq_some_iff.mp h
      obtain ⟨rfl, rfl⟩ := Prod.mk.inj (Option.some.inj h)
      have hmem : minus ∈ s := by
        by_contra hno
        exact hdash (by rw [takeWhile_ne_of_not_mem hno])
      -- the text is split at its first dash
      obtain ⟨u, v, rfl, hu⟩ := List.eq_append_cons_of_mem hmem
      rw [takeWhile_ne_append_cons hu] at hm hn
      rw [hdrop] at hn
      exact .two (number?_eq_some_iff.mp hm) (number?_eq_some_iff.mp hn)
  · rintro (hs | ⟨hs, ht⟩)
    · rw [lineRange?, takeWhile_ne_of_not_mem (hs.not_mem (by decide)), if_pos rfl,
        number?_eq_some_iff.mpr hs, Option.map_some]
    · rw [lineRange?, takeWhile_ne_append_cons (hs.not_mem (by decide)), if_neg (hlen _ _), hdrop,
        number?_eq_some_iff.mpr hs, number?_eq_some_iff.mpr ht]
      rfl

/-- No colon stands in the text of a range. -/
theorem RangeText.colon_not_mem {s : Bytes} {lo hi : Nat} (h : RangeText s lo hi) : colon ∉ s := by
  cases h with
  | one hs => exact hs.not_mem (by decide)
  | two hs ht =>
    rw [List.mem_append, List.mem_cons]
    rintro (hmem | hmem | hmem)
    · exact hs.not_mem (by decide) hmem
    · exact absurd hmem (by decide)
    · exact ht.not_mem (by decide) hmem

/-- The doc column: empty; a path with a colon and a range that rises and fits 32 bits; or a path
alone, which has no range behind a colon. -/
inductive DocText : Bytes → DocRef → Prop
  | none : DocText [] {}
  | path {s : Bytes} (hne : s ≠ [])
      (hrange : ∀ path range lo hi, s = path ++ colon :: range → ¬ RangeText range lo hi) :
      DocText s { path := s }
  | lines {path range : Bytes} {first last : Nat} (hrange : RangeText range first last)
      (hfirst : 1 ≤ first) (hle : first ≤ last) (hlast : last < 2 ^ 32) :
      DocText (path ++ colon :: range) ⟨path, first, last⟩

/-- What stands behind the last colon decides. -/
theorem docRef?_append_colon {path range : Bytes} (h : colon ∉ range) :
    docRef? (path ++ colon :: range) =
      match lineRange? range with
      | none => some { path := path ++ colon :: range }
      | some (lo, hi) =>
        if lo = 0 ∨ hi < lo ∨ UInt32.size ≤ hi then none else some ⟨path, lo, hi⟩ := by
  have hsplit := Bytes.splitLast?_append_cons h path
  unfold docRef?
  generalize Bytes.splitLast? colon (path ++ colon :: range) = parts at hsplit ⊢
  subst hsplit
  rfl

/-- A reference without a colon is a path. -/
theorem docRef?_of_not_mem {s : Bytes} (h : colon ∉ s) : docRef? s = some { path := s } := by
  rw [docRef?, Bytes.splitLast?_of_not_mem h]

/-- What is read as a reference is a path, or a path with a range. A text without a colon is a path
as a whole, and so is one with no range behind its last colon. -/
theorem docText_of_docRef? {s : Bytes} {d : DocRef} (hs : s ≠ []) (h : docRef? s = some d) :
    DocText s d := by
  by_cases hcolon : colon ∈ s
  · obtain ⟨path, range, rfl, hrange, -⟩ := Bytes.exists_splitLast? hcolon
    rw [docRef?_append_colon hrange] at h
    split at h
    · rename_i hnone
      obtain rfl := Option.some.inj h
      refine .path hs fun path' range' lo hi heq htext => ?_
      -- a range has no colon, so it stands behind the last one
      have hsplit := Bytes.splitLast?_append_cons htext.colon_not_mem path'
      rw [← heq, Bytes.splitLast?_append_cons hrange] at hsplit
      obtain ⟨-, rfl⟩ := Prod.mk.inj (Option.some.inj hsplit)
      rw [lineRange?_eq_some_iff.mpr htext] at hnone
      exact absurd hnone (by simp)
    · rename_i lo hi hsome
      split at h
      · exact absurd h (by simp)
      · rename_i hword
        obtain rfl := Option.some.inj h
        have hsize : UInt32.size = 2 ^ 32 := rfl
        exact .lines (lineRange?_eq_some_iff.mp hsome) (by omega) (by omega) (by omega)
  · rw [docRef?_of_not_mem hcolon] at h
    obtain rfl := Option.some.inj h
    refine .path hs fun path range lo hi heq _ => hcolon ?_
    rw [heq]
    exact List.mem_append_right path List.mem_cons_self

/-- The text of a reference is read as that reference. -/
theorem docRef?_of_docText {s : Bytes} {d : DocRef} (hs : s ≠ []) (h : DocText s d) :
    docRef? s = some d := by
  cases h with
  | none => exact absurd rfl hs
  | path _ hrange =>
    by_cases hcolon : colon ∈ s
    · obtain ⟨path, range, rfl, hno, -⟩ := Bytes.exists_splitLast? hcolon
      rw [docRef?_append_colon hno]
      cases hlines : lineRange? range with
      | none => rfl
      | some lines =>
        exact absurd (lineRange?_eq_some_iff.mp hlines) (hrange path range _ _ rfl)
    · exact docRef?_of_not_mem hcolon
  | @lines path range first last hrange hfirst hle hlast =>
    have hword : ¬ (first = 0 ∨ last < first ∨ UInt32.size ≤ last) := by
      have hsize : UInt32.size = 2 ^ 32 := rfl
      omega
    rw [docRef?_append_colon hrange.colon_not_mem, lineRange?_eq_some_iff.mpr hrange]
    exact if_neg hword

/-- A column that is not empty is a reference. -/
theorem docColumn_of_ne_nil {s : Bytes} {d : DocRef} (hs : s ≠ []) :
    docColumn s = .ok d ↔ docRef? s = some d := by
  rw [docColumn, if_neg (by simpa using hs)]
  cases docRef? s <;> simp

/-- The columns that are read are the texts of references, or empty. -/
theorem docColumn_eq_ok_iff {s : Bytes} {d : DocRef} : docColumn s = .ok d ↔ DocText s d := by
  constructor
  · intro h
    by_cases hs : s = []
    · rw [hs] at h ⊢
      obtain rfl := Except.ok.inj h
      exact .none
    · exact docText_of_docRef? hs ((docColumn_of_ne_nil hs).mp h)
  · intro h
    by_cases hs : s = []
    · cases h with
      | none => rfl
      | path hne _ => exact absurd hs hne
      | lines _ _ _ _ => exact absurd hs (by simp)
    · exact (docColumn_of_ne_nil hs).mpr (docRef?_of_docText hs h)

/-- The column of the time: empty, or a number, of which a 64-bit word is kept. -/
inductive TimeText : Bytes → Int64 → Prop
  | none : TimeText [] 0
  | number {s : Bytes} {n : Nat} (hs : NumberText s n) : TimeText s (Int64.ofNat n)

/-- The columns that are read as a time are the texts of times. -/
theorem updatedColumn_eq_ok_iff {s : Bytes} {t : Int64} :
    updatedColumn s = .ok t ↔ TimeText s t := by
  constructor
  · intro h
    unfold updatedColumn at h
    split at h
    · rename_i hempty
      obtain rfl := Except.ok.inj h
      obtain rfl := List.isEmpty_iff.mp hempty
      exact .none
    · split at h
      · rename_i n hn
        obtain rfl := Except.ok.inj h
        exact .number (number?_eq_some_iff.mp hn)
      · exact absurd h (by simp)
  · intro h
    cases h with
    | none => rfl
    | number hs =>
      have hempty : s.isEmpty = false := List.isEmpty_eq_false_iff.mpr hs.number.1
      rw [updatedColumn, hempty, if_neg Bool.false_ne_true, number?_eq_some_iff.mpr hs]

/-! ## Lines -/

/-- The parts of an entry that stand in its key and its digest are what they have to be. -/
structure WellKeyed (e : LedgerEntry) : Prop where
  id : e.id = e.key
  file_ne_nil : e.file ≠ []
  symbol_ne_nil : e.symbol ≠ []
  hash_not_mem : hash ∉ e.symbol
  digest_length : e.digest.length = 64
  digest_digits : ∀ b ∈ e.digest, b ∈ digestDigits

/-- A key splits exactly into a file and a symbol that are not empty, at its last hash. -/
theorem splitKey?_eq_some_iff {key file symbol : Bytes} :
    splitKey? key = some (file, symbol) ↔
      key = ledgerKey file symbol ∧ file ≠ [] ∧ symbol ≠ [] ∧ hash ∉ symbol := by
  constructor
  · intro h
    exact ⟨(ledgerKey_of_splitKey? h).symm, parts_of_splitKey? h⟩
  · rintro ⟨rfl, hfile, hsymbol, hhash⟩
    have hfile' : file.isEmpty = false := List.isEmpty_eq_false_iff.mpr hfile
    have hsymbol' : symbol.isEmpty = false := List.isEmpty_eq_false_iff.mpr hsymbol
    rw [splitKey?, ledgerKey, Bytes.splitLast?_append_cons hhash]
    simp only [hfile', hsymbol', Bool.or_self, Bool.false_eq_true, if_false]

/-- A digest is sixty-four hexadecimal digits. -/
theorem isDigest_iff {d : Bytes} :
    isDigest d = true ↔ d.length = 64 ∧ ∀ b ∈ d, b ∈ digestDigits := by
  have hbyte : ∀ b : UInt8, (isDigit b || (0x61 ≤ b && b ≤ 0x66)) = true ↔ b ∈ digestDigits :=
    forall_byte (by decide +kernel)
  rw [isDigest, Bool.and_eq_true, beq_iff_eq, List.all_eq_true]
  simp only [hbyte]

/-- The line has the columns of the entry, with tabs between them: the key, the digest, and then the
doc reference, the time and the text, of which the last ones may be missing. -/
def EntryText (line : Bytes) (e : LedgerEntry) : Prop :=
  WellKeyed e ∧ ∃ more : List Bytes, more.length ≤ 3 ∧
    line = Bytes.join [tab] (e.key :: e.digest :: more) ∧
    (∀ column ∈ e.key :: e.digest :: more, tab ∉ column) ∧
    DocText (more.getD 0 []) e.doc ∧ TimeText (more.getD 1 []) e.updated ∧ e.text? = more[2]?

/-- **A line is an entry exactly if it has the shape of one.** Both ways it goes column by column:
the key, the digest, the reference, the time and the text. -/
theorem entryOfLine_eq_ok_iff {line : Bytes} {e : LedgerEntry} :
    entryOfLine line = .ok e ↔ EntryText line e := by
  constructor
  · intro h
    obtain ⟨more, hcolumns⟩ := exists_columns h
    obtain ⟨hfile, hsymbol, hhash⟩ := parts_of_splitKey? hcolumns.key
    obtain ⟨hlength, hdigits⟩ := isDigest_iff.mp hcolumns.digest
    obtain ⟨-, hline, htabs⟩ := Bytes.splitOn_eq_iff.mp hcolumns.split
    have hmore : more.length ≤ 3 := by
      rw [entryOfLine, hcolumns.split] at h
      by_contra hlong
      dsimp only at h
      rw [if_pos (by omega)] at h
      exact absurd h (by simp)
    exact ⟨⟨hcolumns.id, hfile, hsymbol, hhash, hlength, hdigits⟩, more, hmore, hline, htabs,
      docColumn_eq_ok_iff.mp hcolumns.doc, updatedColumn_eq_ok_iff.mp hcolumns.updated,
      hcolumns.text⟩
  · rintro ⟨hkeyed, more, hmore, hline, htabs, hdoc, htime, htext⟩
    have hsplit : line.splitOn tab = e.key :: e.digest :: more :=
      Bytes.splitOn_eq_iff.mpr ⟨List.cons_ne_nil _ _, hline, htabs⟩
    have hkey : splitKey? e.key = some (e.file, e.symbol) :=
      splitKey?_eq_some_iff.mpr ⟨rfl, hkeyed.file_ne_nil, hkeyed.symbol_ne_nil, hkeyed.hash_not_mem⟩
    have hdigest : isDigest e.digest = true :=
      isDigest_iff.mpr ⟨hkeyed.digest_length, hkeyed.digest_digits⟩
    rw [entryOfLine, hsplit]
    dsimp only
    rw [if_neg (by omega), hkey]
    simp only [hdigest, Bool.not_true, Bool.false_eq_true, if_false,
      docColumn_eq_ok_iff.mpr hdoc, updatedColumn_eq_ok_iff.mpr htime, ← htext, ← hkeyed.id]
    rfl

/-! ## Runs over lines -/

/-- A line that is to be read as an entry: it is not empty and no comment. -/
def IsEntryLine (line : Bytes) : Prop := line ≠ [] ∧ line.head? ≠ some hash

/-- Reading lines from number `n` on leads from the first reading to the second one and stores the
entries. A line that is to be an entry is skipped with one remark, which leaves the ledger as it is,
or its entry is stored, with one remark if its key is known already. -/
inductive Run : Nat → List Bytes → Reading → List LedgerEntry → Reading → Prop
  | done {n : Nat} {r : Reading} : Run n [] r [] r
  | pass {n : Nat} {line : Bytes} {lines : List Bytes} {r q : Reading} {stored : List LedgerEntry}
      (hline : ¬ IsEntryLine line) (hrest : Run (n + 1) lines r stored q) :
      Run n (line :: lines) r stored q
  | skip {n : Nat} {line : Bytes} {lines : List Bytes} {r q : Reading} {stored : List LedgerEntry}
      {fault : LineFault} (hline : IsEntryLine line) (hno : ∀ e, ¬ EntryText line e)
      (hfault : entryOfLine line = .error fault)
      (hrest : Run (n + 1) lines { r with warnings := r.warnings ++ [.skipped n fault] } stored q) :
      Run n (line :: lines) r stored q
  | store {n : Nat} {line : Bytes} {lines : List Bytes} {r q : Reading} {stored : List LedgerEntry}
      {e : LedgerEntry} (hline : IsEntryLine line) (he : EntryText line e)
      (hrest : Run (n + 1) lines
        { r with
          ledger := r.ledger.store e
          warnings := r.warnings ++ if r.ledger.contains e.id then [.overridden n e.id] else [] }
        stored q) :
      Run n (line :: lines) r (e :: stored) q

variable {r q : Reading} {n : Nat} {line : Bytes} {lines : List Bytes} {stored : List LedgerEntry}

/-- A line without an entry that is no error leaves the reading as it is. -/
theorem addLine_of_not_isEntryLine (h : ¬ IsEntryLine line)
    (hok : (r.addLine n line).error? = none) : r.addLine n line = r := by
  unfold Reading.addLine at hok ⊢
  split
  · rfl
  rename_i hne
  rw [if_neg hne] at hok
  split
  · rename_i hcomment
    rw [if_pos hcomment] at hok
    split at hok
    · exact absurd hok (by simp)
    · rename_i hheader
      rw [if_neg hheader]
  · rename_i hcomment
    exact absurd ⟨fun hnil => hne (List.isEmpty_iff.mpr hnil), hcomment⟩ h

/-- A line with an entry stores it, or is skipped with a warning. -/
theorem addLine_of_isEntryLine (h : IsEntryLine line) (r : Reading) (n : Nat) :
    r.addLine n line = match entryOfLine line with
      | .error fault => { r with warnings := r.warnings ++ [.skipped n fault] }
      | .ok e =>
        { r with
          ledger := r.ledger.store e
          warnings :=
            r.warnings ++ if r.ledger.contains e.id then [.overridden n e.id] else [] } := by
  have hempty : line.isEmpty = false := List.isEmpty_eq_false_iff.mpr h.1
  rw [Reading.addLine, hempty, if_neg Bool.false_ne_true, if_neg h.2]
  cases entryOfLine line with
  | error fault => rfl
  | ok e =>
    dsimp only
    split
    · rfl
    · rw [List.append_nil]

/-- **Reading lines is a run over them.** By induction on the lines, each of which is passed,
skipped with a warning or stored. -/
theorem exists_run_addLines (hr : r.error? = none) (h : (r.addLines n lines).error? = none) :
    ∃ stored, Run n (lines.map dropReturn) r stored (r.addLines n lines) := by
  induction lines generalizing r n with
  | nil => exact ⟨[], .done⟩
  | cons line lines ih =>
    rw [Reading.addLines] at h ⊢
    rw [List.map_cons]
    have hnext : (r.addLine n (dropReturn line)).error? = none := by
      cases hsome : (r.addLine n (dropReturn line)).error? with
      | none => rfl
      | some e =>
        rw [hsome, Option.isSome_some, if_pos rfl] at h
        exact absurd (hsome.symm.trans h) (by simp)
    rw [hnext, Option.isSome_none, if_neg Bool.false_ne_true] at h ⊢
    obtain ⟨stored, hrun⟩ := ih hnext h
    by_cases hline : IsEntryLine (dropReturn line)
    · rw [addLine_of_isEntryLine hline] at hrun ⊢
      cases hentry : entryOfLine (dropReturn line) with
      | error fault =>
        rw [hentry] at hrun
        refine ⟨stored, .skip hline (fun e he => ?_) hentry hrun⟩
        rw [entryOfLine_eq_ok_iff.mpr he] at hentry
        exact absurd hentry (by simp)
      | ok e =>
        rw [hentry] at hrun
        exact ⟨e :: stored, .store hline (entryOfLine_eq_ok_iff.mp hentry) hrun⟩
    · rw [addLine_of_not_isEntryLine hline hnext] at hrun ⊢
      exact ⟨stored, .pass hline hrun⟩

/-- The ledger of a run is made of the stored entries, in their order. -/
theorem Run.ledger_eq (h : Run n lines r stored q) : q.ledger = r.ledger.recordAll stored := by
  induction h with
  | done => rfl
  | pass _ _ ih => exact ih
  | skip _ _ _ _ ih => exact ih
  | @store n line lines r q stored e _ he _ ih =>
    have hstore : r.ledger.store e = r.ledger.record e := by rw [Ledger.store, record, he.1.id]
    rw [ih, hstore]
    rfl

/-- Every stored entry has its line. -/
theorem Run.exists_entryText (h : Run n lines r stored q) {e : LedgerEntry} (he : e ∈ stored) :
    ∃ line ∈ lines, IsEntryLine line ∧ EntryText line e := by
  induction h with
  | done => exact absurd he List.not_mem_nil
  | pass _ _ ih =>
    obtain ⟨line, hmem, hline⟩ := ih he
    exact ⟨line, List.mem_cons_of_mem _ hmem, hline⟩
  | skip _ _ _ _ ih =>
    obtain ⟨line, hmem, hline⟩ := ih he
    exact ⟨line, List.mem_cons_of_mem _ hmem, hline⟩
  | store hline htext _ ih =>
    rcases List.mem_cons.mp he with rfl | he
    · exact ⟨_, List.mem_cons_self, hline, htext⟩
    · obtain ⟨line, hmem, hline⟩ := ih he
      exact ⟨line, List.mem_cons_of_mem _ hmem, hline⟩

/-! ## Sound entries -/

/-- What holds of every entry that is read: its key can be split again and starts no comment, its
digest is one, and its lines are not known or are a range of 32-bit numbers. -/
structure Sound (e : LedgerEntry) : Prop extends WellKeyed e where
  file_head : e.file.head? ≠ some hash
  lines : (e.doc.first = 0 ∧ e.doc.last = 0) ∨
    (1 ≤ e.doc.first ∧ e.doc.first ≤ e.doc.last ∧ e.doc.last < 2 ^ 32)

/-- The line of an entry starts with its file. -/
theorem EntryText.head? {e : LedgerEntry} (h : EntryText line e) : line.head? = e.file.head? := by
  obtain ⟨hkeyed, more, -, rfl, -⟩ := h
  rw [Bytes.join]
  · rw [List.append_assoc, LedgerEntry.key, ledgerKey, List.append_assoc,
      List.head?_append_of_ne_nil _ hkeyed.file_ne_nil]
  · exact List.cons_ne_nil _ _

/-- An entry that a line gives is sound. -/
theorem EntryText.sound {e : LedgerEntry} (h : EntryText line e) (hline : IsEntryLine line) :
    Sound e := by
  obtain ⟨hkeyed, more, -, -, -, hdoc, -, -⟩ := id h
  refine ⟨hkeyed, h.head? ▸ hline.2, ?_⟩
  generalize e.doc = d, more.getD 0 [] = column at hdoc
  cases hdoc with
  | none => exact .inl ⟨rfl, rfl⟩
  | path => exact .inl ⟨rfl, rfl⟩
  | lines _ hfirst hle hlast => exact .inr ⟨hfirst, hle, hlast⟩

/-- **Accepted texts are checked line by line.** A text that is read to its end is read by a run
over its lines; the ledger has for each key the last entry that was stored under it; and each entry
stands under its own key and is sound. -/
theorem sound_parse (text : Bytes) (h : (parse text).error? = none) :
    ∃ stored, Run 1 ((text.splitOn lineFeed).map dropReturn) {} stored (parse text) ∧
      (∀ k, (parse text).ledger.find? k = (stored.filter (·.key == k)).getLast?) ∧
      ∀ k e, (k, e) ∈ (parse text).ledger.toList → k = e.file ++ hash :: e.symbol ∧ Sound e := by
  obtain ⟨stored, hrun⟩ := exists_run_addLines (r := {}) rfl h
  have hfind : ∀ k, (parse text).ledger.find? k = (stored.filter (·.key == k)).getLast? := by
    intro k
    rw [parse, hrun.ledger_eq, find?_recordAll]
    exact Option.or_none
  refine ⟨stored, hrun, hfind, fun k e hmem => ?_⟩
  have hlast := (hfind k).symm.trans (ByteMap.mem_entries_iff.mp hmem)
  obtain ⟨hstored, hkey⟩ := List.mem_filter.mp (List.mem_of_getLast? hlast)
  obtain ⟨line, -, hline, htext⟩ := hrun.exists_entryText hstored
  exact ⟨(beq_iff_eq.mp hkey).symm, htext.sound hline⟩

namespace AcceptedSample

/-- A line with the digest that has the given digit everywhere. -/
def entryText (key : String) (digit : UInt8) (columns : String) : Bytes :=
  bytes key ++ tab :: List.replicate 64 digit ++ bytes columns ++ [lineFeed]

/-- A text with a header, a comment, an empty line, three lines at fault, and four entries, of which
the last one has the key of the first one. -/
def mixed : Bytes :=
  bytes "# sigil ledger v1\n# note\n\r\n" ++ entryText "a#b#f" 0x61 "\tC:x:3-12\t17\tf()\r"
    ++ entryText "a#" 0x61 "" ++ entryText "a#f" 0x47 "" ++ entryText "a#f" 0x61 "\td:4-3"
    ++ entryText "a#g" 0x30 "\tC:x-1\t\t" ++ entryText "a#h" 0x31 ""
    ++ entryText "a#b#f" 0x39 "\tx:4294967295"

end AcceptedSample

open AcceptedSample in
/-- A ledger with faulty lines and one entry stored twice runs as described, warnings included. -/
theorem sound_parse_mixed :
    (parse mixed).error? = none ∧ (parse mixed).warnings =
        [.skipped 5 .key, .skipped 6 .digest, .skipped 7 .doc, .overridden 10 (bytes "a#b#f")] ∧
      ∃ stored, Run 1 ((mixed.splitOn lineFeed).map dropReturn) {} stored (parse mixed) ∧
        (∀ k, (parse mixed).ledger.find? k = (stored.filter (·.key == k)).getLast?) ∧
        ∀ k e, (k, e) ∈ (parse mixed).ledger.toList → k = e.file ++ hash :: e.symbol ∧ Sound e := by
  have hread : (parse mixed).error? = none := by decide +kernel
  exact ⟨hread, by decide +kernel, sound_parse mixed hread⟩

end Ledger

end SignatureLedger
