import SignatureLedger.Proofs.Config.Rejected
import SignatureLedger.Proofs.Config.Written

/-!
# Settings that are written and read back

A configuration is written line by line: a heading for every section, and its values below it. The
lines are read one by one, each as what it says, so a written text is read by following what its
lines say (`addLines_eq_follow`). The settings that a configuration and an environment come to are
read back as they are, unless the path of the ledger has a control byte without a name
(`readsBack_choose_iff`).
-/

namespace SignatureLedger.Config

open Byte

/-! ## Comments and blanks -/

/-- A reader that goes through `s` in state `st` finds no comment and is then in state `st'`. -/
def Crosses (st st' : QuoteState) (s : Bytes) : Prop :=
  ∀ t, dropComment st (s ++ t) = s ++ dropComment st' t

namespace Crosses

variable {st st' st'' : QuoteState} {s t : Bytes} {b : UInt8}

/-- Nothing is crossed by staying where one is. -/
theorem nil (st : QuoteState) : Crosses st st [] := fun _ => rfl

/-- A byte that opens no comment is crossed, and then the rest. -/
theorem cons (h : ¬ (st = .outside ∧ b = hash)) (hs : Crosses (st.next b) st' s) :
    Crosses st st' (b :: s) := by
  intro t
  rw [List.cons_append, dropComment, if_neg h, hs t, List.cons_append]

/-- What is crossed in two parts is crossed. -/
theorem append (hs : Crosses st st' s) (ht : Crosses st' st'' t) : Crosses st st'' (s ++ t) := by
  intro u
  rw [List.append_assoc, hs (t ++ u), ht u, List.append_assoc]

/-- Outside quotes nothing but quotes and hash marks counts. -/
theorem outside (h : ∀ b ∈ s, b ≠ doubleQuote ∧ b ≠ singleQuote ∧ b ≠ hash) :
    Crosses .outside .outside s := by
  induction s with
  | nil => exact nil _
  | cons b s ih =>
    obtain ⟨⟨hdouble, hsingle, hhash⟩, hs⟩ := List.forall_mem_cons.mp h
    refine cons (fun h => hhash h.2) ?_
    rw [QuoteState.next, if_neg (not_or.mpr ⟨hdouble, hsingle⟩)]
    exact ih hs

/-- A byte that is neither quote nor hash is crossed outside quotes. -/
theorem other (h : b ≠ doubleQuote ∧ b ≠ singleQuote ∧ b ≠ hash) :
    Crosses .outside .outside [b] := outside (List.forall_mem_singleton.mpr h)

/-- Between double quotes any byte but a quote and a backslash is passed over. -/
theorem within_cons (hquote : b ≠ doubleQuote) (hslash : b ≠ backslash)
    (hs : Crosses (.within doubleQuote) st' s) : Crosses (.within doubleQuote) st' (b :: s) := by
  refine cons (by simp) ?_
  rwa [QuoteState.next, if_neg (fun h => hslash h.2), if_neg hquote]

/-- Between double quotes a backslash takes the byte behind it along. -/
theorem within_escape (hs : Crosses (.within doubleQuote) st' s) :
    Crosses (.within doubleQuote) st' (backslash :: b :: s) :=
  cons (by simp) (cons (fun h => absurd h.1 (by decide)) hs)

/-- A spelled byte is crossed within double quotes. -/
theorem of_spelled (h : Spelled b s) : Crosses (.within doubleQuote) (.within doubleQuote) s := by
  cases h with
  | plain hquote hslash hb => exact within_cons hquote hslash (nil _)
  | named hc h => exact within_escape (nil _)
  | numbered hb hx hy =>
    exact within_escape (within_cons (by decide) (by decide) (within_cons (by decide) (by decide)
      (within_cons hx.1 hx.2.1 (within_cons hy.1 hy.2.1 (nil _)))))

/-- An escaped text is crossed within double quotes. -/
theorem escape (s : Bytes) :
    Crosses (.within doubleQuote) (.within doubleQuote) (escape s) := by
  induction s with
  | nil => exact nil _
  | cons b s ih =>
    rw [escape_cons]
    exact (of_spelled (spelled_escapeByte b)).append ih

/-- A text between quotes has no comment in it. -/
theorem quote (s : Bytes) : Crosses .outside .outside (quote s) := by
  have hclose : Crosses (.within doubleQuote) .outside [doubleQuote] := cons (by simp) (nil _)
  exact cons (by decide) ((escape s).append hclose)

/-- Where a text is crossed, no comment is cut from it. -/
theorem dropComment_eq (h : Crosses st st' s) : dropComment st s = s := by
  have hs := h []
  rwa [List.append_nil, dropComment, List.append_nil] at hs

end Crosses

/-- A text that neither starts nor ends with a blank. -/
structure Trimmed (s : Bytes) : Prop where
  ne_nil : s ≠ []
  head : ∀ b ∈ s.head?, isBlank b = false
  last : ∀ b ∈ s.getLast?, isBlank b = false

/-- The blanks around a text are dropped. -/
theorem Trimmed.trimBlanks_eq {s u v : Bytes} (hs : Trimmed s) (hu : ∀ b ∈ u, isBlank b = true)
    (hv : ∀ b ∈ v, isBlank b = true) : trimBlanks (u ++ s ++ v) = s := by
  obtain ⟨b, t, hcons⟩ := List.exists_cons_of_ne_nil hs.ne_nil
  have hb : ¬ isBlank b = true := by simpa using hs.head b (by rw [hcons]; rfl)
  obtain ⟨t', c, hconcat⟩ := (List.eq_nil_or_concat s).resolve_left hs.ne_nil
  have hc : ¬ isBlank c = true := by simpa using hs.last c (by rw [hconcat]; simp)
  have hfront : (u ++ s ++ v).dropWhile isBlank = s ++ v := by
    rw [List.append_assoc, List.dropWhile_append_of_pos hu, hcons, List.cons_append,
      List.dropWhile_cons_of_neg hb]
  have hback : (s ++ v).reverse.dropWhile isBlank = s.reverse := by
    rw [List.reverse_append, List.dropWhile_append_of_pos (by simpa using hv), hconcat]
    simp [hc]
  rw [trimBlanks, hfront, hback, List.reverse_reverse]

/-- A text without blanks at its ends stays as it is when they are trimmed. -/
theorem Trimmed.trimBlanks_self {s : Bytes} (hs : Trimmed s) : trimBlanks s = s := by
  simpa using hs.trimBlanks_eq (u := []) (v := []) (by simp) (by simp)

/-! ## Words -/

/-- The bytes that keys are made of, and numbers as well. -/
def isWordByte (b : UInt8) : Bool := isAlphanumeric b || b == underscore || b == minus || b == dot

/-- A text of word bytes. -/
def IsWord (s : Bytes) : Prop := s ≠ [] ∧ ∀ b ∈ s, isWordByte b = true

namespace IsWord

variable {s : Bytes}

/-- A key is one word. -/
theorem of_isKey (h : isKey s = true) : IsWord s := by
  simp only [isKey, Bool.and_eq_true, Bool.not_eq_true', List.isEmpty_eq_false_iff] at h
  exact ⟨h.1.1.1, List.all_eq_true.mp h.2⟩

/-- A number with its sign is one word. -/
theorem signedDecimal (n : Int) : IsWord (signedDecimal n) := by
  refine ⟨?_, fun b hb => ?_⟩
  · rw [SignatureLedger.signedDecimal]
    split
    · exact List.cons_ne_nil _ _
    · exact decimal_ne_nil _
  · rcases Ledger.isDigit_or_minus_of_mem_signedDecimal hb with hdigit | rfl
    · simp [isWordByte, isAlphanumeric, hdigit]
    · rfl

/-- No byte that means something in a line is in a word. -/
theorem not_mem (h : IsWord s) {c : UInt8} (hc : isWordByte c = false) : c ∉ s := by
  intro hmem
  rw [h.2 c hmem] at hc
  exact absurd hc (by decide)

/-- A word has no blanks at its ends. -/
theorem trimmed (h : IsWord s) : Trimmed s := by
  have hblank : ∀ b ∈ s, isBlank b = false := by
    intro b hb
    have hword := h.2 b hb
    rw [isBlank, Bool.eq_false_iff]
    intro hor
    simp only [Bool.or_eq_true, decide_eq_true_eq] at hor
    rcases hor with ((rfl | rfl) | rfl) | rfl
    all_goals exact absurd hword (by decide)
  exact ⟨h.1, fun b hb => hblank b (List.mem_of_mem_head? hb),
    fun b hb => hblank b (List.mem_of_mem_getLast? hb)⟩

/-- A word is crossed outside quotes. -/
theorem crosses (h : IsWord s) : Crosses .outside .outside s := by
  refine .outside fun b hb => ⟨?_, ?_, ?_⟩
  all_goals
    rintro rfl
    exact h.not_mem (by decide) hb

end IsWord

/-! ## Values in a line -/

/-- A quoted text has no blanks at its ends. -/
theorem trimmed_quote (s : Bytes) : Trimmed (quote s) where
  ne_nil := List.cons_ne_nil _ _
  head b hb := by
    obtain rfl : doubleQuote = b := Option.some.inj hb
    decide
  last b hb := by
    rw [quote, List.getLast?_concat] at hb
    obtain rfl := Option.some.inj hb
    decide

/-- The text of a value has no blanks at its ends. -/
theorem Value.trimmed_render (v : Value) : Trimmed v.render := by
  cases v with
  | text s => exact trimmed_quote s
  | number n => exact (IsWord.signedDecimal n.toInt).trimmed

/-- The text of a value is crossed outside quotes. -/
theorem Value.crosses_render (v : Value) : Crosses .outside .outside v.render := by
  cases v with
  | text s => exact .quote s
  | number n => exact (IsWord.signedDecimal n.toInt).crosses

/-- A value stands in one line. -/
theorem Value.lineFeed_not_mem_render (v : Value) : lineFeed ∉ v.render := by
  cases v with
  | text s =>
    intro hmem
    rcases List.mem_append.mp hmem with hmem | hmem
    · rcases List.mem_cons.mp hmem with h | hmem
      · exact absurd h (by decide)
      · exact not_lt_space_of_mem_escape hmem (by decide)
    · exact absurd (List.mem_singleton.mp hmem) (by decide)
  | number n => exact (IsWord.signedDecimal n.toInt).not_mem (by decide)

/-! ## What lines say -/

/-- The line that says something; the empty line says nothing. -/
def lineOf : Option Statement → Bytes
  | none => []
  | some (.heading name) => openBracket :: name ++ [closeBracket]
  | some (.entry name v) => name ++ bytes " = " ++ v.render

/-- The key that a statement starts with, or that it is. -/
def Statement.key : Statement → Bytes
  | heading name => name
  | entry name _ => name

/-- What is said is said in one line. -/
theorem lineFeed_not_mem_lineOf {o : Option Statement} (h : ∀ st ∈ o, isKey st.key = true) :
    lineFeed ∉ lineOf o := by
  match o with
  | none => exact List.not_mem_nil
  | some (.heading name) =>
    have hname : lineFeed ∉ name := (IsWord.of_isKey (h _ rfl)).not_mem (by decide)
    intro hmem
    rcases List.mem_append.mp hmem with hmem | hmem
    · exact hname ((List.mem_cons.mp hmem).resolve_left (by decide))
    · exact absurd (List.mem_singleton.mp hmem) (by decide)
  | some (.entry name v) =>
    have hname : lineFeed ∉ name := (IsWord.of_isKey (h _ rfl)).not_mem (by decide)
    have hmiddle : lineFeed ∉ bytes " = " := by decide
    simpa [lineOf, not_or, and_assoc] using ⟨hname, hmiddle, v.lineFeed_not_mem_render⟩

/-- The line says what it was written for. -/
def Says (o : Option Statement) : Prop := readLine (lineContent (lineOf o)) = .ok o

theorem says_none : Says none := rfl

/-- A heading with a key says that heading. -/
theorem says_heading {name : Bytes} (h : isKey name = true) : Says (some (.heading name)) := by
  have hcross : Crosses .outside .outside (openBracket :: name ++ [closeBracket]) :=
    ((Crosses.other (b := openBracket) (by decide)).append (IsWord.of_isKey h).crosses).append
      (.other (by decide))
  have htrim : Trimmed (openBracket :: name ++ [closeBracket]) := by
    refine ⟨List.cons_ne_nil _ _, fun b hb => ?_, fun b hb => ?_⟩
    · obtain rfl : openBracket = b := Option.some.inj hb
      decide
    · rw [List.getLast?_concat] at hb
      obtain rfl := Option.some.inj hb
      decide
  rw [Says, lineOf, lineContent, hcross.dropComment_eq, htrim.trimBlanks_self, List.cons_append,
    readLine, if_pos rfl, readHeading, List.getLast?_concat, if_neg (by simp)]
  dsimp only
  rw [List.dropLast_concat, (IsWord.of_isKey h).trimmed.trimBlanks_self, if_pos h]
  rfl

/-- The sign between key and value is crossed outside quotes. -/
theorem crosses_equals : Crosses .outside .outside (bytes " = ") :=
  ((Crosses.other (b := space) (by decide)).append (.other (b := equals) (by decide))).append
    (.other (b := space) (by decide))

/-- Behind the first equals sign stands the value, and blanks may stand around the two. -/
theorem readEntry_append {name c u₁ u₂ : Bytes} (h : isKey name = true)
    (hu₁ : ∀ b ∈ u₁, isBlank b = true) (hu₂ : ∀ b ∈ u₂, isBlank b = true) (hc : Trimmed c) :
    readEntry (name ++ u₁ ++ equals :: (u₂ ++ c)) =
      match readValue c with
      | .ok w => .ok (.entry name w)
      | .error fault => .error (.value fault) := by
  have hword := IsWord.of_isKey h
  have hequals : equals ∉ name ++ u₁ := by
    intro hmem
    rcases List.mem_append.mp hmem with hmem | hmem
    · exact hword.not_mem (by decide) hmem
    · exact absurd (hu₁ _ hmem) (by decide)
  have hname : trimBlanks (name ++ u₁) = name := by
    simpa using hword.trimmed.trimBlanks_eq (u := []) (by simp) hu₁
  have hvalue : trimBlanks (u₂ ++ c) = c := by
    simpa using hc.trimBlanks_eq (v := []) hu₂ (by simp)
  have hdrop : ((name ++ u₁) ++ equals :: (u₂ ++ c)).drop ((name ++ u₁).length + 1) = u₂ ++ c :=
    List.drop_length_add_append 1
  rw [readEntry, Ledger.takeWhile_ne_append_cons hequals]
  dsimp only
  rw [if_neg (by simp), hdrop, hname, hvalue, h]
  rfl

/-- The line of a key and a rendered value is an entry with the value that this text is read as. -/
theorem readEntry_eq {name : Bytes} (h : isKey name = true) (v : Value) :
    readEntry (name ++ bytes " = " ++ v.render) =
      match readValue v.render with
      | .ok w => .ok (.entry name w)
      | .error fault => .error (.value fault) := by
  have hsplit : name ++ bytes " = " ++ v.render =
      name ++ [space] ++ equals :: ([space] ++ v.render) := by
    rw [List.append_assoc, List.append_assoc]
    rfl
  have hblank : ∀ b ∈ [space], isBlank b = true := List.forall_mem_singleton.mpr rfl
  rw [hsplit, readEntry_append h hblank hblank v.trimmed_render]

/-- A line with a key says what its value is read as. There is no comment on the line, and nothing
around it to be trimmed. -/
theorem readLine_lineOf_entry {name : Bytes} (h : isKey name = true) (v : Value) :
    readLine (lineContent (lineOf (some (.entry name v)))) =
      match readValue v.render with
      | .ok w => .ok (some (.entry name w))
      | .error fault => .error (.value fault) := by
  have hword := IsWord.of_isKey h
  have hcross : Crosses .outside .outside (name ++ bytes " = " ++ v.render) :=
    (hword.crosses.append crosses_equals).append v.crosses_render
  have htrim : Trimmed (name ++ bytes " = " ++ v.render) := by
    refine ⟨by simp [hword.1], fun b hb => ?_, fun b hb => ?_⟩
    · rw [List.append_assoc, List.head?_append_of_ne_nil _ hword.1] at hb
      exact hword.trimmed.head b hb
    · rw [List.getLast?_append_of_ne_nil _ v.trimmed_render.ne_nil] at hb
      exact v.trimmed_render.last b hb
  have hread := readEntry_eq h v
  rw [lineOf, lineContent, hcross.dropComment_eq, htrim.trimBlanks_self]
  obtain ⟨b, s, hcons⟩ := List.exists_cons_of_ne_nil hword.1
  have hbracket : b ≠ openBracket := by
    rintro rfl
    exact hword.not_mem (by decide) (hcons ▸ List.mem_cons_self)
  rw [hcons, List.cons_append, List.cons_append] at hread ⊢
  rw [readLine, if_neg hbracket, hread]
  cases readValue v.render <;> rfl

/-! ## Texts -/

/-- What a line that says something changes. -/
def Reading.add (r : Reading) (number : Nat) : Option Statement → Reading
  | none => r
  | some (.heading name) => { r with heading := name }
  | some (.entry name v) =>
    let key := fullKey r.heading name
    let warnings := if r.values.contains key then r.warnings ++ [⟨number, key⟩] else r.warnings
    { r with values := r.values.insert key v, warnings }

/-- What lines that say something change, one after the other. -/
def Reading.follow (r : Reading) (number : Nat) : List (Option Statement) → Reading
  | [] => r
  | o :: os => (r.add number o).follow (number + 1) os

/-- A statement that is known adds no error. -/
theorem Reading.error?_add {r : Reading} (hr : r.error? = none) (number : Nat)
    (o : Option Statement) : (r.add number o).error? = none := by
  cases o with
  | none => exact hr
  | some o => cases o <;> exact hr

/-- A line that says a statement adds that statement. -/
theorem Reading.addLine_of_says {o : Option Statement} (h : Says o) (r : Reading) (number : Nat) :
    r.addLine number (lineOf o) = r.add number o := by
  rw [Reading.addLine, h]
  cases o with
  | none => rfl
  | some o => cases o <;> rfl

/-- Lines that say what they were written for are followed to the end. -/
theorem Reading.addLines_eq_follow {os : List (Option Statement)} (h : ∀ o ∈ os, Says o)
    {r : Reading} (hr : r.error? = none) (number : Nat) :
    r.addLines number (os.map lineOf) = r.follow number os ∧
      (r.follow number os).error? = none := by
  induction os generalizing r number with
  | nil => exact ⟨rfl, hr⟩
  | cons o os ih =>
    obtain ⟨ho, hos⟩ := List.forall_mem_cons.mp h
    have hnext := Reading.error?_add hr number o
    rw [List.map_cons, Reading.addLines, Reading.addLine_of_says ho, hnext]
    exact ih hos hnext (number + 1)

/-- A text without a fault has no line with one. -/
theorem Reading.exists_readLine_of_mem {r : Reading} {number : Nat} {lines : List Bytes}
    (h : (r.addLines number lines).error? = none) {line : Bytes} (hline : line ∈ lines) :
    ∃ o, readLine (lineContent line) = .ok o := by
  induction lines generalizing r number with
  | nil => exact absurd hline (by simp)
  | cons first lines ih =>
    rw [Reading.addLines] at h
    cases hnext : (r.addLine number first).error? with
    | some e =>
      rw [hnext, Option.isSome_some, if_pos rfl, hnext] at h
      exact absurd h (by simp)
    | none =>
      rw [hnext, Option.isSome_none, if_neg Bool.false_ne_true] at h
      rcases List.mem_cons.mp hline with rfl | hline
      · cases hread : readLine (lineContent line) with
        | ok o => exact ⟨o, rfl⟩
        | error fault =>
          rw [Reading.addLine, hread] at hnext
          exact absurd hnext (by simp)
      · exact ih h hline

/-- Lines with a line feed behind each are split again. -/
theorem splitOn_lines {lines : List Bytes} (h : ∀ line ∈ lines, lineFeed ∉ line) :
    Bytes.splitOn lineFeed (lines.flatMap (· ++ [lineFeed])) = lines ++ [[]] := by
  induction lines with
  | nil => rfl
  | cons line lines ih =>
    obtain ⟨hline, hlines⟩ := List.forall_mem_cons.mp h
    rw [List.flatMap_cons, List.append_assoc, List.singleton_append,
      Bytes.splitOn_append_cons hline, ih hlines, List.cons_append]

/-- **A written text is read by following what its lines say.** -/
theorem parse_lines {os : List (Option Statement)} (h : ∀ o ∈ os, Says o)
    (hline : ∀ o ∈ os, lineFeed ∉ lineOf o) :
    parse ((os.map lineOf).flatMap (· ++ [lineFeed])) = ({} : Reading).follow 1 (os ++ [none]) ∧
      (({} : Reading).follow 1 (os ++ [none])).error? = none := by
  have hsays : ∀ o ∈ os ++ [none], Says o := by
    intro o ho
    rcases List.mem_append.mp ho with ho | ho
    · exact h o ho
    · rw [List.mem_singleton.mp ho]
      exact says_none
  have hlines : os.map lineOf ++ [[]] = (os ++ [none]).map lineOf := by rw [List.map_append]; rfl
  rw [parse, splitOn_lines (by simpa using hline), hlines]
  exact Reading.addLines_eq_follow hsays rfl 1

/-- A section is written line by line. -/
theorem renderSection_eq {heading : Bytes} (h : heading ≠ []) (values : Values) :
    renderSection heading values =
      ((some (.heading heading) :: values.toList.map fun e => some (.entry e.1 e.2)).map
        lineOf).flatMap (· ++ [lineFeed]) := by
  rw [renderSection, List.isEmpty_eq_false_iff.mpr h, List.map_cons, List.flatMap_cons,
    List.map_map, List.flatMap_map, if_neg Bool.false_ne_true]
  simp only [lineOf, Function.comp_def, List.cons_append, List.append_assoc, List.nil_append]
  rfl

/-! ## Settings -/

namespace Settings

variable (s : Settings)

/-- What the lines of written settings say. -/
def statements : List (Option Statement) := [
  some (.heading (bytes "diag")),
  some (.entry (bytes "context") (.number s.context)),
  some (.entry (bytes "lang") (.text s.language)),
  some (.entry (bytes "max_errors") (.number s.maxErrors)),
  none,
  some (.heading (bytes "extract")),
  some (.entry (bytes "jobs") (.number s.jobs)),
  some (.entry (bytes "variable_policy") (.text s.policy)),
  none,
  some (.heading (bytes "ledger")),
  some (.entry (bytes "path") (.text s.ledger))]

/-- The rendered sections are the lines of the statements. -/
theorem renderSections_toValues :
    renderSections s.toValues = (s.statements.map lineOf).flatMap (· ++ [lineFeed]) := by
  have hsections : (bySection s.toValues).toList = [
      (bytes "diag", .ofList [(bytes "context", .number s.context),
        (bytes "lang", .text s.language), (bytes "max_errors", .number s.maxErrors)]),
      (bytes "extract", .ofList [(bytes "jobs", .number s.jobs),
        (bytes "variable_policy", .text s.policy)]),
      (bytes "ledger", .ofList [(bytes "path", .text s.ledger)])] := rfl
  have hstatements : s.statements = s.statements.take 4 ++
      none :: ((s.statements.drop 5).take 3 ++ none :: s.statements.drop 9) := rfl
  have hempty : lineOf none ++ [lineFeed] = bytes "\n" := rfl
  rw [renderSections, hsections, hstatements]
  simp only [List.map_cons, List.map_nil, Bytes.join, List.map_append, List.flatMap_append,
    List.flatMap_cons, hempty, renderSection_eq (show bytes "diag" ≠ [] by decide),
    renderSection_eq (show bytes "extract" ≠ [] by decide),
    renderSection_eq (show bytes "ledger" ≠ [] by decide)]
  simp only [List.append_assoc]
  rfl

/-- Every statement names a key. -/
theorem isKey_statements : ∀ o ∈ s.statements, ∀ st ∈ o, isKey st.key = true := by
  have hall : (s.statements.all fun o => o.all fun st => isKey st.key) = true := rfl
  intro o ho st hst
  have ho := List.all_eq_true.mp hall o ho
  rw [Option.mem_def.mp hst] at ho
  exact ho

/-- Following the lines of written settings gives the settings again. -/
theorem follow_statements :
    (({} : Reading).follow 1 (s.statements ++ [none])).values = s.toValues ∧
      (({} : Reading).follow 1 (s.statements ++ [none])).warnings = [] := ⟨rfl, rfl⟩

/-- The choice of a number keeps to its bound, since the default does. -/
theorem le_atLeast {smallest default : Int64} (h : smallest ≤ default) (n : Int64) :
    smallest ≤ atLeast smallest default n := by
  rw [atLeast]
  split
  · exact h
  · rename_i hn
    exact Int64.not_lt.mp hn

/-- No number that is chosen is negative. -/
theorem zero_le_choose (env : Environment) (values : Values) :
    0 ≤ (choose env values).context.toInt ∧ 0 ≤ (choose env values).maxErrors.toInt ∧
      0 ≤ (choose env values).jobs.toInt := by
  have hmax := Int64.le_iff_toInt_le.mp
    (le_atLeast (by decide : (1 : Int64) ≤ 64) ((numberAt? values .maxErrors).getD 64))
  refine ⟨Int64.le_iff_toInt_le.mp (le_atLeast (by decide) _), ?_,
    Int64.le_iff_toInt_le.mp (le_atLeast (by decide) _)⟩
  exact Int.le_trans (by decide) hmax

/-- A name that is found among some is one of them. -/
theorem nameAmong?_mem {names : List Bytes} {s name : Bytes} (h : nameAmong? names s = some name) :
    name ∈ names := List.mem_of_find?_eq_some h

/-- The policy that is chosen has one of the names of policies. -/
theorem policy_choose_mem (env : Environment) (values : Values) :
    (choose env values).policy ∈ policyNames := by
  have hdefault : bytes VariablePolicy.exportOnly.name ∈ policyNames := by decide
  rw [choose, choosePolicy]
  dsimp only
  split
  · rename_i name hname
    exact nameAmong?_mem hname
  · exact hdefault

/-- What stands for a language is one of the names of languages. -/
theorem languageName_mem (s : Bytes) : languageName s ∈ languageNames := by
  rw [languageName]
  cases h : nameAmong? languageNames s with
  | none => exact (by decide : bytes "auto" ∈ languageNames)
  | some name => exact nameAmong?_mem h

end Settings

/-- An entry with a number that is not negative is said by its line. -/
theorem says_entry_number {name : Bytes} (h : isKey name = true) {n : Int64} (hn : 0 ≤ n.toInt) :
    Says (some (.entry name (.number n))) := by
  rw [Says, readLine_lineOf_entry h, Value.render, readValue_signedDecimal hn]

/-- An entry with a text of named bytes is said by its line. -/
theorem says_entry_text {name : Bytes} (h : isKey name = true) {t : Bytes}
    (ht : ∀ b ∈ t, IsNamed b) : Says (some (.entry name (.text t))) := by
  rw [Says, readLine_lineOf_entry h, Value.render, readValue_quote ht]

/-- The names of policies and languages have no control bytes. -/
theorem isNamed_of_mem_names {name : Bytes} (h : name ∈ policyNames ++ languageNames) :
    ∀ b ∈ name, IsNamed b := by
  have hall : (policyNames ++ languageNames).all (·.all (IsNamed ·)) = true := by decide
  have hname := List.all_eq_true.mp hall name h
  simpa using hname

/-- Written with headings, the values are read back as they are and without a remark. -/
def ReadsBack (values : Values) : Prop :=
  (parse (renderSections values)).error? = none ∧ (parse (renderSections values)).warnings = [] ∧
    (parse (renderSections values)).values = values

/-- **Settings are read back exactly if the path of the ledger can be.** Of the settings that a
configuration and an environment come to, only the path of the ledger can be lost: that is when it
has a control byte other than a tab, a line feed and a carriage return, which is written by its
number. -/
theorem readsBack_choose_iff (env : Environment) (values : Values) :
    ReadsBack (Settings.choose env values).toValues ↔
      ∀ b ∈ (Settings.choose env values).ledger, IsNamed b := by
  obtain ⟨hcontext, hmax, hjobs⟩ := Settings.zero_le_choose env values
  have hpolicy := isNamed_of_mem_names
    (List.mem_append_left languageNames (Settings.policy_choose_mem env values))
  have hlanguage : ∀ b ∈ (Settings.choose env values).language, IsNamed b :=
    isNamed_of_mem_names (List.mem_append_right policyNames (Settings.languageName_mem _))
  generalize Settings.choose env values = s at hcontext hmax hjobs hpolicy hlanguage ⊢
  have hline : ∀ o ∈ s.statements, lineFeed ∉ lineOf o :=
    fun o ho => lineFeed_not_mem_lineOf (s.isKey_statements o ho)
  constructor
  · rintro ⟨herror, -, -⟩
    rw [Settings.renderSections_toValues, parse, splitOn_lines (by simpa using hline)] at herror
    have hmem : lineOf (some (.entry (bytes "path") (.text s.ledger))) ∈
        s.statements.map lineOf ++ [[]] :=
      List.mem_append_left _ (List.mem_map_of_mem (by simp [Settings.statements]))
    obtain ⟨o, ho⟩ := Reading.exists_readLine_of_mem herror hmem
    rw [readLine_lineOf_entry (by decide), Value.render] at ho
    cases hread : readValue (quote s.ledger) with
    | ok v => exact isNamed_of_readValue_quote hread
    | error fault =>
      rw [hread] at ho
      exact absurd ho (by simp)
  · intro hledger
    have hsays : ∀ o ∈ s.statements, Says o := by
      simp only [Settings.statements, List.forall_mem_cons]
      exact ⟨says_heading (by decide), says_entry_number (by decide) hcontext,
        says_entry_text (by decide) hlanguage, says_entry_number (by decide) hmax,
        says_none, says_heading (by decide), says_entry_number (by decide) hjobs,
        says_entry_text (by decide) hpolicy, says_none, says_heading (by decide),
        says_entry_text (by decide) hledger, List.forall_mem_nil _⟩
    obtain ⟨hparse, herror⟩ := parse_lines hsays hline
    rw [ReadsBack, Settings.renderSections_toValues, hparse]
    exact ⟨herror, s.follow_statements.2, s.follow_statements.1⟩

/-- A configuration whose path of the ledger is one control byte, between single quotes. -/
def controlText : Bytes := bytes "[ledger]\npath = '\x01'\n"

/-- What a configuration accepts between single quotes need not be read back: the byte is written
by its number, and the reader knows no such escape. -/
theorem not_readsBack_control :
    (parse controlText).error? = none ∧
      ¬ ReadsBack (Settings.choose ByteMap.empty (parse controlText).values).toValues := by
  refine ⟨by decide +kernel, fun h => ?_⟩
  have herror := h.1
  revert herror
  decide +kernel

end SignatureLedger.Config
