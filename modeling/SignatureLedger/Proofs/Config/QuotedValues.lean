import SignatureLedger.Proofs.Config.ReadBack

/-!
# Quoted values

A quoted value is looked at three times: once for the end of its comment, once for its first and its
last byte, and once for its escapes. Each look has its own idea of where the string ends. The first
one agrees with the grammar (`isString_iff`), so the value that is left is a string of the grammar
exactly if the line has one there and nothing else behind it but a comment. The other two do not
notice a quote that ends the string early, so that a value of several strings is taken for one
(`parse_quotedLine`, `accepts_adjacent`).
-/

namespace SignatureLedger.Config

open Byte

/-! ## Strings -/

/-- The bytes that may stand behind a backslash, with what they stand for there. -/
inductive Escape : UInt8 → UInt8 → Prop
  | lineFeed : Escape 0x6E lineFeed
  | carriageReturn : Escape 0x72 carriageReturn
  | tab : Escape 0x74 tab
  | doubleQuote : Escape doubleQuote doubleQuote
  | backslash : Escape backslash backslash

/-- What may stand between double quotes, with the text that it stands for. -/
inductive Content (plain : UInt8 → Prop) : Bytes → Bytes → Prop
  | nil : Content plain [] []
  | plain {b : UInt8} {s t : Bytes} (hslash : b ≠ backslash) (hb : plain b)
    (h : Content plain s t) : Content plain (b :: s) (b :: t)
  | escape {b e : UInt8} {s t : Bytes} (he : Escape b e) (h : Content plain s t) :
    Content plain (backslash :: b :: s) (e :: t)

/-- A literal or a basic string, with the text that it stands for; `plain q` are the bytes that may
stand by themselves between two quotes `q`. -/
inductive Quoted (plain : UInt8 → UInt8 → Prop) : Bytes → Bytes → Prop
  | literal {s : Bytes} (h : ∀ b ∈ s, plain singleQuote b) :
    Quoted plain (singleQuote :: s ++ [singleQuote]) s
  | basic {s t : Bytes} (h : Content (plain doubleQuote) s t) :
    Quoted plain (doubleQuote :: s ++ [doubleQuote]) t

/-- Strings as they are documented: the first quote that is not escaped ends them. -/
abbrev Closed : Bytes → Bytes → Prop := Quoted fun q b => b ≠ q

/-- Strings as the reader takes them: quotes may stand inside. -/
abbrev Lenient : Bytes → Bytes → Prop := Quoted fun _ _ => True

/-- Blanks and a comment. -/
def IsRest (w : Bytes) : Prop :=
  ∃ u r, w = u ++ r ∧ (∀ b ∈ u, isBlank b = true) ∧ (r = [] ∨ r.head? = some hash)

/-- One string and nothing else but a comment. -/
def IsString (v t : Bytes) : Prop := ∃ c w, v = c ++ w ∧ Closed c t ∧ IsRest w

/-- A content of bytes of one kind is one of any wider kind. -/
theorem Content.mono {p q : UInt8 → Prop} {s t : Bytes} (hpq : ∀ b, p b → q b) (h : Content p s t) :
    Content q s t := by
  induction h with
  | nil => exact .nil
  | plain hslash hb _ ih => exact .plain hslash (hpq _ hb) ih
  | escape he _ ih => exact .escape he ih

/-- The reader takes all documented strings for what they are. -/
theorem Quoted.lenient {plain : UInt8 → UInt8 → Prop} {c t : Bytes} (h : Quoted plain c t) :
    Lenient c t := by
  cases h with
  | literal _ => exact .literal fun _ _ => trivial
  | basic h => exact .basic (h.mono fun _ _ => trivial)

/-- The escapes that are read are the ones of the grammar. -/
theorem escaped?_eq_some_iff {b e : UInt8} : escaped? b = some e ↔ Escape b e := by
  constructor
  · intro h
    unfold escaped? at h
    split_ifs at h with hn hr ht hself
    all_goals obtain rfl := Option.some.inj h
    · exact hn ▸ .lineFeed
    · exact hr ▸ .carriageReturn
    · exact ht ▸ .tab
    · rcases hself with rfl | rfl
      · exact .doubleQuote
      · exact .backslash
  · intro h
    cases h <;> rfl

/-- The contents that are read are those whose escapes are known. By induction on the reader's own
recursion one way, and on the content the other way. -/
theorem unescape_eq_ok_iff {s t : Bytes} : unescape s = .ok t ↔ Content (fun _ => True) s t := by
  constructor
  · intro h
    induction s using unescape.induct generalizing t with
    | case1 =>
      obtain rfl := Except.ok.inj h
      exact .nil
    | case2 b s hb ih =>
      rw [unescape_cons_of_ne hb] at h
      obtain ⟨t', ht', rfl⟩ := map_eq_ok_iff.mp h
      exact .plain hb trivial (ih ht')
    | case3 b hb =>
      rw [unescape, if_neg hb] at h
      exact absurd h (by simp)
    | case4 b hb c s e he ih =>
      obtain rfl := not_not.mp hb
      rw [unescape_escaped he] at h
      obtain ⟨t', ht', rfl⟩ := map_eq_ok_iff.mp h
      exact .escape (escaped?_eq_some_iff.mp he) (ih ht')
    | case5 b hb c s he =>
      rw [unescape, if_neg hb, he] at h
      exact absurd h (by simp)
  · intro h
    induction h with
    | nil => rfl
    | plain hslash _ _ ih =>
      rw [unescape_cons_of_ne hslash, ih]
      rfl
    | escape he _ ih =>
      rw [unescape_escaped (escaped?_eq_some_iff.mpr he), ih]
      rfl

/-- A text is quoted exactly if it starts and ends with one of the quotes. -/
theorem quoteOf?_eq_some_iff {c : Bytes} {q : UInt8} :
    quoteOf? c = some q ↔ (q = doubleQuote ∨ q = singleQuote) ∧ ∃ s, c = q :: s ++ [q] := by
  constructor
  · intro h
    cases c with
    | nil => exact absurd h (by simp [quoteOf?])
    | cons b c =>
      rw [quoteOf?] at h
      split at h
      · rename_i hb
        obtain rfl := Option.some.inj h
        obtain ⟨s, hs⟩ := List.getLast?_eq_some_iff.mp hb.2
        exact ⟨hb.1, s, by rw [hs, List.cons_append]⟩
      · exact absurd h (by simp)
  · rintro ⟨hq, s, rfl⟩
    rw [List.cons_append, quoteOf?, List.getLast?_concat, if_pos ⟨hq, rfl⟩]

/-- A text that starts with a quote. -/
def StartsQuoted (v : Bytes) : Prop := ∃ q ∈ v.head?, q = doubleQuote ∨ q = singleQuote

/-- A quote starts no number. -/
theorem integer?_quote {q : UInt8} (hq : q = doubleQuote ∨ q = singleQuote) (s : Bytes) :
    integer? (q :: s) = none := by
  rcases hq with rfl | rfl <;> rfl

/-- A quoted text is read as it is between single quotes, and unescaped between double quotes. -/
theorem readValue_quoted {q : UInt8} (hq : q = doubleQuote ∨ q = singleQuote) (s : Bytes) :
    readValue (q :: s ++ [q]) =
      if q = singleQuote then .ok (.text s) else (unescape s).map .text := by
  have hquote : quoteOf? (q :: s ++ [q]) = some q := quoteOf?_eq_some_iff.mpr ⟨hq, s, rfl⟩
  have hnumber : integer? (q :: s ++ [q]) = none := integer?_quote hq (s ++ [q])
  have hinner : (q :: s ++ [q]).tail.dropLast = s := List.dropLast_concat
  rw [readValue, hnumber, hquote, hinner]
  rfl

/-- What starts with a quote is read as a text or not at all, and as a text exactly if it is a
string as the reader takes them. -/
theorem readValue_eq_ok_iff {c : Bytes} (hhead : StartsQuoted c) {v : Value} :
    readValue c = .ok v ↔ ∃ t, v = .text t ∧ Lenient c t := by
  constructor
  · intro h
    obtain ⟨q, hc, hq⟩ := hhead
    obtain ⟨s, rfl⟩ := List.head?_eq_some_iff.mp hc
    cases hquote : quoteOf? (q :: s) with
    | none =>
      rw [readValue, integer?_quote hq, hquote, if_neg (by simp)] at h
      exact absurd h (by simp)
    | some q' =>
      obtain ⟨hq', s', hs'⟩ := quoteOf?_eq_some_iff.mp hquote
      rw [hs'] at h ⊢
      rw [readValue_quoted hq'] at h
      split at h
      · rename_i hsingle
        subst hsingle
        exact ⟨s', (Except.ok.inj h).symm, .literal fun _ _ => trivial⟩
      · rename_i hsingle
        obtain rfl := hq'.resolve_right hsingle
        obtain ⟨t, ht, rfl⟩ := map_eq_ok_iff.mp h
        exact ⟨t, rfl, .basic (unescape_eq_ok_iff.mp ht)⟩
  · rintro ⟨t, rfl, h⟩
    cases h with
    | literal _ =>
      rw [readValue_quoted (.inr rfl), if_pos rfl]
    | basic h =>
      rw [readValue_quoted (.inl rfl), if_neg (by decide), unescape_eq_ok_iff.mpr h]
      rfl

/-! ## Comments -/

/-- What is dropped is a comment. -/
theorem exists_dropComment (st : QuoteState) (s : Bytes) :
    ∃ r, s = dropComment st s ++ r ∧ (r = [] ∨ r.head? = some hash) := by
  induction s generalizing st with
  | nil => exact ⟨[], rfl, .inl rfl⟩
  | cons b s ih =>
    rw [dropComment]
    split
    · rename_i hb
      exact ⟨b :: s, rfl, .inr (congrArg some hb.2)⟩
    · obtain ⟨r, hs, hr⟩ := ih (st.next b)
      exact ⟨r, by rw [List.cons_append, ← hs], hr⟩

/-- Outside quotes a comment takes the rest of the line. -/
theorem dropComment_outside_rest {r : Bytes} (h : r = [] ∨ r.head? = some hash) :
    dropComment .outside r = [] := by
  rcases h with rfl | h
  · rfl
  · obtain ⟨s, rfl⟩ := List.head?_eq_some_iff.mp h
    exact if_pos ⟨rfl, rfl⟩

/-- Blanks are crossed outside quotes. -/
theorem Crosses.blanks {u : Bytes} (h : ∀ b ∈ u, isBlank b = true) :
    Crosses .outside .outside u := by
  refine .outside fun b hb => ?_
  refine ⟨?_, ?_, ?_⟩
  all_goals
    rintro rfl
    exact absurd (h _ hb) (by decide)

/-- Between single quotes any byte but a quote is passed over. -/
theorem Crosses.literal {s : Bytes} (h : ∀ b ∈ s, b ≠ singleQuote) :
    Crosses (.within singleQuote) (.within singleQuote) s := by
  induction s with
  | nil => exact .nil _
  | cons b s ih =>
    obtain ⟨hb, hs⟩ := List.forall_mem_cons.mp h
    refine .cons (by simp) ?_
    rw [QuoteState.next, if_neg (fun h => absurd h.1 (by decide)), if_neg hb]
    exact ih hs

/-- A content without its own quote is crossed within the quotes. -/
theorem Crosses.content {s t : Bytes} (h : Content (· ≠ doubleQuote) s t) :
    Crosses (.within doubleQuote) (.within doubleQuote) s := by
  induction h with
  | nil => exact .nil _
  | plain hslash hb _ ih => exact .within_cons hb hslash ih
  | escape _ _ ih => exact .within_escape ih

/-- The look for a comment finds the end of a documented string. -/
theorem Quoted.crosses {c t : Bytes} (h : Closed c t) : Crosses .outside .outside c := by
  cases h with
  | literal h =>
    have hclose : Crosses (.within singleQuote) .outside [singleQuote] := .cons (by simp) (.nil _)
    exact .cons (by decide) ((Crosses.literal h).append hclose)
  | basic h =>
    have hclose : Crosses (.within doubleQuote) .outside [doubleQuote] := .cons (by simp) (.nil _)
    exact .cons (by decide) ((Crosses.content h).append hclose)

/-- A quoted text has no blanks at its ends. -/
theorem Quoted.trimmed {plain : UInt8 → UInt8 → Prop} {c t : Bytes} (h : Quoted plain c t) :
    Trimmed c := by
  have hquotes : ∀ {q : UInt8} (s : Bytes), isBlank q = false → Trimmed (q :: s ++ [q]) := by
    intro q s hq
    refine ⟨List.cons_ne_nil _ _, fun b hb => ?_, fun b hb => ?_⟩
    · obtain rfl : q = b := Option.some.inj hb
      exact hq
    · rw [List.getLast?_concat] at hb
      obtain rfl := Option.some.inj hb
      exact hq
  cases h with
  | literal _ => exact hquotes _ (by decide)
  | basic _ => exact hquotes _ (by decide)

/-- What starts without a blank is trimmed at its end only. Something is left, since its first byte
is no blank. -/
theorem exists_trimBlanks {x : Bytes} (hx : x ≠ []) (hhead : ∀ b ∈ x.head?, isBlank b = false) :
    Trimmed (trimBlanks x) ∧ ∃ u, x = trimBlanks x ++ u ∧ ∀ b ∈ u, isBlank b = true := by
  have hfront : x.dropWhile isBlank = x := by
    obtain ⟨b, s, rfl⟩ := List.exists_cons_of_ne_nil hx
    exact List.dropWhile_cons_of_neg (by simp [hhead b rfl])
  have hblank : ∀ b ∈ (x.reverse.takeWhile isBlank).reverse, isBlank b = true :=
    fun b hb => List.mem_takeWhile_imp (List.mem_reverse.mp hb)
  have hsplit : x = trimBlanks x ++ (x.reverse.takeWhile isBlank).reverse := by
    rw [trimBlanks, hfront, ← List.reverse_append, List.takeWhile_append_dropWhile,
      List.reverse_reverse]
  have hne : trimBlanks x ≠ [] := by
    intro hnil
    rw [hnil, List.nil_append] at hsplit
    obtain ⟨b, s, hcons⟩ := List.exists_cons_of_ne_nil hx
    have hb := hblank b (hsplit ▸ hcons ▸ List.mem_cons_self)
    rw [hhead b (by rw [hcons]; rfl)] at hb
    exact absurd hb (by decide)
  refine ⟨⟨hne, fun b hb => hhead b ?_, fun b hb => ?_⟩, _, hsplit, hblank⟩
  · rw [hsplit, List.head?_append_of_ne_nil _ hne]
    exact hb
  · rw [trimBlanks, hfront, List.getLast?_reverse] at hb
    have hlast := List.head?_dropWhile_not isBlank x.reverse
    rw [Option.mem_def.mp hb] at hlast
    exact hlast

/-- A comment does not start at a quote. -/
theorem StartsQuoted.dropComment {v : Bytes} (hv : StartsQuoted v) :
    StartsQuoted (dropComment .outside v) := by
  obtain ⟨q, hhead, hq⟩ := hv
  obtain ⟨s, rfl⟩ := List.head?_eq_some_iff.mp hhead
  have hhash : q ≠ hash := by rcases hq with rfl | rfl <;> decide
  rw [Config.dropComment, if_neg (fun h => hhash h.2)]
  exact ⟨q, rfl, hq⟩

/-- Without its comment and the blanks at its end, a quoted text is still one. -/
theorem StartsQuoted.lineContent {v : Bytes} (hv : StartsQuoted v) :
    StartsQuoted (lineContent v) ∧ Trimmed (lineContent v) ∧
      ∃ u, Config.dropComment .outside v = Config.lineContent v ++ u ∧
        ∀ b ∈ u, isBlank b = true := by
  obtain ⟨q, hhead, hq⟩ := hv.dropComment
  have hblank : isBlank q = false := by rcases hq with rfl | rfl <;> decide
  have hne : Config.dropComment .outside v ≠ [] := by
    intro hnil
    exact absurd (hnil ▸ hhead) (by simp)
  obtain ⟨htrim, u, hsplit, hu⟩ := exists_trimBlanks hne fun b hb => by
    obtain rfl := Option.some.inj (Option.mem_def.mp hhead ▸ hb : some q = some b)
    exact hblank
  refine ⟨⟨q, ?_, hq⟩, htrim, u, hsplit, hu⟩
  rw [hsplit, List.head?_append_of_ne_nil _ htrim.ne_nil] at hhead
  exact hhead

/-- What the line has behind its equals sign, without comment and blanks, is a documented string
exactly if there is one string and nothing else but a comment. -/
theorem isString_iff {v t : Bytes} (hv : StartsQuoted v) :
    IsString v t ↔ Closed (lineContent v) t := by
  constructor
  · rintro ⟨c, w, rfl, hc, u, r, rfl, hu, hr⟩
    have hdrop : dropComment .outside (c ++ (u ++ r)) = c ++ u := by
      rw [hc.crosses, Crosses.blanks hu, dropComment_outside_rest hr, List.append_nil]
    have htrim : trimBlanks (c ++ u) = c := by
      simpa using hc.trimmed.trimBlanks_eq (u := []) (by simp) hu
    rwa [lineContent, hdrop, htrim]
  · intro h
    obtain ⟨-, -, u, hdrop, hu⟩ := hv.lineContent
    obtain ⟨r, hsplit, hr⟩ := exists_dropComment .outside v
    refine ⟨lineContent v, u ++ r, ?_, h, u, r, rfl, hu, hr⟩
    rw [← List.append_assoc, ← hdrop, ← hsplit]

/-! ## Lines -/

/-- The line has a key, an equals sign and a text that starts with a quote, and blanks wherever they
may stand. -/
structure QuotedLine (line name v : Bytes) : Prop where
  isKey : isKey name = true
  startsQuoted : StartsQuoted v
  parts : ∃ u₁ u₂ u₃, line = u₁ ++ (name ++ u₂ ++ equals :: (u₃ ++ v)) ∧
    ∀ b ∈ u₁ ++ u₂ ++ u₃, isBlank b = true

/-- The line says what its value is read as. A comment can start behind the value only, and what is
in front of the value has no quotes in it. -/
theorem QuotedLine.readLine_eq {line name v : Bytes} (h : QuotedLine line name v) :
    readLine (lineContent line) =
      match readValue (lineContent v) with
      | .ok w => .ok (some (.entry name w))
      | .error fault => .error (.value fault) := by
  obtain ⟨u₁, u₂, u₃, rfl, hu⟩ := h.parts
  have hu₁ : ∀ b ∈ u₁, isBlank b = true := fun b hb => hu b (by simp [hb])
  have hu₂ : ∀ b ∈ u₂, isBlank b = true := fun b hb => hu b (by simp [hb])
  have hu₃ : ∀ b ∈ u₃, isBlank b = true := fun b hb => hu b (by simp [hb])
  have hword := IsWord.of_isKey h.isKey
  obtain ⟨-, hvalue, u, hdrop, hback⟩ := h.startsQuoted.lineContent
  have hcross : Crosses .outside .outside (u₁ ++ name ++ u₂ ++ [equals] ++ u₃) :=
    ((((Crosses.blanks hu₁).append hword.crosses).append (.blanks hu₂)).append
      (.other (by decide))).append (.blanks hu₃)
  have hline : dropComment .outside (u₁ ++ (name ++ u₂ ++ equals :: (u₃ ++ v))) =
      u₁ ++ (name ++ u₂ ++ equals :: (u₃ ++ lineContent v)) ++ u := by
    have hcrossed := hcross v
    rw [hdrop] at hcrossed
    simpa only [List.append_assoc, List.cons_append, List.nil_append] using hcrossed
  have htrim : Trimmed (name ++ u₂ ++ equals :: (u₃ ++ lineContent v)) := by
    refine ⟨by simp, fun b hb => ?_, fun b hb => ?_⟩
    · rw [List.append_assoc, List.head?_append_of_ne_nil _ hword.1] at hb
      exact hword.trimmed.head b hb
    · rw [List.getLast?_append_of_ne_nil _ (List.cons_ne_nil _ _), ← List.cons_append,
        List.getLast?_append_of_ne_nil _ hvalue.ne_nil] at hb
      exact hvalue.last b hb
  have hread := readEntry_append h.isKey hu₂ hu₃ hvalue
  rw [lineContent, hline, htrim.trimBlanks_eq hu₁ hback]
  obtain ⟨b, s, hcons⟩ := List.exists_cons_of_ne_nil hword.1
  have hbracket : b ≠ openBracket := by
    rintro rfl
    exact hword.not_mem (by decide) (hcons ▸ List.mem_cons_self)
  rw [hcons, List.cons_append, List.cons_append] at hread ⊢
  rw [readLine, if_neg hbracket, hread]
  cases readValue (lineContent v) <;> rfl

/-- Lines without a fault are read before the lines behind them. -/
theorem Reading.addLines_append {r : Reading} {number : Nat} {before : List Bytes}
    (hr : r.error? = none) (h : (r.addLines number before).error? = none) (rest : List Bytes) :
    r.addLines number (before ++ rest) =
      (r.addLines number before).addLines (number + before.length) rest := by
  induction before generalizing r number with
  | nil => rfl
  | cons line before ih =>
    rw [Reading.addLines] at h
    cases hnext : (r.addLine number line).error? with
    | some e =>
      rw [hnext, Option.isSome_some, if_pos rfl, hnext] at h
      exact absurd h (by simp)
    | none =>
      rw [hnext, Option.isSome_none, if_neg Bool.false_ne_true] at h
      rw [List.cons_append, Reading.addLines, Reading.addLines, hnext, Option.isSome_none,
        if_neg Bool.false_ne_true, if_neg Bool.false_ne_true, ih hnext h, List.length_cons,
        Nat.add_right_comm, Nat.add_assoc]

/-- **How quoted values are read.** In any text a line with a key and a quoted value, behind lines
without a fault, is accepted exactly if its value without comment and blanks is a string as the
reader takes them, one that may have its own quotes inside; then its key gets the text of that
string, and otherwise the text is given up there. And that value is a documented string exactly if
the line has one such string behind its equals sign, and nothing else but a comment. -/
theorem parse_quotedLine {text line name v : Bytes} {before after : List Bytes}
    (hline : QuotedLine line name v) (htext : text.splitOn lineFeed = before ++ line :: after)
    (hbefore : (({} : Reading).addLines 1 before).error? = none) :
    (∀ t, Lenient (lineContent v) t →
      parse text = ((({} : Reading).addLines 1 before).add (before.length + 1)
        (some (.entry name (.text t)))).addLines (before.length + 2) after) ∧
    ((¬ ∃ t, Lenient (lineContent v) t) → ∃ fault,
      parse text = { ({} : Reading).addLines 1 before with
        error? := some ⟨before.length + 1, .value fault⟩ }) ∧
    ∀ t, IsString v t ↔ Closed (lineContent v) t := by
  have hread := hline.readLine_eq
  obtain ⟨hstart, -, -⟩ := hline.startsQuoted.lineContent
  have hparse : parse text = (({} : Reading).addLines 1 before).addLines (before.length + 1)
      (line :: after) := by
    rw [parse, htext, Reading.addLines_append rfl hbefore, Nat.add_comm]
  generalize ({} : Reading).addLines 1 before = r at hbefore hparse ⊢
  refine ⟨fun t ht => ?_, fun hnot => ?_, fun t => isString_iff hline.startsQuoted⟩
  · rw [(readValue_eq_ok_iff hstart).mpr ⟨t, rfl, ht⟩] at hread
    have hnext : r.addLine (before.length + 1) line =
        r.add (before.length + 1) (some (.entry name (.text t))) := by
      rw [Reading.addLine, hread]
      rfl
    have hnone := Reading.error?_add hbefore (before.length + 1) (some (.entry name (.text t)))
    rw [hparse, Reading.addLines, hnext, hnone]
    rfl
  · cases hvalue : readValue (lineContent v) with
    | ok w =>
      obtain ⟨t, -, ht⟩ := (readValue_eq_ok_iff hstart).mp hvalue
      exact absurd ⟨t, ht⟩ hnot
    | error fault =>
      rw [hvalue] at hread
      refine ⟨fault, ?_⟩
      rw [hparse, Reading.addLines, Reading.addLine, hread]
      rfl

/-- A line below a heading, with escapes and a hash mark in its string and a comment behind it. -/
def escapedValue : Bytes := bytes "\"a\\t#\\\"\" # b"

/-- The sample line with the escaped value is one of the grammar. -/
theorem quotedLine_escapedValue :
    QuotedLine (bytes "\tlang = " ++ escapedValue) (bytes "lang") escapedValue where
  isKey := by decide
  startsQuoted := ⟨doubleQuote, rfl, .inl rfl⟩
  parts := ⟨[tab], [space], [space], rfl, List.all_eq_true.mp rfl⟩

/-- The escaped value is read as the string it stands for. -/
theorem parse_quotedLine_escapedValue :
    QuotedLine (bytes "\tlang = " ++ escapedValue) (bytes "lang") escapedValue ∧
    (({} : Reading).addLines 1 [bytes "[diag]"]).error? = none ∧
    IsString escapedValue (bytes "a\t#\"") ∧
    (parse (bytes "[diag]\n\tlang = " ++ escapedValue)).values.find? (bytes "diag.lang") =
      some (.text (bytes "a\t#\"")) := by
  have hbefore : (({} : Reading).addLines 1 [bytes "[diag]"]).error? = none := by decide +kernel
  have hclosed : Closed (lineContent escapedValue) (bytes "a\t#\"") :=
    .basic (.plain (by decide) (by decide) (.escape .tab (.plain (by decide) (by decide)
      (.escape .doubleQuote .nil))))
  have htext : (bytes "[diag]\n\tlang = " ++ escapedValue).splitOn lineFeed =
      [bytes "[diag]"] ++ [bytes "\tlang = " ++ escapedValue] := by decide +kernel
  obtain ⟨haccepted, -, hstring⟩ := parse_quotedLine quotedLine_escapedValue htext hbefore
  refine ⟨quotedLine_escapedValue, hbefore, (hstring _).mpr hclosed, ?_⟩
  rw [haccepted _ hclosed.lenient]
  decide +kernel

/-- Where the quote stands inside a content, a backslash stands before it. By induction on the
content, where an escape takes two bytes at once. -/
theorem Content.getLast?_eq {s t s₁ s₂ : Bytes} (h : Content (· ≠ doubleQuote) s t)
    (hs : s = s₁ ++ doubleQuote :: s₂) : s₁.getLast? = some backslash := by
  induction h generalizing s₁ with
  | nil => exact absurd hs (by simp)
  | plain hslash hb _ ih =>
    cases s₁ with
    | nil => exact absurd (List.cons.inj hs).1 hb
    | cons c s₁ =>
      have hlast := ih (List.cons.inj hs).2
      rw [List.getLast?_cons, hlast]
      rfl
  | escape he _ ih =>
    cases s₁ with
    | nil => exact absurd (List.cons.inj hs).1 (by decide)
    | cons c s₁ =>
      obtain ⟨rfl, hs⟩ := List.cons.inj hs
      cases s₁ with
      | nil => rfl
      | cons c' s₁ =>
        have hlast := ih (List.cons.inj (List.cons.inj hs).2).2
        rw [List.getLast?_cons, List.getLast?_cons, hlast]
        rfl

/-- In a documented string a quote of its own stands behind a backslash. -/
theorem Quoted.getLast?_eq {c t s₁ s₂ : Bytes} {q : UInt8} (h : Closed c t)
    (hc : c = q :: (s₁ ++ q :: s₂) ++ [q]) : s₁.getLast? = some backslash := by
  have hinner : c.tail.dropLast = s₁ ++ q :: s₂ := by rw [hc]; exact List.dropLast_concat
  cases h with
  | literal h =>
    obtain rfl : singleQuote = q := (List.cons.inj hc).1
    have hs : t = s₁ ++ singleQuote :: s₂ := hinner ▸ List.dropLast_concat.symm
    exact absurd rfl (h singleQuote (by simp [hs]))
  | @basic s t h =>
    obtain rfl : doubleQuote = q := (List.cons.inj hc).1
    have hs : s = s₁ ++ doubleQuote :: s₂ := hinner ▸ List.dropLast_concat.symm
    exact h.getLast?_eq hs

/-- Two strings of one letter each, next to each other. -/
def adjacent (q : UInt8) : Bytes := [q, 0x61, q, space, q, 0x62, q]

/-- The quotes at the two ends are taken for those of one string, whichever quotes they are. -/
theorem parse_adjacent {q : UInt8} (hq : q = doubleQuote ∨ q = singleQuote) :
    QuotedLine (bytes "k = " ++ adjacent q) (bytes "k") (adjacent q) ∧
      (parse (bytes "k = " ++ adjacent q ++ [lineFeed])).error? = none ∧
      (parse (bytes "k = " ++ adjacent q ++ [lineFeed])).values.find? (bytes "k") =
        some (.text (adjacent q).tail.dropLast) ∧
      ¬ ∃ t, IsString (adjacent q) t := by
  have hstart : StartsQuoted (adjacent q) := ⟨q, rfl, hq⟩
  have hcontent : lineContent (adjacent q) = q :: ([0x61] ++ q :: [space, q, 0x62]) ++ [q] := by
    rcases hq with rfl | rfl <;> decide +kernel
  refine ⟨⟨by decide, hstart, [], [space], [space], rfl, List.all_eq_true.mp rfl⟩, ?_, ?_, ?_⟩
  · rcases hq with rfl | rfl <;> decide +kernel
  · rcases hq with rfl | rfl <;> decide +kernel
  · rintro ⟨t, ht⟩
    exact absurd (((isString_iff hstart).mp ht).getLast?_eq hcontent) (by decide)

/-- Two strings side by side are taken for one, as only the first and the last byte are looked at.
-/
theorem accepts_adjacent :
    QuotedLine (bytes "k = \"a\" \"b\"") (bytes "k") (bytes "\"a\" \"b\"") ∧
      (parse (bytes "k = \"a\" \"b\"\n")).error? = none ∧
      (parse (bytes "k = \"a\" \"b\"\n")).values.find? (bytes "k") =
        some (.text (bytes "a\" \"b")) ∧
      ¬ ∃ t, IsString (bytes "\"a\" \"b\"") t := by
  have hvalue : bytes "\"a\" \"b\"" = adjacent doubleQuote := by decide +kernel
  have hline : bytes "k = \"a\" \"b\"" = bytes "k = " ++ adjacent doubleQuote := by
    decide +kernel
  have htext : bytes "k = \"a\" \"b\"\n" = bytes "k = " ++ adjacent doubleQuote ++ [lineFeed] := by
    decide +kernel
  have hinner : bytes "a\" \"b" = (adjacent doubleQuote).tail.dropLast := by decide +kernel
  rw [hvalue, hline, htext, hinner]
  exact parse_adjacent (.inl rfl)

end SignatureLedger.Config
