import SignatureLedger.Proofs.Recursion
import SignatureLedger.Proofs.Token.Lossless

/-!
# The lexer ends

Each scan over a source is a loop that has fewer bytes left after every round, and lexing itself has
fewer bytes left after every token. What a scan has taken is at least one byte and within the text.
-/

namespace SignatureLedger

open Byte

/-! ## Searching -/

/-- One round of the search for a text. -/
def Bytes.indexBody (needle : Bytes) : Bytes → Calls Bytes (Option Nat) (Option Nat)
  | [] => .done (if needle.isEmpty then some 0 else none)
  | b :: s =>
    if needle.isPrefixOf (b :: s) then .done (some 0)
    else .again s fun n? => n?.map (· + 1)

/-- The search for a text goes byte by byte. -/
theorem Bytes.recursion_indexOf? (needle : Bytes) :
    Recursion List.length (indexBody needle) (indexOf? needle) := by
  intro s
  cases s with
  | nil => exact .done _
  | cons b s => exact .ite (fun _ => .done _) (fun _ => .again (length_lt_cons b s))

/-- One character of the check that a source is UTF-8. -/
def Utf8.prefixBody (s : Bytes) : Calls Bytes Nat Nat :=
  match validWidth? s with
  | none => .done 0
  | some w => .again (s.drop w) (w + ·)

/-- The longest valid prefix grows character by character. -/
theorem Utf8.recursion_validPrefix : Recursion List.length prefixBody validPrefix := by
  intro s
  rw [prefixBody, validPrefix]
  cases h : validWidth? s with
  | none => exact .done _
  | some w => exact .again (length_drop_validWidth?_lt h)

/-! ## Literals -/

/-- One round of the scan of a string. -/
def Quoted.body (oneLine : Bool) (q : UInt8) : Nat × Bytes → Calls (Nat × Bytes) Quoted Quoted
  | (n, []) => .done ⟨n, false⟩
  | (n, b :: rest) =>
    if b = backslash then
      match rest with
      | [] => .done ⟨n + 1, false⟩
      | _ :: rest => .jump (n + 2, rest)
    else if b = q then .done ⟨n + 1, true⟩
    else if b = lineFeed ∧ oneLine then .done ⟨n, false⟩
    else .jump (n + 1, rest)

/-- The scan of a string ends. -/
theorem Quoted.recursion_scanFrom (oneLine : Bool) (q : UInt8) :
    Recursion (fun s => s.2.length) (body oneLine q) (fun s => scanFrom oneLine q s.1 s.2) := by
  rintro ⟨n, _ | ⟨b, rest⟩⟩
  · dsimp only [body]
    rw [scanFrom]
    exact .done _
  · dsimp only [body]
    rw [scanFrom.eq_def]
    refine .ite (fun _ => ?_) fun _ => ?_
    · -- a backslash takes the byte behind it along
      cases rest with
      | nil => exact .done _
      | cons c rest => exact .jump (Nat.lt_trans (length_lt_cons c rest) (length_lt_cons b _))
    refine .ite (fun _ => .done _) fun _ => ?_
    exact .ite (fun _ => .done _) fun _ => .jump (length_lt_cons b rest)

/-- One round of the scan of templates and of the code in them. -/
def Open.body : Nat × List Open × Bytes → Calls (Nat × List Open × Bytes) (Option Nat) (Option Nat)
  | (n, [], _) => .done (some n)
  | (_, _ :: _, []) => .done none
  | (n, .template :: below, b :: rest) =>
    if b = backslash then .jump (n + 2, .template :: below, rest.drop 1)
    else if b = backquote then .jump (n + 1, below, rest)
    else if b = dollar ∧ rest.head? = some openBrace then
      .jump (n + 2, .code 0 :: .template :: below, rest.drop 1)
    else .jump (n + 1, .template :: below, rest)
  | (n, .code inner :: below, b :: rest) =>
    if b = singleQuote ∨ b = doubleQuote then
      let w := (Quoted.scan true b rest).width
      .jump (n + 1 + w, .code inner :: below, rest.drop w)
    else if b = backquote then .jump (n + 1, .template :: .code inner :: below, rest)
    else if b = slash ∧ rest.head? = some slash then
      let w := Bytes.run (· != lineFeed) rest
      .jump (n + 1 + w, .code inner :: below, rest.drop w)
    else if b = slash ∧ rest.head? = some star then
      match commentWidth? (rest.drop 1) with
      | none => .done none
      | some w => .jump (n + 2 + w, .code inner :: below, rest.drop (1 + w))
    else if b = openBrace then .jump (n + 1, .code (inner + 1) :: below, rest)
    else if b = closeBrace then
      match inner with
      | 0 => .jump (n + 1, below, rest)
      | inner + 1 => .jump (n + 1, .code inner :: below, rest)
    else .jump (n + 1, .code inner :: below, rest)

/-- The scan of templates ends, however code and templates are nested. Each round goes on with fewer
bytes, whatever it puts on the stack or takes from it. -/
theorem Open.recursion_scanFrom :
    Recursion (fun s => s.2.2.length) body (fun s => scanFrom s.1 s.2.1 s.2.2) := by
  rintro ⟨n, _ | ⟨top, below⟩, s⟩
  · dsimp only [body]
    rw [scanFrom]
    exact .done _
  cases s with
  | nil =>
    dsimp only [body]
    rw [scanFrom]
    exact .done _
  | cons b rest =>
    have hrest := length_lt_cons b rest
    have hdrop := length_drop_lt_cons b rest
    cases top with
    | template =>
      dsimp only [body]
      rw [scanFrom]
      refine .ite (fun _ => .jump (hdrop 1)) fun _ => .ite (fun _ => .jump hrest) fun _ => ?_
      exact .ite (fun _ => .jump (hdrop 1)) fun _ => .jump hrest
    | code inner =>
      dsimp only [body]
      rw [scanFrom.eq_def]
      refine .ite (fun _ => .jump (hdrop _)) fun _ => .ite (fun _ => .jump hrest) fun _ => ?_
      refine .ite (fun _ => .jump (hdrop _)) fun _ => .ite (fun _ => ?_) fun _ => ?_
      · -- a block comment
        cases commentWidth? (rest.drop 1) with
        | none => exact .done _
        | some w => exact .jump (hdrop _)
      refine .ite (fun _ => .jump hrest) fun _ => .ite (fun _ => ?_) fun _ => .jump hrest
      -- a closing brace ends the code or a block in it
      cases inner with
      | zero => exact .jump hrest
      | succ inner => exact .jump hrest

/-- One round of the scan of a regular expression. -/
def Regex.body : Bool × Nat × Bytes → Calls (Bool × Nat × Bytes) Quoted Quoted
  | (_, n, []) => .done ⟨n, false⟩
  | (inClass, n, b :: rest) =>
    if b = lineFeed then .done ⟨n, false⟩
    else if b = backslash then
      match rest with
      | [] => .done ⟨n + 1, false⟩
      | _ :: rest => .jump (inClass, n + 2, rest)
    else if b = openBracket then .jump (true, n + 1, rest)
    else if b = closeBracket then .jump (false, n + 1, rest)
    else if b = slash ∧ !inClass then
      .done ⟨n + 1 + Bytes.run Token.continuesIdent rest, true⟩
    else .jump (inClass, n + 1, rest)

/-- The scan of a regular expression ends. -/
theorem Regex.recursion_scanFrom :
    Recursion (fun s => s.2.2.length) body (fun s => scanFrom s.1 s.2.1 s.2.2) := by
  rintro ⟨inClass, n, _ | ⟨b, rest⟩⟩
  · dsimp only [body]
    rw [scanFrom]
    exact .done _
  · have hrest := length_lt_cons b rest
    dsimp only [body]
    rw [scanFrom.eq_def]
    refine .ite (fun _ => .done _) fun _ => .ite (fun _ => ?_) fun _ => ?_
    · cases rest with
      | nil => exact .done _
      | cons c rest => exact .jump (Nat.lt_trans (length_lt_cons c rest) hrest)
    -- the brackets of a class of characters, and the slash that ends the expression
    refine .ite (fun _ => .jump hrest) fun _ => .ite (fun _ => .jump hrest) fun _ => ?_
    exact .ite (fun _ => .done _) fun _ => .jump hrest

/-- One round of the scan of markup. -/
def Markup.body : Nat × Markup × Bytes → Calls (Nat × Markup × Bytes) (Option Nat) (Option Nat)
  | (_, _, []) => .done none
  | (n, .content depth, b :: rest) =>
    if b = less then
      if rest.head? = some slash then
        match Bytes.indexOf? [greater] (rest.drop 1), depth with
        | some w, 1 => .done (some (n + 3 + w))
        | some w, depth + 1 => .jump (n + 3 + w, .content depth, rest.drop (2 + w))
        | _, _ => .done none
      else .jump (n + 1, .tag depth, rest)
    else if depth = 0 then .done none
    else if b = openBrace then
      match bracedWidth? rest with
      | none => .done none
      | some w => .jump (n + 1 + w, .content depth, rest.drop w)
    else .jump (n + 1, .content depth, rest)
  | (n, .tag depth, b :: rest) =>
    if b = slash ∧ rest.head? = some greater then
      if depth = 0 then .done (some (n + 2)) else .jump (n + 2, .content depth, rest.drop 1)
    else if b = greater then .jump (n + 1, .content (depth + 1), rest)
    else if b = singleQuote ∨ b = doubleQuote then
      let q := Quoted.scan false b rest
      if q.closed then .jump (n + 1 + q.width, .tag depth, rest.drop q.width) else .done none
    else if b = openBrace then
      match bracedWidth? rest with
      | none => .done none
      | some w => .jump (n + 1 + w, .tag depth, rest.drop w)
    else .jump (n + 1, .tag depth, rest)

/-- The scan of markup ends, however elements are nested. Each round goes on with fewer bytes,
whatever the depth is. -/
theorem Markup.recursion_scanFrom :
    Recursion (fun s => s.2.2.length) body (fun s => scanFrom s.1 s.2.1 s.2.2) := by
  rintro ⟨n, place, _ | ⟨b, rest⟩⟩
  · dsimp only [body]
    rw [scanFrom]
    exact .done _
  have hrest := length_lt_cons b rest
  have hdrop := length_drop_lt_cons b rest
  cases place with
  | content depth =>
    dsimp only [body]
    rw [scanFrom.eq_def]
    dsimp only
    refine .ite (fun _ => ?_) fun _ => ?_
    · refine .ite (fun _ => ?_) fun _ => .jump hrest
      -- a closing tag ends the outermost element or one in it
      cases Bytes.indexOf? [greater] (rest.drop 1) with
      | none => exact .done _
      | some w =>
        rcases depth with _ | _ | depth
        · exact .done _
        · exact .done _
        · exact .jump (hdrop _)
    refine .ite (fun _ => .done _) fun _ => .ite (fun _ => ?_) fun _ => .jump hrest
    cases bracedWidth? rest with
    | none => exact .done _
    | some w => exact .jump (hdrop _)
  | tag depth =>
    dsimp only [body]
    rw [scanFrom]
    refine .ite (fun _ => ?_) fun _ => .ite (fun _ => .jump hrest) fun _ => ?_
    · -- an empty element
      exact .ite (fun _ => .done _) fun _ => .jump (hdrop _)
    refine .ite (fun _ => ?_) fun _ => .ite (fun _ => ?_) fun _ => .jump hrest
    · -- the value of an attribute
      exact .ite (fun _ => .jump (hdrop _)) fun _ => .done _
    cases bracedWidth? rest with
    | none => exact .done _
    | some w => exact .jump (hdrop _)

/-! ## Gaps and tokens -/

/-- One blank or comment of a gap. -/
def Gap.body : Gap × Bytes → Calls (Gap × Bytes) Gap Gap
  | (done, []) => .done done
  | (done, b :: rest) =>
    match blank? b rest with
    | some (w, newline) =>
      .jump ({ done with width := done.width + 1 + w, newline := done.newline || newline },
        rest.drop w)
    | none =>
      if b = slash ∧ rest.head? = some slash then
        let w := lineCommentWidth rest
        .jump ({ done with width := done.width + 1 + w }, rest.drop w)
      else if b = slash ∧ rest.head? = some star then
        let body := rest.drop 1
        match commentWidth? body with
        | some w =>
          .jump ({ done with
            width := done.width + 2 + w
            newline := done.newline || (body.take w).contains lineFeed }, rest.drop (1 + w))
        | none =>
          .done { width := done.width + 2 + body.length
                  newline := done.newline || body.contains lineFeed
                  unclosed? := some done.width }
      else .done done

/-- The reader of gaps ends. -/
theorem Gap.recursion_readFrom :
    Recursion (fun s => s.2.length) body (fun s => readFrom s.1 s.2) := by
  rintro ⟨done, _ | ⟨b, rest⟩⟩
  · dsimp only [body]
    rw [readFrom]
    exact .done _
  have hdrop := length_drop_lt_cons b rest
  dsimp only [body]
  rw [readFrom]
  cases blank? b rest with
  | some blank => exact .jump (hdrop _)
  | none =>
    refine .ite (fun _ => .jump (hdrop _)) fun _ => .ite (fun _ => ?_) fun _ => .done _
    dsimp only
    cases commentWidth? (rest.drop 1) with
    | some w => exact .jump (hdrop _)
    | none => exact .done _

/-- One token, and then the tokens behind it. -/
def lexBody (dialect : Dialect) (size : Nat) :
    Bool × Nat × Gap × Bytes → Calls (Bool × Nat × Gap × Bytes) Lexed Lexed
  | (operand, pos, gap, s) =>
    match s.drop gap.width with
    | [] => .done ⟨[Token.eofAt size], gap.findings pos⟩
    | b :: rest =>
      let l := Lexeme.read dialect operand b rest
      let lo := pos + gap.width
      let hi := lo + 1 + l.more
      let after := rest.drop l.more
      .again (!l.kind.endsOperand, hi, Gap.read after, after) fun more =>
        more.cons (gap.findings pos) ⟨l.kind, ⟨lo, hi⟩, b :: rest.take l.more, gap.newline⟩
          (l.findings lo)

/-- The lexer ends: each token has at least one byte. -/
theorem recursion_lexFrom (dialect : Dialect) (size : Nat) :
    Recursion (fun s => s.2.2.2.length) (lexBody dialect size)
      (fun s => lexFrom dialect size s.1 s.2.1 s.2.2.1 s.2.2.2) := by
  rintro ⟨operand, pos, gap, s⟩
  dsimp only [lexBody]
  rw [lexFrom]
  cases h : s.drop gap.width with
  | nil => exact .done _
  | cons b rest =>
    apply Descends.again
    exact length_drop_lt_of_drop_eq_cons h _

/-! ## Every scan goes forward -/

/-- A scan that closes something has taken a byte. -/
theorem Open.le_scanFrom {n w : Nat} {stack : List Open} {s : Bytes}
    (h : scanFrom n stack s = some w) : n + min stack.length 1 ≤ w := by
  fun_induction scanFrom n stack s with
  | case1 n s =>
    obtain rfl := Option.some.inj h
    exact Nat.le_refl _
  | case2 => exact absurd h (by simp)
  | case10 => exact absurd h (by simp)
  | _ =>
    rename_i ih
    have := ih h
    omega

/-- An element that is closed has a byte. -/
theorem Markup.lt_scanFrom {n w : Nat} {place : Markup} {s : Bytes}
    (h : scanFrom n place s = some w) : n < w := by
  fun_induction scanFrom n place s with
  | case1 | case4 | case6 | case7 | case14 | case15 => exact absurd h (by simp)
  | case2 | case10 =>
    obtain rfl := Option.some.inj h
    omega
  | _ =>
    rename_i ih
    have := ih h
    omega

/-- A template that is closed has a byte. -/
theorem templateWidth?_pos {s : Bytes} {w : Nat} (h : templateWidth? s = some w) : 0 < w :=
  Open.le_scanFrom h

/-- So has a markup element. -/
theorem Markup.width?_pos {s : Bytes} {w : Nat} (h : width? s = some w) : 0 < w := by
  unfold width? at h
  split at h
  · exact absurd h (by simp)
  split at h
  · exact lt_scanFrom h
  split at h
  · exact absurd h (by simp)
  split at h
  · exact absurd h (by simp)
  · exact lt_scanFrom h

/-- The tokens of a source take one stretch of it after the other, and so do the literals that are
scanned for their end. -/
structure ScansAdvance : Prop where
  tokens : ∀ dialect source, ∃ ts : List Token,
    (lex dialect source).tokens = ts ++ [Token.eofAt source.length] ∧
      (∀ t ∈ ts, t.span.lo < t.span.hi ∧ t.span.hi ≤ source.length) ∧
      ts.Pairwise fun t u => t.span.hi ≤ u.span.lo
  template : ∀ s w, templateWidth? s = some w → 0 < w ∧ w ≤ s.length
  markup : ∀ s w, Markup.width? s = some w → 0 < w ∧ w ≤ s.length

/-- All scans of the lexer go forward. -/
theorem scansAdvance : ScansAdvance where
  tokens := by
    intro dialect source
    obtain ⟨ts, htokens, htiles⟩ := tiles_lex dialect source
    refine ⟨ts, htokens, fun t ht => ?_, htiles.pairwise⟩
    obtain ⟨lo, -, hlies⟩ := htiles.lies ht
    exact ⟨hlies.lt, hlies.within⟩
  template := fun _ _ h => ⟨templateWidth?_pos h, templateWidth?_le h⟩
  markup := fun _ _ h => ⟨Markup.width?_pos h, Markup.width?_le h⟩

/-- Every loop of the lexer ends: the check of the encoding, the search for the end of a comment,
the scans of literals and gaps, and the loop over the tokens. All of them count the bytes that are
left. -/
structure LexerTerminates : Prop where
  encoding : Terminates List.length Utf8.prefixBody Utf8.validPrefix
  search : ∀ needle, Terminates List.length (Bytes.indexBody needle) (Bytes.indexOf? needle)
  string : ∀ oneLine q, Terminates (fun s => s.2.length) (Quoted.body oneLine q)
    fun s => Quoted.scanFrom oneLine q s.1 s.2
  template : Terminates (fun s => s.2.2.length) Open.body fun s => Open.scanFrom s.1 s.2.1 s.2.2
  regex : Terminates (fun s => s.2.2.length) Regex.body fun s => Regex.scanFrom s.1 s.2.1 s.2.2
  markup : Terminates (fun s => s.2.2.length) Markup.body
    fun s => Markup.scanFrom s.1 s.2.1 s.2.2
  gap : Terminates (fun s => s.2.length) Gap.body fun s => Gap.readFrom s.1 s.2
  tokens : ∀ dialect size, Terminates (fun s => s.2.2.2.length) (lexBody dialect size)
    fun s => lexFrom dialect size s.1 s.2.1 s.2.2.1 s.2.2.2

/-- All loops of the lexer end. -/
theorem lexerTerminates : LexerTerminates where
  encoding := Utf8.recursion_validPrefix.terminates
  search := fun needle => (Bytes.recursion_indexOf? needle).terminates
  string := fun oneLine q => (Quoted.recursion_scanFrom oneLine q).terminates
  template := Open.recursion_scanFrom.terminates
  regex := Regex.recursion_scanFrom.terminates
  markup := Markup.recursion_scanFrom.terminates
  gap := Gap.recursion_readFrom.terminates
  tokens := fun dialect size => (recursion_lexFrom dialect size).terminates

end SignatureLedger
