import SignatureLedger.Proofs.Token.Closing
import SignatureLedger.Proofs.Token.Lossless

/-!
# Code between braces ends at its own brace

The scanner that looks for the end of a substitution does not read tokens. Where the text of a
substitution is code on its own, it still finds the brace behind it (`closes_of_isCode`): gaps,
strings and templates are passed as the lexer reads them, and braces are counted as its tokens are.
Only regular expressions are nothing to the scanner, so what stands in them has to read as code.
-/

namespace SignatureLedger

open Byte

/-! ## Text that is plain code -/

/-- The number of braces that are open behind a byte, if `d` are open before it. There is none if
the byte closes a brace that was not opened. -/
def braceStep (d : Nat) (b : UInt8) : Option Nat :=
  if b = openBrace then some (d + 1)
  else if b = closeBrace then if d = 0 then none else some (d - 1)
  else some d

/-- The number of braces that are open behind a text. -/
def nesting (d : Nat) (s : Bytes) : Option Nat := s.foldlM braceStep d

/-- Nothing in the text `s`, which stands before `t`, opens a string, a template or a comment. -/
def Bare (t : Bytes) : Bytes → Prop
  | [] => True
  | b :: s =>
    b ∉ [singleQuote, doubleQuote, backquote] ∧ ¬ OpensComment (b :: (s ++ t)) ∧ Bare t s

instance (t : Bytes) : (s : Bytes) → Decidable (Bare t s)
  | [] => inferInstanceAs (Decidable True)
  | _ :: s =>
    have : Decidable (Bare t s) := instDecidableBare t s
    inferInstanceAs (Decidable (_ ∧ _ ∧ _))

/-- The bytes that the scanner looks at. -/
def scanMarks : Bytes := [singleQuote, doubleQuote, backquote, slash, openBrace, closeBrace]

variable {b : UInt8} {d e : Nat} {s t u : Bytes}

/-- The nesting behind a text is that of its first byte and then of the rest. -/
theorem nesting_cons : nesting d (b :: s) = (braceStep d b).bind (nesting · s) := List.foldlM_cons

/-- The same for a text in front of another. -/
theorem nesting_append : nesting d (s ++ t) = (nesting d s).bind (nesting · t) :=
  List.foldlM_append

/-- Other bytes than braces do not change the nesting. -/
theorem braceStep_of_ne (hopen : b ≠ openBrace) (hclose : b ≠ closeBrace) :
    braceStep d b = some d := by
  rw [braceStep, if_neg hopen, if_neg hclose]

/-- Braces that are open around the text stay open. -/
theorem nesting_add (h : nesting d s = some e) (k : Nat) : nesting (d + k) s = some (e + k) := by
  have hstep : ∀ {d e : Nat} {b : UInt8}, braceStep d b = some e →
      braceStep (d + k) b = some (e + k) := by
    intro d e b h
    unfold braceStep at h ⊢
    grind
  induction s generalizing d with
  | nil => exact congrArg (some <| · + k) (Option.some.inj h)
  | cons b s ih =>
    rw [nesting_cons] at h ⊢
    obtain ⟨d', hd, h⟩ := Option.bind_eq_some_iff.mp h
    rw [hstep hd, Option.bind_some, ih h]

/-- A comment that opens before the brace at the end opens in the text itself. -/
theorem OpensComment.of_append (h : OpensComment (s ++ closeBrace :: u)) : OpensComment s := by
  cases s with
  | nil => exact absurd (opensComment_cons.mp h).1 (by decide)
  | cons b s =>
    rw [List.cons_append, opensComment_cons] at h
    rw [opensComment_cons]
    cases s with
    | nil => exact absurd h.2 (by simp only [List.nil_append, List.head?_cons]; decide)
    | cons c s => exact h

/-- A brace behind the text makes no difference. -/
theorem Bare.append (h : Bare t s) (u : Bytes) : Bare (t ++ closeBrace :: u) s := by
  induction s with
  | nil => trivial
  | cons b s ih =>
    refine ⟨h.1, fun hcomment => h.2.1 ?_, ih h.2.2⟩
    rw [← List.append_assoc, ← List.cons_append] at hcomment
    exact hcomment.of_append

namespace Open

/-- One byte of plain code. -/
theorem passes_braceStep (hquotes : b ∉ [singleQuote, doubleQuote, backquote])
    (hcomment : ¬ OpensComment (b :: t)) (hd : braceStep d b = some e) :
    Passes [.code d] [.code e] [b] t := by
  rw [List.mem_cons, List.mem_cons, List.mem_singleton, ← or_assoc, not_or] at hquotes
  unfold braceStep at hd
  split at hd
  · rename_i hopen
    obtain rfl := Option.some.inj hd
    exact hopen ▸ passes_openBrace t
  rename_i hopen
  split at hd
  · rename_i hclose
    split at hd
    · exact absurd hd (by simp)
    · rename_i hne
      obtain ⟨k, rfl⟩ := Nat.exists_eq_succ_of_ne_zero hne
      obtain rfl := Option.some.inj hd
      exact hclose ▸ passes_closeBrace t
  · rename_i hclose
    obtain rfl := Option.some.inj hd
    exact passes_codeByte hquotes.1 hquotes.2 hcomment hopen hclose

/-- **Plain code changes the nesting only.** -/
theorem passes_bare (hbare : Bare t s) (hd : nesting d s = some e) :
    Passes [.code d] [.code e] s t := by
  induction s generalizing d with
  | nil =>
    obtain rfl := Option.some.inj hd
    exact .nil _ t
  | cons b s ih =>
    obtain ⟨hquotes, hcomment, hbare⟩ := hbare
    rw [nesting_cons] at hd
    obtain ⟨d', hstep, hd⟩ := Option.bind_eq_some_iff.mp hd
    exact Passes.append (s := [b]) (passes_braceStep hquotes hcomment hstep) (ih hbare hd)

/-- Bytes that the scanner does not look at. -/
theorem passes_unmarked (hs : ∀ c ∈ s, c ∉ scanMarks) : Passes [.code d] [.code d] s t := by
  induction s with
  | nil => exact .nil _ t
  | cons b s ih =>
    have hb := hs b List.mem_cons_self
    simp only [scanMarks, List.mem_cons, List.not_mem_nil, or_false, not_or] at hb
    obtain ⟨hsingle, hdouble, hback, hslash, hopen, hclose⟩ := hb
    refine Passes.append (s := [b]) ?_ (ih fun c hc => hs c (List.mem_cons_of_mem b hc))
    exact passes_braceStep (by simp [hsingle, hdouble, hback])
      (fun hcomment => hslash (opensComment_cons.mp hcomment).1) (braceStep_of_ne hopen hclose)

/-! ## Gaps -/

/-- A blank or a comment that ends before the code does. -/
theorem passes_text {p : Trivia} {pos : Nat} (hp : p.Fits pos t)
    (hopen : ∀ body, p ≠ .openComment body) (hbang : ∀ body, p ≠ .hashBang body)
    (hline : ∀ body, p = .lineComment body → t ≠ []) (u : Bytes) :
    Passes [.code d] [.code d] p.text (t ++ closeBrace :: u) := by
  cases p with
  | blank c =>
    have hmarks : ∀ c ∈ Trivia.blanks, ∀ b ∈ c, b ∉ scanMarks := by decide +kernel
    exact passes_unmarked (hmarks c hp)
  | lineComment body =>
    refine passes_lineComment hp.1 ?_
    obtain ⟨b, t, rfl⟩ := List.exists_cons_of_ne_nil (hline body rfl)
    exact hp.2
  | blockComment body => exact passes_blockComment hp _
  | openComment body => exact absurd rfl (hopen body)
  | hashBang body => exact absurd rfl (hbang body)

/-- **A gap makes no difference**, if it does not end in a line comment at the end of the code. -/
theorem passes_row {ps : List Trivia} {pos : Nat} (h : Trivia.Fill pos t ps)
    (hopen : ∀ body, .openComment body ∉ ps) (hbang : ∀ body, .hashBang body ∉ ps)
    (hline : t = [] → ∀ body, ps.getLast? ≠ some (.lineComment body)) (u : Bytes) :
    Passes [.code d] [.code d] (Trivia.row ps) (t ++ closeBrace :: u) := by
  induction ps generalizing pos with
  | nil => exact .nil _ _
  | cons p ps ih =>
    have hlast : t = [] → ∀ body, ps.getLast? ≠ some (.lineComment body) := by
      intro ht body hbody
      exact hline ht body (by rw [List.getLast?_cons, hbody]; rfl)
    have hps := ih h.2 (fun body hmem => hopen body (List.mem_cons_of_mem p hmem))
      (fun body hmem => hbang body (List.mem_cons_of_mem p hmem)) hlast
    refine Passes.append ?_ hps
    rw [← List.append_assoc]
    refine passes_text h.1 (fun body heq => hopen body (heq ▸ List.mem_cons_self))
      (fun body heq => hbang body (heq ▸ List.mem_cons_self)) (fun body heq hnil => ?_) u
    -- a line comment with nothing behind it is the last piece
    obtain ⟨hrow, ht⟩ := List.append_eq_nil_iff.mp hnil
    cases ps with
    | nil => exact hline ht body (by rw [heq]; rfl)
    | cons q ps => exact Trivia.text_ne_nil h.2.1 (List.append_eq_nil_iff.mp hrow).1

end Open

/-! ## Tokens -/

/-- The brace that a token of this kind and text is, if it is one. -/
def bracesOf (kind : TokenKind) (text : Bytes) : Bytes :=
  if kind = .punct .openBrace ∨ kind = .punct .closeBrace then text else []

namespace Lexeme

open Open

variable {rest : Bytes}

/-- Code passes a string that is closed. -/
theorem passes_quoted (hb : b = doubleQuote ∨ b = singleQuote)
    (hclosed : (quoted b rest).problem? = none) (t : Bytes) :
    Passes [.code d] [.code d] (b :: rest.take (quoted b rest).more) t := by
  obtain ⟨x, y, rfl, hwidth, hscan⟩ := Quoted.exists_scanFrom true b 0 rest
  rw [Nat.zero_add] at hwidth
  have hmore : (quoted b (x ++ y)).more = x.length := hwidth
  have hclosed : (Quoted.scan true b (x ++ y)).closed = true := by
    by_contra hopen
    exact absurd hclosed (by simp [quoted, hopen])
  rw [hmore, List.take_left]
  exact Open.passes_quoted hb.symm ((congrArg Quoted.width (hscan t (.inl hclosed))).trans hwidth)

/-- Code passes a template that is closed, with all the code inside it. -/
theorem passes_template (hclosed : (template rest).problem? = none) (t : Bytes) :
    Passes [.code d] [.code d] (backquote :: rest.take (template rest).more) t := by
  unfold template at hclosed ⊢
  split
  · rename_i n hn
    obtain ⟨v, y, rfl, rfl, hv⟩ := exists_passes hn
    dsimp only
    rw [Nat.zero_add, List.take_left]
    exact Passes.append (s := [backquote]) (passes_backquote _) ((hv t).frame [.code d])
  · rename_i hn
    rw [hn] at hclosed
    exact absurd hclosed (by simp)

/-- A class of bytes without scan marks has no scan mark among its members. -/
theorem not_mem_scanMarks_of {p : UInt8 → Bool} (hp : ∀ m ∈ scanMarks, p m = false)
    (hb : p b = true) : b ∉ scanMarks := by
  intro hmem
  rw [hp b hmem] at hb
  exact absurd hb (by simp)

/-- A run of bytes that are of one class. -/
theorem passes_run {p : UInt8 → Bool} (hp : ∀ m ∈ scanMarks, p m = false) (hb : b ∉ scanMarks)
    (t : Bytes) : Passes [.code d] [.code d] (b :: rest.take (Bytes.run p rest)) t := by
  refine passes_unmarked fun c hc => ?_
  rcases List.mem_cons.mp hc with rfl | hc
  · exact hb
  · rw [Bytes.take_run] at hc
    exact not_mem_scanMarks_of hp (List.mem_takeWhile_imp hc)

/-- Code passes a private name. -/
theorem passes_privateName (t : Bytes) :
    Passes [.code d] [.code d] (Byte.hash :: rest.take (privateName rest).more) t := by
  unfold privateName
  split
  · exact passes_run (by decide +kernel) (by decide) t
  · exact passes_unmarked (s := [Byte.hash]) (by decide +kernel)

/-- A known punctuator is a brace, or it has none in it. A brace is a sign of one byte. No other
sign starts with one, and none has a byte behind its first that the scanner looks for. -/
theorem braceStep_of_punct {p : Punct} (htext : bytes p.text = b :: s)
    (hd : nesting d (bracesOf (.punct p) (b :: s)) = some e) :
    braceStep d b = some e ∧ ∀ c ∈ s, c ∉ scanMarks := by
  have htail : ∀ c ∈ (bytes p.text).tail, c ∉ scanMarks := by cases p <;> decide +kernel
  have hbrace : p = .openBrace ∨ p = .closeBrace → (bytes p.text).tail = [] := by
    cases p <;> decide +kernel
  have hplain : ¬ (p = .openBrace ∨ p = .closeBrace) →
      ∀ c ∈ (bytes p.text).head?, c ≠ openBrace ∧ c ≠ closeBrace := by
    cases p <;> decide +kernel
  rw [htext] at htail hbrace hplain
  refine ⟨?_, htail⟩
  unfold bracesOf at hd
  split at hd
  · rename_i hp
    obtain rfl : s = [] := hbrace (by simpa using hp)
    rw [nesting_cons] at hd
    obtain ⟨d', hstep, hd⟩ := Option.bind_eq_some_iff.mp hd
    exact Option.some.inj hd ▸ hstep
  · rename_i hp
    obtain rfl := Option.some.inj hd
    obtain ⟨hopen, hclose⟩ := hplain (by simpa using hp) b rfl
    exact braceStep_of_ne hopen hclose

/-- Braces are known punctuators. -/
theorem ne_of_unknownPunct (h : (punct b rest).kind = .unknownPunct) :
    b ≠ openBrace ∧ b ≠ closeBrace := by
  have hknown : ∀ {b : UInt8} {p : Punct}, b ≠ slash → ([b], p) ∈ Punct.table → p ≠ .questionDot →
      (punct b rest).kind ≠ .unknownPunct := by
    intro b p hslash hp hdot hkind
    rw [punct, if_neg hslash] at hkind
    split at hkind
    · exact absurd hkind (by simp)
    · rename_i hnone
      have := List.find?_eq_none.mp hnone _ hp
      simp [hdot] at this
  constructor
  · rintro rfl
    exact hknown (p := .openBrace) (by decide) (by decide +kernel) (by decide) h
  · rintro rfl
    exact hknown (p := .closeBrace) (by decide) (by decide +kernel) (by decide) h

/-- Code passes a punctuator; a brace changes the nesting as it says. -/
theorem passes_punct (hb : b ∉ [singleQuote, doubleQuote, backquote])
    (hcomment : ¬ OpensComment (b :: rest))
    (hd : nesting d (bracesOf (punct b rest).kind (b :: rest.take (punct b rest).more)) = some e)
    (u : Bytes) :
    Passes [.code d] [.code e] (b :: rest.take (punct b rest).more)
      (rest.drop (punct b rest).more ++ closeBrace :: u) := by
  have hstep : braceStep d b = some e ∧ ∀ c ∈ rest.take (punct b rest).more, c ∉ scanMarks := by
    rcases kind_punct b rest with ⟨p, hp⟩ | hunknown
    · rw [hp] at hd
      exact braceStep_of_punct (text_of_punct hp).symm hd
    · obtain ⟨hopen, hclose⟩ := ne_of_unknownPunct hunknown
      rw [hunknown] at hd
      obtain rfl := Option.some.inj hd
      rw [more_of_unknownPunct hunknown, List.take_zero]
      exact ⟨braceStep_of_ne hopen hclose, by simp⟩
  refine Passes.append (s := [b]) (passes_braceStep hb ?_ hstep.1) (passes_unmarked hstep.2)
  rw [← List.append_assoc, List.take_append_drop]
  exact fun h => hcomment h.of_append

/-- A token that is no punctuator does not change the nesting. -/
theorem eq_of_not_punct {kind : TokenKind} {text : Bytes} (hkind : ∀ p, kind ≠ .punct p)
    (hd : nesting d (bracesOf kind text) = some e) : e = d := by
  rw [bracesOf, if_neg (by simp [hkind])] at hd
  exact (Option.some.inj hd).symm

/-- **The scanner passes a token as the lexer reads it**, but for regular expressions. -/
theorem passes_read {operand : Bool} {l : Lexeme} (hl : read .typeScript operand b rest = l)
    (hcomment : ¬ OpensComment (b :: rest)) (hclosed : l.problem? = none)
    (hregex : l.kind = .regexLit →
      Bare (rest.drop l.more) (b :: rest.take l.more) ∧
        nesting 0 (b :: rest.take l.more) = some 0)
    (hd : nesting d (bracesOf l.kind (b :: rest.take l.more)) = some e) (u : Bytes) :
    Passes [.code d] [.code e] (b :: rest.take l.more) (rest.drop l.more ++ closeBrace :: u) := by
  unfold read at hl
  split at hl
  · rename_i hnumber
    subst hl
    obtain rfl := eq_of_not_punct (by simp) hd
    exact passes_unmarked fun c hc =>
      not_mem_scanMarks_of (by decide +kernel) (NumberLit.isText_of_first hnumber c hc)
  split at hl
  · rename_i hquote
    subst hl
    obtain rfl := eq_of_not_punct (by simp [quoted]) hd
    exact passes_quoted hquote hclosed _
  split at hl
  · rename_i hback
    subst hl hback
    obtain rfl := eq_of_not_punct (by unfold template; split <;> simp) hd
    exact passes_template hclosed _
  split at hl
  · rename_i hhash
    subst hl hhash
    obtain rfl := eq_of_not_punct (by unfold privateName; split <;> simp) hd
    exact passes_privateName _
  split at hl
  · rename_i hstarts
    subst hl
    obtain rfl := eq_of_not_punct (by unfold word; dsimp only; split <;> simp) hd
    rw [more_word]
    exact passes_run (by decide +kernel) (not_mem_scanMarks_of (by decide +kernel) hstarts) _
  rename_i hquotes hback _ _
  have hb : b ∉ [singleQuote, doubleQuote, backquote] := by
    rw [not_or] at hquotes
    simp [hquotes.1, hquotes.2, hback]
  split at hl
  · subst hl
    obtain ⟨hbare, hnest⟩ := hregex rfl
    obtain rfl := eq_of_not_punct (by simp [regex]) hd
    exact passes_bare (hbare.append u) (Nat.zero_add e ▸ nesting_add hnest e)
  split at hl
  · -- this dialect has no markup
    rename_i hless
    subst hless
    have hl : punct Byte.less rest = l := hl
    subst hl
    exact passes_punct hb hcomment hd u
  · subst hl
    exact passes_punct hb hcomment hd u

end Lexeme

/-! ## Whole codes -/

/-- The brace that a token is, if it is one. -/
def Token.braces (t : Token) : Bytes := bracesOf t.kind t.lexeme

/-- The literal reads as code: nothing in it opens a string, a template or a comment, also not
together with what stands behind it in the source, and its braces are properly nested. -/
structure Token.ReadsAsCode (source : Bytes) (t : Token) : Prop where
  bare : Bare (source.drop t.span.hi) t.lexeme
  nests : nesting 0 t.lexeme = some 0

instance (source : Bytes) (t : Token) : Decidable (t.ReadsAsCode source) :=
  decidable_of_iff (Bare (source.drop t.span.hi) t.lexeme ∧ nesting 0 t.lexeme = some 0)
    ⟨fun h => ⟨h.1, h.2⟩, fun h => ⟨h.bare, h.nests⟩⟩

/-- The gap before the end marker does not end with a line comment. -/
def EndsOutside (source : Bytes) (lo : Nat) (t : Token) : Prop :=
  t.kind = .eof → ∀ ps body, ¬ IsGap source lo t.span.lo (ps ++ [.lineComment body])

/-- The text is code on its own: there is nothing to complain about, its braces are properly nested,
and it does not end in a line comment. -/
structure IsCode (c : Bytes) : Prop where
  found : (lex .typeScript c).found = []
  nests : nesting 0 ((lex .typeScript c).tokens.flatMap Token.braces) = some 0
  ends : EachBehind (EndsOutside c) 0 (lex .typeScript c).tokens

/-- Without a slash behind the last token there is no line comment. -/
theorem IsCode.of_not_mem {c : Bytes} (hfound : (lex .typeScript c).found = [])
    (hnests : nesting 0 ((lex .typeScript c).tokens.flatMap Token.braces) = some 0)
    (hends : EachBehind (fun lo t => t.kind = .eof → slash ∉ c.slice lo t.span.lo) 0
      (lex .typeScript c).tokens) : IsCode c := by
  refine ⟨hfound, hnests, hends.imp fun lo t h hkind ps body hgap => h hkind ?_⟩
  rw [hgap.text, Trivia.row, List.flatMap_append, List.mem_append]
  exact .inr (by simp [Trivia.text])

/-- A gap without a finding has no open comment. -/
theorem Gap.closed_of_findings {at_ : Nat} {g : Gap} (h : g.findings at_ = []) :
    g.unclosed? = none := by
  cases hg : g.unclosed? with
  | none => rfl
  | some k => exact absurd h (by simp [Gap.findings, hg])

/-- A token without a finding is closed. -/
theorem Lexeme.closed_of_findings {lo : Nat} {l : Lexeme} (h : l.findings lo = []) :
    l.problem? = none := by
  cases hl : l.problem? with
  | none => rfl
  | some k => exact absurd h (by simp [Lexeme.findings, hl])

/-- What is read from the offset `pos` of the code `c` on, where `d` braces are open. -/
structure RestOfCode (c : Bytes) (d pos : Nat) (r : Lexed) : Prop where
  found : r.found = []
  nests : nesting d (r.tokens.flatMap Token.braces) = some 0
  ends : EachBehind (EndsOutside c) pos r.tokens
  regex : ∀ t ∈ r.tokens, t.kind = .regexLit → t.ReadsAsCode c

/-- What a code asks of its tokens it asks of the first one and of those behind it. -/
theorem RestOfCode.behind {c : Bytes} {pos : Nat} {gap problem : List Diagnostic} {t : Token}
    {r : Lexed} (h : RestOfCode c d pos (r.cons gap t problem)) :
    gap = [] ∧ problem = [] ∧ ∃ e, nesting d t.braces = some e ∧ RestOfCode c e t.span.hi r := by
  obtain ⟨hfront, hfound⟩ := List.append_eq_nil_iff.mp h.found
  obtain ⟨hgap, hproblem⟩ := List.append_eq_nil_iff.mp hfront
  have hnests := h.nests
  rw [Lexed.cons, List.flatMap_cons, nesting_append] at hnests
  obtain ⟨e, ht, hr⟩ := Option.bind_eq_some_iff.mp hnests
  exact ⟨hgap, hproblem, e, ht, hfound, hr, h.ends.2,
    fun u hu => h.regex u (List.mem_cons_of_mem t hu)⟩

/-- The gap at the front of a text is a row of pieces up to where the reader stops. -/
theorem Gap.exists_reads_drop (s : Bytes) :
    ∃ ps, Reads {} (Gap.read s) s ps (s.drop (Gap.read s).width) := by
  obtain ⟨ps, t, hread⟩ := exists_reads {} s
  have hwidth : (Gap.read s).width = (Trivia.row ps).length := hread.width.trans (Nat.zero_add _)
  have hrest : s.drop (Gap.read s).width = t := by
    rw [hwidth, congrArg (List.drop _) hread.text, List.drop_left]
  exact ⟨ps, hrest ▸ hread⟩

/-- The gap before the end marker of a code is passed, since it does not end with a line comment. -/
theorem passes_lastGap {c : Bytes} {pos : Nat} (hs : c.drop pos = s) (hpos : pos ≤ c.length)
    (hnil : s.drop (Gap.read s).width = []) (hfound : (Gap.read s).findings pos = [])
    (hends : EndsOutside c pos (Token.eofAt c.length)) (u : Bytes) :
    Open.Passes [.code d] [.code d] s (closeBrace :: u) := by
  obtain ⟨ps, hread⟩ := Gap.exists_reads_drop s
  rw [hnil] at hread
  have hrow : s = Trivia.row ps := hread.text.trans (List.append_nil _)
  have hlast : ∀ body, ps.getLast? ≠ some (.lineComment body) := by
    intro body hbody
    obtain ⟨qs, rfl⟩ := List.getLast?_eq_some_iff.mp hbody
    refine hends rfl qs body ⟨hpos, ?_, ?_⟩
    · show c.slice pos c.length = _
      rw [Bytes.slice_of_le hpos (Nat.le_refl _), ← List.length_drop, hs, List.take_length]
      exact hrow
    · show Trivia.Fill pos (c.drop c.length) _
      rw [List.drop_length]
      exact hread.fill pos
  rw [hrow]
  exact Open.passes_row (hread.fill pos) (hread.closed (Gap.closed_of_findings hfound))
    (fun body => (hread.fill 1).not_mem_hashBang Nat.one_pos) (fun _ => hlast) u

/-- **The scanner passes code as the lexer reads it.** By induction on the lexer's own recursion, in
step with the braces that are open. -/
theorem passes_lexFrom {c : Bytes} {operand : Bool} {pos : Nat} {gap : Gap}
    (hs : c.drop pos = s) (hpos : pos ≤ c.length) (hgap : gap = Gap.read s)
    (h : RestOfCode c d pos (lexFrom .typeScript c.length operand pos gap s)) (u : Bytes) :
    Open.Passes [.code d] [.code 0] s (closeBrace :: u) := by
  fun_induction lexFrom .typeScript c.length operand pos gap s generalizing d with
  | case1 operand pos gap s hnil =>
    obtain rfl : d = 0 := Option.some.inj h.nests
    subst hgap
    exact passes_lastGap hs hpos hnil h.found h.ends.1 u
  | case2 operand pos gap s b rest hcons l lo hi after =>
    rename_i ih
    obtain ⟨hfindings, hproblem, e, hbraces, hrest⟩ := h.behind
    obtain ⟨ps, hread⟩ := Gap.exists_reads_drop s
    rw [← hgap, hcons] at hread
    have hdrop : c.drop lo = b :: rest := by rw [← hcons, ← hs, List.drop_drop]
    have hafter : c.drop hi = after := by
      rw [show hi = lo + (l.more + 1) by omega, ← List.drop_drop, hdrop, List.drop_succ_cons]
    have hhi : hi ≤ c.length := by
      have hlen := congrArg List.length hdrop
      rw [List.length_drop, List.length_cons] at hlen
      have : l.more ≤ rest.length := Lexeme.more_read_le .typeScript operand b rest
      omega
    have hregex : l.kind = .regexLit → Bare after (b :: rest.take l.more) ∧
        nesting 0 (b :: rest.take l.more) = some 0 := by
      intro hkind
      obtain ⟨hbare, hnests⟩ := h.regex _ List.mem_cons_self hkind
      exact ⟨hafter ▸ hbare, hnests⟩
    -- the gap, the token, and what is behind it
    have hgapText := Open.passes_row (d := d) (hread.fill pos)
      (hread.closed (Gap.closed_of_findings hfindings))
      (fun body => (hread.fill 1).not_mem_hashBang Nat.one_pos) (by simp) u
    have htoken := Lexeme.passes_read rfl hread.stops (Lexeme.closed_of_findings hproblem) hregex
      hbraces u
    have hbehind := ih hafter hhi rfl hrest
    have htext : s = Trivia.row ps ++ ((b :: rest.take l.more) ++ after) := by
      rw [hread.text, List.cons_append, List.take_append_drop]
    rw [htext]
    refine Open.Passes.append ?_ (htoken.append hbehind)
    rwa [List.cons_append, List.take_append_drop]

/-- A source without a finding and without a first comment is read from its first gap on. -/
theorem lex_eq_lexFrom {dialect : Dialect} {c : Bytes} (hfound : (lex dialect c).found = [])
    (hfirst : c.take 2 ≠ [Byte.hash, bang]) :
    lex dialect c = lexFrom dialect c.length true 0 (Gap.read c) c := by
  unfold lex at hfound ⊢
  split at hfound
  · exact absurd hfound (by simp)
  · rw [Gap.readFirst, if_neg hfirst]

/-- **Code between braces ends at its own brace**, in whatever the braces stand and whatever
follows, if each of its regular expressions reads as code. -/
theorem closes_of_isCode {c : Bytes} (hc : IsCode c) (hfirst : c.take 2 ≠ [Byte.hash, bang])
    (hregex : ∀ t ∈ (lex .typeScript c).tokens, t.kind = .regexLit → t.ReadsAsCode c) :
    (∀ rest, bracedWidth? (c ++ closeBrace :: rest) = some (c.length + 1)) ∧
      ∀ (n : Nat) (below : List Open) (rest : Bytes),
        Open.scanFrom n (.code 0 :: below) (c ++ closeBrace :: rest) =
          Open.scanFrom (n + (c.length + 1)) below rest := by
  have hrest : RestOfCode c 0 0 (lexFrom .typeScript c.length true 0 (Gap.read c) c) :=
    lex_eq_lexFrom hc.found hfirst ▸ ⟨hc.found, hc.nests, hc.ends, hregex⟩
  have hpasses : ∀ rest, Open.Passes [.code 0] [] (c ++ [closeBrace]) rest := fun rest =>
    (passes_lexFrom rfl (Nat.zero_le _) rfl hrest rest).append (Open.passes_codeEnd rest)
  have hscan : ∀ (n : Nat) (below : List Open) (rest : Bytes),
      Open.scanFrom n (.code 0 :: below) (c ++ closeBrace :: rest) =
        Open.scanFrom (n + (c.length + 1)) below rest := by
    intro n below rest
    have := hpasses rest n below
    rwa [List.append_assoc, List.length_append] at this
  refine ⟨fun rest => ?_, hscan⟩
  rw [bracedWidth?, hscan, Open.scanFrom, Nat.zero_add]

namespace BracedSample

/-- A substitution with braces in a string, in another template, in a comment and in a regular
expression. -/
def mixedCode : Bytes :=
  bytes "\x7b a: '\x7d', b: `$\x7b '`' \x7d\x7d` \x7d // \x7d\n [/[a-z]\x7b2\x7d/g]"

/-- A line that is skipped at the start of a source, with a brace in it. -/
def hashBangLine : Bytes := bytes "#!\x7b\n"

/-- A regular expression with one brace. -/
def braceRegex : Bytes := bytes "/\x7b/"

end BracedSample

open BracedSample in
/-- A code with a string, a comment, a template and nested braces. -/
theorem closes_of_isCode_sample :
    IsCode mixedCode ∧ mixedCode.take 2 ≠ [Byte.hash, bang] ∧
      (∀ t ∈ (lex .typeScript mixedCode).tokens, t.kind = .regexLit → t.ReadsAsCode mixedCode) ∧
      bracedWidth? (mixedCode ++ closeBrace :: bytes "`\n") = some (mixedCode.length + 1) := by
  have hc : IsCode mixedCode :=
    .of_not_mem (by decide +kernel) (by decide +kernel) (by decide +kernel)
  have hfirst : mixedCode.take 2 ≠ [Byte.hash, bang] := by decide +kernel
  have hregex : ∀ t ∈ (lex .typeScript mixedCode).tokens, t.kind = .regexLit →
      t.ReadsAsCode mixedCode := by
    decide +kernel
  exact ⟨hc, hfirst, hregex, (closes_of_isCode hc hfirst hregex).1 _⟩

open BracedSample in
/-- A `#!` line is none behind a brace, and in a regular expression the scanner counts a brace. -/
theorem not_closes_samples :
    (IsCode hashBangLine ∧ ¬ ∀ rest,
        bracedWidth? (hashBangLine ++ closeBrace :: rest) = some (hashBangLine.length + 1)) ∧
      (IsCode braceRegex ∧ ¬ ∀ rest,
        bracedWidth? (braceRegex ++ closeBrace :: rest) = some (braceRegex.length + 1)) := by
  have hline : IsCode hashBangLine :=
    .of_not_mem (by decide +kernel) (by decide +kernel) (by decide +kernel)
  have hregex : IsCode braceRegex :=
    .of_not_mem (by decide +kernel) (by decide +kernel) (by decide +kernel)
  refine ⟨⟨hline, fun h => ?_⟩, hregex, fun h => ?_⟩
  · exact absurd (h []) (by decide +kernel)
  · exact absurd (h []) (by decide +kernel)

end SignatureLedger
