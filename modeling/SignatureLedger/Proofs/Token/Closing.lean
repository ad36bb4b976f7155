import SignatureLedger.Proofs.Token.Trivia

/-!
# What closes a literal

The scanner of templates and braced code goes from one stack of open constructs to another through a
piece of text (`Open.Passes`). Such steps compose, and what is below in the stack does not matter.
Where the scanner closes a whole stack, it does so through the same text whatever follows
(`Open.exists_passes`).
-/

namespace SignatureLedger

open Byte

/-! ## Strings -/

namespace Quoted

variable {oneLine : Bool} {q b : UInt8} {n : Nat}

/-- A byte that is no backslash ends the string, ends the line or is taken. -/
theorem scanFrom_of_ne_backslash (hb : b ≠ backslash) (s : Bytes) :
    scanFrom oneLine q n (b :: s) =
      if b = q then ⟨n + 1, true⟩
      else if b = lineFeed ∧ oneLine then ⟨n, false⟩
      else scanFrom oneLine q (n + 1) s := by
  rw [scanFrom.eq_def]
  exact if_neg hb

/-- A scan of a string depends on what it takes, and where the line ends it on the byte behind. -/
theorem exists_scanFrom (oneLine : Bool) (q : UInt8) (n : Nat) (s : Bytes) :
    ∃ x y, s = x ++ y ∧ (scanFrom oneLine q n s).width = n + x.length ∧
      ∀ z, ((scanFrom oneLine q n s).closed = true ∨ y ≠ [] ∧ z.head? = y.head?) →
        scanFrom oneLine q n (x ++ z) = scanFrom oneLine q n s := by
  fun_induction scanFrom oneLine q n s with
  | case1 n => exact ⟨[], [], rfl, rfl, fun z hz => by simp at hz⟩
  | case2 n => exact ⟨[backslash], [], rfl, rfl, fun z hz => by simp at hz⟩
  | case3 n c rest ih =>
    obtain ⟨x, y, rfl, hwidth, hscan⟩ := ih
    refine ⟨backslash :: c :: x, y, rfl, ?_, fun z hz => ?_⟩
    · rw [hwidth, List.length_cons, List.length_cons]
      omega
    · rw [← hscan z hz, List.cons_append, List.cons_append, scanFrom, if_pos rfl]
  | case4 n rest hb =>
    refine ⟨[q], rest, rfl, rfl, fun z _ => ?_⟩
    rw [List.cons_append, scanFrom_of_ne_backslash hb, if_pos rfl]
  | case5 n b rest hb hq hline =>
    refine ⟨[], b :: rest, rfl, rfl, fun z hz => ?_⟩
    obtain ⟨z, rfl⟩ := List.head?_eq_some_iff.mp (hz.resolve_left (by simp)).2
    rw [List.nil_append, scanFrom_of_ne_backslash hb, if_neg hq, if_pos hline]
  | case6 n b rest hb hq hline ih =>
    obtain ⟨x, y, rfl, hwidth, hscan⟩ := ih
    refine ⟨b :: x, y, rfl, ?_, fun z hz => ?_⟩
    · rw [hwidth, List.length_cons]
      omega
    · rw [← hscan z hz, List.cons_append, scanFrom_of_ne_backslash hb, if_neg hq, if_neg hline]

end Quoted

/-! ## Steps of the scanner -/

namespace Open

/-- The scanner takes the text `s` before `t`, and the constructs on top of the stack change. -/
def Passes (before after : List Open) (s t : Bytes) : Prop :=
  ∀ (n : Nat) (below : List Open),
    scanFrom n (before ++ below) (s ++ t) = scanFrom (n + s.length) (after ++ below) t

namespace Passes

variable {a b c : List Open} {s t u : Bytes}

/-- No text passes no step. -/
theorem nil (a : List Open) (t : Bytes) : Passes a a [] t := fun _ _ => rfl

/-- Two texts are passed one behind the other. -/
theorem append (hs : Passes a b s (t ++ u)) (ht : Passes b c t u) : Passes a c (s ++ t) u := by
  intro n below
  rw [List.append_assoc, hs, ht, List.length_append, Nat.add_assoc]

/-- Below the constructs that change there may be others. -/
theorem frame (h : Passes a b s t) (below : List Open) : Passes (a ++ below) (b ++ below) s t := by
  intro n rest
  rw [List.append_assoc, List.append_assoc]
  exact h n (below ++ rest)

/-- What is open can not be closed by nothing. -/
theorem ne_nil {top : Open} (h : ∀ t, Passes (top :: a) [] s t) : s ≠ [] := by
  rintro rfl
  have := h [] 0 []
  simp [scanFrom] at this

end Passes

variable {t x body : Bytes} {b : UInt8} {d : Nat}

/-! ### In a template -/

/-- An escaped byte does not end the template. -/
theorem passes_escape (b : UInt8) (t : Bytes) :
    Passes [.template] [.template] [backslash, b] t := by
  intro n below
  rw [List.singleton_append, List.cons_append, scanFrom]
  rfl

/-- A back quote ends the template. -/
theorem passes_templateEnd (t : Bytes) : Passes [.template] [] [backquote] t := by
  intro n below
  rw [List.singleton_append, List.singleton_append, scanFrom]
  rfl

/-- A dollar and a brace open code in the template. -/
theorem passes_substitution (t : Bytes) :
    Passes [.template] [.code 0, .template] [dollar, openBrace] t := by
  intro n below
  rw [List.singleton_append, List.cons_append, scanFrom]
  rfl

/-- Any other byte belongs to the template. -/
theorem passes_templateByte (hescape : b ≠ backslash) (hend : b ≠ backquote)
    (hcode : ¬ (b = dollar ∧ t.head? = some openBrace)) :
    Passes [.template] [.template] [b] t := by
  intro n below
  rw [List.singleton_append, List.singleton_append, scanFrom]
  simp only [if_neg hescape, if_neg hend, if_neg hcode]
  rfl

/-! ### In code -/

/-- In code a string is passed as a whole. -/
theorem passes_quoted (hb : b = singleQuote ∨ b = doubleQuote)
    (hx : (Quoted.scan true b (x ++ t)).width = x.length) :
    Passes [.code d] [.code d] (b :: x) t := by
  intro n below
  rw [List.singleton_append, List.cons_append, scanFrom.eq_def]
  dsimp only
  simp only [if_pos hb, hx, List.drop_left]
  rw [List.length_cons, Nat.add_assoc, Nat.add_comm 1]

/-- In code a back quote opens a template. -/
theorem passes_backquote (t : Bytes) : Passes [.code d] [.template, .code d] [backquote] t := by
  intro n below
  rw [List.singleton_append, List.singleton_append, scanFrom.eq_def]
  dsimp only
  rfl

/-- In code a comment is passed up to the end of its line. -/
theorem passes_lineComment (hbody : lineFeed ∉ body) (ht : Trivia.AtLineEnd t) :
    Passes [.code d] [.code d] (slash :: slash :: body) t := by
  intro n below
  have hrun : Bytes.run (· != lineFeed) (slash :: body ++ t) = (slash :: body).length :=
    Gap.run_to_lineEnd (List.not_mem_cons_of_ne_of_not_mem (by decide) hbody) ht
  rw [List.singleton_append, List.cons_append, scanFrom.eq_def]
  dsimp only
  simp only [show ¬ (slash = singleQuote ∨ slash = doubleQuote) by decide, if_false,
    show slash ≠ backquote by decide, List.cons_append, List.head?_cons, and_self, if_true]
  rw [← List.cons_append, hrun, List.drop_left, List.length_cons, Nat.add_assoc, Nat.add_comm 1]
  rfl

/-- In code a block comment is passed as a whole. -/
theorem passes_blockComment (hbody : ¬ [star, slash] <:+: body) (t : Bytes) :
    Passes [.code d] [.code d] (Trivia.blockComment body).text t := by
  intro n below
  have hlen : n + 2 + (body.length + 2) = n + (Trivia.blockComment body).text.length := by
    rw [Trivia.length_text_blockComment]
    omega
  rw [Trivia.text_blockComment_append, List.singleton_append, scanFrom.eq_def]
  dsimp only
  simp only [show ¬ (slash = singleQuote ∨ slash = doubleQuote) by decide, if_false,
    show slash ≠ backquote by decide, List.head?_cons, Option.some_inj,
    show star ≠ slash by decide, and_false, and_self, if_true, List.drop_succ_cons, List.drop_zero]
  rw [commentWidth?_closed hbody]
  dsimp only
  rw [Trivia.drop_blockComment, hlen]

/-- A brace opens a block in the code. -/
theorem passes_openBrace (t : Bytes) : Passes [.code d] [.code (d + 1)] [openBrace] t := by
  intro n below
  rw [List.singleton_append, List.singleton_append, scanFrom.eq_def]
  dsimp only
  rfl

/-- A brace closes the innermost block. -/
theorem passes_closeBrace (t : Bytes) : Passes [.code (d + 1)] [.code d] [closeBrace] t := by
  intro n below
  rw [List.singleton_append, List.singleton_append, scanFrom.eq_def]
  dsimp only
  rfl

/-- A brace outside all blocks ends the code. -/
theorem passes_codeEnd (t : Bytes) : Passes [.code 0] [] [closeBrace] t := by
  intro n below
  rw [List.singleton_append, List.singleton_append, scanFrom.eq_def]
  dsimp only
  rfl

/-- A byte that opens nothing and closes nothing. -/
theorem passes_codeByte (hquote : ¬ (b = singleQuote ∨ b = doubleQuote)) (htemplate : b ≠ backquote)
    (hcomment : ¬ OpensComment (b :: t)) (hopen : b ≠ openBrace) (hclose : b ≠ closeBrace) :
    Passes [.code d] [.code d] [b] t := by
  intro n below
  rw [opensComment_cons] at hcomment
  rw [List.singleton_append, List.singleton_append, scanFrom.eq_def]
  dsimp only
  simp only [if_neg hquote, if_neg htemplate, if_neg hopen, if_neg hclose,
    if_neg fun h : b = slash ∧ t.head? = some slash => hcomment ⟨h.1, .inl h.2⟩,
    if_neg fun h : b = slash ∧ t.head? = some star => hcomment ⟨h.1, .inr h.2⟩]
  rfl

/-! ## Whole stacks -/

/-- From the offset `n` on, what stands in `s` up to the offset `w` closes the stack, whatever
follows. -/
def Closes (n w : Nat) (stack : List Open) (s : Bytes) : Prop :=
  ∃ v u, s = v ++ u ∧ w = n + v.length ∧ ∀ z, Passes stack [] v z

section Closes

variable {n w : Nat} {before after below : List Open} {s t rest : Bytes}

/-- A step on the top of a stack, and then the rest. What is still open behind the step is closed by
a text that starts like the one behind the step. -/
theorem Closes.step
    (hstep : ∀ z : Bytes, (after ++ below ≠ [] → z ≠ [] ∧ z.head? = t.head?) →
      Passes before after s z)
    (h : Closes (n + s.length) w (after ++ below) t) : Closes n w (before ++ below) (s ++ t) := by
  obtain ⟨v, u, rfl, hw, hv⟩ := h
  refine ⟨s ++ v, u, (List.append_assoc _ _ _).symm, ?_, fun z => ?_⟩
  · rw [hw, List.length_append, Nat.add_assoc]
  have hs : Passes before after s (v ++ z) := by
    refine hstep _ fun hne => ?_
    obtain ⟨top, rest, hcons⟩ := List.exists_cons_of_ne_nil hne
    rw [hcons] at hv
    obtain ⟨b, v, rfl⟩ := List.exists_cons_of_ne_nil (Passes.ne_nil hv)
    exact ⟨by simp, rfl⟩
  exact (hs.frame below).append (hv z)

/-- A string in the code. One that is not closed ends before a line feed, and the text goes on. -/
theorem Closes.quoted (hb : b = singleQuote ∨ b = doubleQuote) {k : Nat}
    (hk : k = (Quoted.scan true b rest).width) (hne : rest.drop k ≠ [])
    (h : Closes (n + 1 + k) w (.code d :: below) (rest.drop k)) :
    Closes n w (.code d :: below) (b :: rest) := by
  obtain ⟨x, y, rfl, hwidth, hscan⟩ := Quoted.exists_scanFrom true b 0 rest
  rw [Nat.zero_add] at hwidth
  obtain rfl : k = x.length := hk.trans hwidth
  rw [List.drop_left] at h hne
  have hlen : n + 1 + x.length = n + (b :: x).length := by
    rw [List.length_cons]
    omega
  rw [hlen] at h
  refine h.step (fun z hz => passes_quoted hb ?_)
  exact (congrArg Quoted.width (hscan z (.inr ⟨hne, (hz (by simp)).2⟩))).trans hwidth

/-- A comment up to the end of its line. -/
theorem Closes.lineComment {k : Nat}
    (hk : k = Bytes.run (· != lineFeed) (slash :: rest))
    (h : Closes (n + 1 + k) w (.code d :: below) ((slash :: rest).drop k)) :
    Closes n w (.code d :: below) (slash :: slash :: rest) := by
  obtain ⟨body, y, rfl, hrun, hbody, hy⟩ := Gap.exists_run_to_lineEnd rest
  obtain rfl : k = (slash :: body).length := by
    rw [hk, List.length_cons, ← hrun]
    exact congrArg List.length (List.takeWhile_cons_of_pos (by decide))
  have hlen : n + 1 + (slash :: body).length = n + (slash :: slash :: body).length := by
    simp only [List.length_cons]
    omega
  rw [hlen, ← List.cons_append, List.drop_left] at h
  refine h.step (fun z hz => passes_lineComment hbody fun b hb => ?_)
  exact hy b ((hz (by simp)).2 ▸ hb)

/-- A comment that is closed. -/
theorem Closes.blockComment {k : Nat} (hk : commentWidth? rest = some k)
    (h : Closes (n + 2 + k) w (.code d :: below) ((star :: rest).drop (1 + k))) :
    Closes n w (.code d :: below) (slash :: star :: rest) := by
  obtain ⟨body, y, rfl, rfl, hbody⟩ := exists_of_commentWidth? hk
  have hlen : n + 2 + (body.length + 2) = n + (Trivia.blockComment body).text.length := by
    rw [Trivia.length_text_blockComment]
    omega
  rw [hlen, Trivia.drop_blockComment] at h
  rw [← Trivia.text_blockComment_append]
  exact h.step (fun z _ => passes_blockComment hbody z)

end Closes

/-- **What closes a stack closes it whatever follows.** By induction on the scan, with one step of
`Passes` for each of its cases. -/
theorem exists_passes {n w : Nat} {stack : List Open} {s : Bytes}
    (h : scanFrom n stack s = some w) : Closes n w stack s := by
  fun_induction scanFrom n stack s with
  | case1 n s => exact ⟨[], s, rfl, (Option.some.inj h).symm, Passes.nil []⟩
  | case2 | case10 => exact absurd h (by simp)
  | case3 n below rest ih =>
    cases rest with
    | nil => exact absurd h (by simp [scanFrom])
    | cons c rest => exact (ih h).step (fun z _ => passes_escape c z)
  | case4 n below rest _ ih => exact (ih h).step (fun z _ => passes_templateEnd z)
  | case5 n below b rest _ _ hcode ih =>
    obtain ⟨rfl, hbrace⟩ := hcode
    obtain ⟨rest, rfl⟩ := List.head?_eq_some_iff.mp hbrace
    exact (ih h).step (fun z _ => passes_substitution z)
  | case6 n below b rest hescape hend hcode ih =>
    refine (ih h).step (fun z hz => passes_templateByte hescape hend ?_)
    rwa [(hz (by simp)).2]
  | case7 n below b rest inner hb k ih =>
    refine (ih h).quoted hb rfl ?_
    intro hnil
    rw [hnil] at h
    exact absurd h (by simp [scanFrom])
  | case8 n below rest inner _ ih => exact (ih h).step (fun z _ => passes_backquote z)
  | case9 n below b rest inner _ _ hcomment k ih =>
    obtain ⟨rfl, hslash⟩ := hcomment
    obtain ⟨rest, rfl⟩ := List.head?_eq_some_iff.mp hslash
    exact (ih h).lineComment rfl
  | case11 n below b rest inner _ _ _ hcomment k hk ih =>
    obtain ⟨rfl, hstar⟩ := hcomment
    obtain ⟨rest, rfl⟩ := List.head?_eq_some_iff.mp hstar
    exact (ih h).blockComment hk
  | case12 n below rest inner _ _ _ _ ih => exact (ih h).step (fun z _ => passes_openBrace z)
  | case13 n below rest _ _ _ _ _ ih => exact (ih h).step (fun z _ => passes_codeEnd z)
  | case14 n below rest _ _ _ _ inner _ ih => exact (ih h).step (fun z _ => passes_closeBrace z)
  | case15 n below b rest inner hquote htemplate hline hblock hopen hclose ih =>
    refine (ih h).step (fun z hz => passes_codeByte hquote htemplate ?_ hopen hclose)
    rw [opensComment_cons, (hz (by simp)).2]
    rintro ⟨hb, hslash | hstar⟩
    · exact hline ⟨hb, hslash⟩
    · exact hblock ⟨hb, hstar⟩

end Open

end SignatureLedger
