import SignatureLedger.Proofs.Declaration.Names
import SignatureLedger.Proofs.Declaration.Twin.Stretch

/-!
# Parses abreast

Two parses of twin token lists are abreast when both are quiet and have taken the same number of
tokens. A move keeps them so (`Runs.InStep`), as long as both parses stay quiet and leave their
tails. Moves in step can be made one after the other and chosen by tests of the next token, so that
each function of the parser is in step as soon as its parts are.
-/

namespace SignatureLedger

open SignatureLedger.Parser

namespace Parser

variable {p q : Parser} {n : Nat}

/-- An advance of a quiet parser is quiet. -/
theorem Quiet.advance (h : Quiet p) (n : Nat) : Quiet (p.advance n) :=
  ⟨h.listens, h.found, h.seen, h.running⟩

/-- The parse is quiet and has not come to the tail `x`. -/
structure Keeps (x : List Token) (p : Parser) : Prop where
  quiet : Quiet p
  tail : x.length ≤ p.left

/-- What is kept further on is kept on the way to it. -/
theorem Keeps.of_reaches {x : List Token} (h : Reaches p q) (hq : Keeps x q) : Keeps x p :=
  ⟨.of_reaches h hq.quiet, Nat.le_trans hq.tail (left_le_of_reaches h)⟩

/-- A kept tail is not reached by the advance. -/
theorem Keeps.leaves {x : List Token} (h : Keeps x (p.advance n)) : Leaves x n p.ahead := by
  intro hne
  have hlen := h.tail
  have hpos := List.length_pos_iff.mpr hne
  rw [left_advance] at hlen
  show n + x.length ≤ p.left
  omega

end Parser

/-! ## Two parses -/

/-- The starts of two parses whose tokens are twins up to their tails. Nothing is wrong with either
so far. -/
structure Runs where
  start : Parser
  start' : Parser
  tail : List Token
  tail' : List Token
  quiet : Quiet start
  quiet' : Quiet start'
  tails : Tails tail tail'
  twins : Twins tail tail' start.ahead start'.ahead

namespace Runs

variable (r : Runs)

/-- Tokens in the same place of both parses, the first tokens of the tails and the end markers among
them. -/
def Matched (t t' : Token) : Prop :=
  ∃ n, n + r.tail.length ≤ r.start.left ∧ t = r.start.cursor.peekAt n ∧ t' = r.start'.cursor.peekAt n

/-- Tokens before the tails in the same place of both parses; the very first ones count also where
nothing is before the tails. -/
def Inner (t t' : Token) : Prop :=
  ∃ n, n ≤ r.start.left - r.tail.length - 1 ∧ t = r.start.cursor.peekAt n ∧
    t' = r.start'.cursor.peekAt n

/-- Both parses are at the same place, before the tails. -/
structure Abreast (p p' : Parser) : Prop where
  placed : ∃ n, n + r.tail.length ≤ r.start.left ∧ p = r.start.advance n ∧ p' = r.start'.advance n
  previous : r.Inner p.previous p'.previous

/-- The move takes both parses to the same place, if both stay quiet and before the tails. -/
def InStep (f : Parser → Parser) (p p' : Parser) : Prop :=
  r.Abreast p p' → Keeps r.tail (f p) → Keeps r.tail' (f p') → r.Abreast (f p) (f p')

variable {r} {t t' : Token} {p p' : Parser} {n : Nat}

/-- Both runs have as many tokens before their tails. -/
theorem left_start : r.start.left + r.tail'.length = r.start'.left + r.tail.length :=
  r.twins.length_add

/-- As far as the tail, the two cursors show the same tokens. -/
theorem peekAt_same (hx : Tails r.tail r.tail') {q q' : Parser}
    (h : Twins r.tail r.tail' q.ahead q'.ahead) (hn : Leaves r.tail n q.ahead) :
    Token.Same (q.cursor.peekAt n) (q'.cursor.peekAt n) := by
  have hget := h.getElem? hx hn
  rw [Cursor.peekAt, Cursor.peekAt, List.getD_eq_getElem?_getD, List.getD_eq_getElem?_getD]
  show Token.Same (q.ahead[n]?.getD _) (q'.ahead[n]?.getD _)
  generalize q.ahead[n]? = a at hget ⊢
  generalize q'.ahead[n]? = a' at hget ⊢
  cases hget with
  | none => exact ⟨⟨_, _⟩, rfl⟩
  | some hsame => exact hsame

/-- Matched tokens are the same. -/
theorem Matched.same (h : r.Matched t t') : t.Same t' := by
  obtain ⟨n, hn, rfl, rfl⟩ := h
  exact peekAt_same r.tails r.twins fun _ => hn

namespace Abreast

variable (h : r.Abreast p p')

include h

theorem source : p.source = r.start.source := by
  obtain ⟨n, -, rfl, -⟩ := h.placed
  rfl

theorem source' : p'.source = r.start'.source := by
  obtain ⟨n, -, -, rfl⟩ := h.placed
  rfl

theorem quiet : Quiet p := by
  obtain ⟨n, -, rfl, -⟩ := h.placed
  exact r.quiet.advance n

theorem quiet' : Quiet p' := by
  obtain ⟨n, -, -, rfl⟩ := h.placed
  exact r.quiet'.advance n

theorem twins : Twins r.tail r.tail' p.ahead p'.ahead := by
  obtain ⟨n, hn, rfl, rfl⟩ := h.placed
  rw [ahead_advance, ahead_advance]
  exact r.twins.drop r.tails fun _ => hn

/-- Two parsers abreast have as many tokens before their tails. -/
theorem left : p.left + r.tail'.length = p'.left + r.tail.length := h.twins.length_add

theorem keeps : Keeps r.tail p := ⟨h.quiet, h.twins.length_le⟩

theorem keeps' : Keeps r.tail' p' := ⟨h.quiet', h.twins.symm.length_le⟩

theorem halted : p'.halted = p.halted := h.quiet'.running.trans h.quiet.running.symm

/-! ### Tests -/

/-- The tokens up to the first one of the tails. -/
theorem peekAt (hn : n + r.tail.length ≤ p.left) :
    r.Matched (p.cursor.peekAt n) (p'.cursor.peekAt n) := by
  obtain ⟨m, hm, rfl, rfl⟩ := h.placed
  rw [left_advance] at hn
  refine ⟨m + n, by omega, ?_, ?_⟩
  · exact Cursor.peekAt_advance _ _ _
  · exact Cursor.peekAt_advance _ _ _

/-- Two parsers abreast see matched tokens. -/
theorem peek : r.Matched p.peek p'.peek := by
  rw [Parser.peek, Parser.peek, Cursor.peek_eq_peekAt, Cursor.peek_eq_peekAt]
  exact h.peekAt (by rw [Nat.zero_add]; exact h.keeps.tail)

/-- What is asked of the next token has the same answer in both parses. -/
theorem test {α : Type} (P : Token → α) (hP : ∀ t s, P (Token.moved t s) = P t) :
    P p'.peek = P p.peek := h.peek.same.congr P hP

theorem isPunct (k : Punct) : p'.isPunct k = p.isPunct k := h.test (·.isPunct k) fun _ _ => rfl

theorem isKeyword (k : Keyword) : p'.isKeyword k = p.isKeyword k :=
  h.test (·.isKeyword k) fun _ _ => rfl

theorem isWord (w : String) : p'.isWord w = p.isWord w := h.test (·.isWord w) fun _ _ => rfl

theorem kind : p'.peek.kind = p.peek.kind := h.test (·.kind) fun _ _ => rfl

theorem lexeme : p'.peek.lexeme = p.peek.lexeme := h.test (·.lexeme) fun _ _ => rfl

theorem newlineBefore : p'.peek.newlineBefore = p.peek.newlineBefore :=
  h.test (·.newlineBefore) fun _ _ => rfl

/-- Two parsers abreast are at their ends, or neither is. -/
theorem atEnd : p'.atEnd = p.atEnd := by
  have hleft := h.left
  have hlen := h.keeps.tail
  have hlen' := h.keeps'.tail
  have hnil := r.tails.nil_iff
  rw [Bool.eq_iff_iff, atEnd_iff, atEnd_iff, ← List.length_eq_zero_iff, ← List.length_eq_zero_iff]
  rw [← List.length_eq_zero_iff, ← List.length_eq_zero_iff] at hnil
  show p'.left = 0 ↔ p.left = 0
  omega

/-- Before the tails the token behind a certain one is the same as well. -/
theorem left_of_peek (hb : p.isPunct .openBrace = false) (hend : p.atEnd = false) :
    1 + r.tail.length ≤ p.left := by
  have htwins := h.twins
  obtain ⟨t, ts, hp⟩ := exists_of_not_atEnd hend
  rw [isPunct_of_ahead hp] at hb
  show 1 + r.tail.length ≤ p.ahead.length
  rw [hp] at htwins ⊢
  rcases htwins.cases_cons with ⟨hx, -⟩ | ⟨s, ts', -, hrest⟩
  · -- the tails start with a brace
    have htails := r.tails
    rw [hx] at htails
    generalize r.tail' = x' at htails
    cases htails with
    | brace ht => simp [Token.isPunct, ht] at hb
  · have := hrest.length_le
    rw [List.length_cons]
    omega

/-- The next token, where one is taken before the tails. -/
theorem peek_inner (hlt : r.tail.length < p.left) : r.Inner p.peek p'.peek := by
  rw [Parser.peek, Parser.peek, Cursor.peek_eq_peekAt, Cursor.peek_eq_peekAt]
  obtain ⟨m, hm, rfl, rfl⟩ := h.placed
  rw [left_advance] at hlt
  exact ⟨m, by omega, Cursor.peekAt_advance _ _ _, Cursor.peekAt_advance _ _ _⟩

/-! ### Moves -/

/-- Two parsers abreast stay so over tokens before the tail. -/
theorem advance_of_le (hn : n + r.tail.length ≤ p.left) :
    r.Abreast (p.advance n) (p'.advance n) := by
  cases n with
  | zero => exact h
  | succ n =>
    obtain ⟨m, hm, rfl, rfl⟩ := h.placed
    rw [left_advance] at hn
    have hstart := left_start (r := r)
    refine ⟨⟨m + (n + 1), by omega, advance_advance _ _ _, advance_advance _ _ _⟩, ?_⟩
    rw [advance_advance, advance_advance]
    refine ⟨m + n, by omega, ?_, ?_⟩
    · exact Cursor.previous_advance_succ (show m + n < r.start.left by omega)
    · exact Cursor.previous_advance_succ (show m + n < r.start'.left by omega)

/-- Two parsers abreast stay so over an advance that keeps the tail. -/
theorem advance (hk : Keeps r.tail (p.advance n)) : r.Abreast (p.advance n) (p'.advance n) := by
  have hlen := hk.tail
  have hleft := h.left
  have hnil := r.tails.nil_iff
  rw [← List.length_eq_zero_iff, ← List.length_eq_zero_iff] at hnil
  rw [left_advance] at hlen
  by_cases hn : n + r.tail.length ≤ p.left
  · exact h.advance_of_le hn
  · -- both parses come to the end, where a step changes nothing
    rw [advance_of_left_le (p := p) (n := n) (by omega),
      advance_of_left_le (p := p') (n := n) (by omega), show p'.left = p.left by omega]
    exact h.advance_of_le (by omega)

end Abreast

/-! ## Moves in step -/

section InStep

variable {f g : Parser → Parser}

/-- Two ways in step, one after the other. -/
theorem InStep.comp (hf : r.InStep f p p') (hr : ∀ q, Reaches q (g q))
    (hg : r.InStep g (f p) (f p')) : r.InStep (fun q => g (f q)) p p' :=
  fun h hk hk' => hg (hf h (hk.of_reaches (hr _)) (hk'.of_reaches (hr _))) hk hk'

theorem InStep.congr (h : ∀ q, f q = g q) (hg : r.InStep g p p') : r.InStep f p p' := by
  rwa [show f = g from funext h]

/-- A test with the same answer chooses the same move in both parses. -/
theorem InStep.ite {t : Parser → Prop} [DecidablePred t] (ht : r.Abreast p p' → (t p' ↔ t p))
    (hf : t p → r.InStep f p p') (hg : ¬ t p → r.InStep g p p') :
    r.InStep (fun q => if t q then f q else g q) p p' := by
  intro h hk hk'
  dsimp only at hk hk' ⊢
  by_cases hp : t p
  · rw [if_pos ((ht h).mpr hp)] at hk' ⊢
    rw [if_pos hp] at hk ⊢
    exact hf hp h hk hk'
  · rw [if_neg fun h' => hp ((ht h).mp h')] at hk' ⊢
    rw [if_neg hp] at hk ⊢
    exact hg hp h hk hk'

/-- The second move may depend on a value that is the same in both parses. -/
theorem InStep.bind {α : Type} {f : Parser → α × Parser} {g : α → Parser → Parser}
    (hf : r.InStep (fun q => (f q).2) p p')
    (hval : r.Abreast p p' → Keeps r.tail (f p).2 → Keeps r.tail' (f p').2 → (f p').1 = (f p).1)
    (hr : ∀ a q, Reaches q (g a q)) (hg : r.InStep (g (f p).1) (f p).2 (f p').2) :
    r.InStep (fun q => g (f q).1 (f q).2) p p' := by
  intro h hk hk'
  have hk₁ := hk.of_reaches (hr _ _)
  have hk₂ := hk'.of_reaches (hr _ _)
  dsimp only at hk' ⊢
  rw [hval h hk₁ hk₂] at hk' ⊢
  exact hg (hf h hk₁ hk₂) hk hk'

/-- Where a move makes a report, there is nothing to compare. -/
theorem InStep.of_loud (h : ¬ Quiet (f p)) : r.InStep f p p' :=
  fun _ hk _ => absurd hk.quiet h

theorem inStep_id (p p' : Parser) : r.InStep (fun q => q) p p' := fun h _ _ => h

/-- A parse that has been given up is not quiet. -/
theorem InStep.of_halted (h : p.halted = true) : r.InStep (fun q => q) p p' :=
  .of_loud fun hq => absurd hq.running (by simp [h])

/-! ### Stretches -/

/-- A stretch that keeps the tail is closed before it. -/
theorem keeps_take {x : List Token} {e : Extent} (h : Keeps x (p.take e)) :
    p.take e = p.advance e.width ∧ e.Ends x p.ahead := by
  have hclosed := unclosed?_of_quiet h.quiet
  have htake := take_of_unclosed? hclosed p
  rw [htake] at h
  exact ⟨htake, hclosed, h.leaves⟩

/-- Two parsers abreast stay so over stretches that agree. -/
theorem Abreast.take {E E' : List Token → Extent} (h : r.Abreast p p')
    (hE : Extent.Agree E E' r.tail r.tail' p.ahead p'.ahead)
    (hk : Keeps r.tail (p.take (E p.ahead))) (hk' : Keeps r.tail' (p'.take (E' p'.ahead))) :
    r.Abreast (p.take (E p.ahead)) (p'.take (E' p'.ahead)) := by
  obtain ⟨htake, he⟩ := keeps_take hk
  obtain ⟨htake', he'⟩ := keeps_take hk'
  rw [htake] at hk ⊢
  rw [htake', hE he he']
  exact h.advance hk

/-- A stretch that agrees on all twins is taken in step. -/
theorem inStep_take {E : List Token → Extent}
    (hE : ∀ ts ts', Twins r.tail r.tail' ts ts' → Extent.Agree E E r.tail r.tail' ts ts')
    (p p' : Parser) : r.InStep (fun q => q.take (E q.ahead)) p p' :=
  fun h hk hk' => h.take (hE _ _ h.twins) hk hk'

theorem inStep_takeGroup (p p' : Parser) : r.InStep takeGroup p p' :=
  .congr takeGroup_eq (inStep_take (fun _ _ h => h.bracketed? r.tails) p p')

theorem inStep_takeAngle (p p' : Parser) : r.InStep takeAngle p p' :=
  inStep_take (fun _ _ h => h.angle? r.tails) p p'

theorem inStep_takeParens (p p' : Parser) : r.InStep takeParens p p' :=
  inStep_take (fun _ _ h => h.parens? r.tails) p p'

theorem inStep_takeArrays (p p' : Parser) : r.InStep takeArrays p p' :=
  inStep_take (fun _ _ h => h.arraySuffix r.tails) p p'

theorem inStep_skipDecorators (p p' : Parser) : r.InStep skipDecorators p p' :=
  inStep_take (fun _ _ h => h.decorators r.tails) p p'

/-! ### Single tokens -/

theorem inStep_bump (p p' : Parser) : r.InStep bump p p' := fun h hk _ => h.advance (n := 1) hk

theorem inStep_skipPunct (k : Punct) (p p' : Parser) : r.InStep (skipPunct · k) p p' := by
  apply InStep.ite
  · intro h
    rw [h.isPunct]
  · intro _
    exact inStep_bump p p'
  · intro _
    exact inStep_id p p'

/-- Two parsers abreast expect a sign in step. -/
theorem inStep_expect (k : Punct) (p p' : Parser) : r.InStep (fun q => (q.expect k).2) p p' := by
  intro h hk hk'
  have heq := (expect_of_quiet hk.quiet).2
  have heq' := (expect_of_quiet hk'.quiet).2
  dsimp only at hk hk' ⊢
  rw [heq] at hk ⊢
  rw [heq']
  exact h.advance (n := 1) hk

/-- Behind a required punctuator. -/
theorem InStep.expect_then {k : Punct} (hr : ∀ q, Reaches q (f q))
    (hf : p.isPunct k = true → r.InStep f p.bump p'.bump) :
    r.InStep (fun q => if (q.expect k).1 then f (q.expect k).2 else (q.expect k).2) p p' := by
  have hback : ∀ q : Parser, Reaches (q.expect k).2
      (if (q.expect k).1 then f (q.expect k).2 else (q.expect k).2) :=
    fun q => .ite (fun _ => hr _) (fun _ => .refl)
  intro h hk hk'
  have hq := hk.of_reaches (hback p)
  have hq' := hk'.of_reaches (hback p')
  obtain ⟨hp, heq⟩ := expect_of_quiet hq.quiet
  obtain ⟨-, heq'⟩ := expect_of_quiet hq'.quiet
  have hbump := inStep_expect k p p' h hq hq'
  dsimp only at hk hk' hbump ⊢
  rw [heq, heq'] at hbump
  rw [heq, if_pos rfl] at hk ⊢
  rw [heq', if_pos rfl] at hk' ⊢
  exact hf hp hbump hk hk'

/-- Two parsers abreast finish an item in step. -/
theorem inStep_finishItem (p p' : Parser) : r.InStep finishItem p p' := by
  apply InStep.ite
  · intro h
    rw [h.isPunct]
  · intro _
    exact inStep_bump p p'
  intro _
  apply InStep.ite
  · intro h
    rw [h.atEnd, h.isPunct, h.newlineBefore]
  · intro _
    exact inStep_id p p'
  · intro _
    exact .of_loud (not_quiet_of_report ((reaches_recover _ _).trans (reaches_skipPunct _ _)))

end InStep

end Runs

end SignatureLedger
