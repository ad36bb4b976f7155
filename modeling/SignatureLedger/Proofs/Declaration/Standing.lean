import SignatureLedger.Proofs.Declaration.Bodies
import SignatureLedger.Proofs.Declaration.Reaches
import SignatureLedger.Proofs.Declaration.WellNested
import SignatureLedger.Proofs.Token.Tiles

/-!
# Where a parse stands

A parse stands at the end of the token that it has taken last, its frontier, and what is left lies
behind the frontier (`Stands`). The frontier only moves forward (`Stands.frontier_le`). Spans are
formed from frontiers and from tokens that come next, so they lie between two frontiers.
-/

namespace SignatureLedger

namespace Parser

variable {source : Bytes} {p q r : Parser} {lo : Nat}

/-! ## The frontier -/

/-- The offset where the last token taken ends. -/
def frontier (p : Parser) : Nat := (p.cursor.behind.head?.map (·.span.hi)).getD 0

/-- The tokens that are left lie in the source behind the frontier. -/
structure Stands (source : Bytes) (p : Parser) : Prop where
  tiles : Tiles source p.frontier p.ahead
  within : p.frontier ≤ source.length

/-- Behind a step the frontier is the end of the token. -/
theorem frontier_bump {t : Token} {ts : List Token} (h : p.ahead = t :: ts) :
    p.bump.frontier = t.span.hi := by
  rw [frontier, bump, Cursor.bump, show p.cursor.ahead = t :: ts from h]
  rfl

/-- At the end a step changes nothing. -/
theorem bump_of_atEnd (h : p.ahead = []) : p.bump = p := by
  rw [bump, Cursor.bump, show p.cursor.ahead = [] from h]

/-- The frontier is that of the cursor. -/
theorem frontier_eq_of_cursor_eq (h : q.cursor = p.cursor) : q.frontier = p.frontier := by
  rw [frontier, frontier, h]

/-- Where a parser stands depends on its cursor alone. -/
theorem Stands.of_cursor_eq (h : Stands source p) (hq : q.cursor = p.cursor) :
    Stands source q := by
  have hfront := frontier_eq_of_cursor_eq hq
  refine ⟨?_, hfront ▸ h.within⟩
  rw [hfront, ahead, hq]
  exact h.tiles

/-- One token on. -/
theorem Stands.bump (h : Stands source p) :
    Stands source p.bump ∧ p.frontier ≤ p.bump.frontier := by
  cases hp : p.ahead with
  | nil =>
    rw [bump_of_atEnd hp]
    exact ⟨h, Nat.le_refl _⟩
  | cons t ts =>
    have htiles := h.tiles
    rw [hp] at htiles
    cases htiles with
    | cons ht hts =>
      have hfront := frontier_bump hp
      refine ⟨⟨?_, hfront ▸ ht.within⟩, ?_⟩
      · rwa [hfront, ahead_bump_of_cons hp]
      · rw [hfront]
        exact Nat.le_trans ht.behind (Nat.le_of_lt ht.lt)

/-- An advance stands, and moves the frontier forwards only. -/
theorem Stands.advance (h : Stands source p) (n : Nat) :
    Stands source (p.advance n) ∧ p.frontier ≤ (p.advance n).frontier := by
  induction n generalizing p with
  | zero => exact ⟨h, Nat.le_refl _⟩
  | succ n ih =>
    have hrest := ih h.bump.1
    rw [advance_succ]
    exact ⟨hrest.1, Nat.le_trans h.bump.2 hrest.2⟩

/-- **A parse moves only forward.** -/
theorem Stands.of_reaches (h : Stands source p) (hr : Reaches p q) :
    Stands source q ∧ p.frontier ≤ q.frontier := by
  obtain ⟨n, hn⟩ := exists_cursor_of_reaches hr
  have hadvance := h.advance n
  exact ⟨hadvance.1.of_cursor_eq hn, frontier_eq_of_cursor_eq hn ▸ hadvance.2⟩

/-- Every way ends where a parser stands. -/
theorem Stands.reach (h : Stands source p) (hr : Reaches p q) : Stands source q :=
  (h.of_reaches hr).1

/-- No way moves the frontier back. -/
theorem Stands.frontier_le (h : Stands source p) (hr : Reaches p q) : p.frontier ≤ q.frontier :=
  (h.of_reaches hr).2

/-- Where a token has been taken, its end is the frontier. -/
theorem endOffset_eq (h : 0 < p.frontier) : p.endOffset = p.frontier := by
  unfold frontier at h ⊢
  rw [endOffset, previous, Cursor.previous]
  cases hb : p.cursor.behind with
  | nil =>
    rw [hb] at h
    exact absurd h (Nat.lt_irrefl 0)
  | cons t ts => rfl

/-! ## The token that comes next -/

/-- The next token lies between this frontier and the next one. -/
theorem Stands.peek (h : Stands source p) (hend : p.atEnd = false) :
    p.peek.span.Between p.frontier p.bump.frontier := by
  obtain ⟨t, ts, hp⟩ := exists_of_not_atEnd hend
  have htiles := h.tiles
  rw [hp] at htiles
  cases htiles with
  | cons ht hts =>
    rw [peek_of_ahead hp, frontier_bump hp]
    exact ⟨ht.behind, ht.lt, Nat.le_refl _⟩

/-- A way that does not end at the end does not start there. -/
theorem not_atEnd_of_reaches (hr : Reaches p q) (hq : q.atEnd = false) : p.atEnd = false := by
  obtain ⟨t, ts, hts⟩ := exists_of_not_atEnd hq
  rw [← Bool.not_eq_true, atEnd_iff]
  intro hnil
  have := suffix_of_reaches hr
  rw [hnil, hts] at this
  exact absurd (List.suffix_nil.mp this) (by simp)

/-- What comes next later does not start before what comes next now. -/
theorem Stands.peek_le (h : Stands source p) (hr : Reaches p q) (hq : q.atEnd = false) :
    p.peek.span.lo ≤ q.peek.span.lo := by
  obtain ⟨t, ts, hp⟩ := exists_of_not_atEnd (not_atEnd_of_reaches hr hq)
  obtain ⟨u, us, hu⟩ := exists_of_not_atEnd hq
  have hsuffix := suffix_of_reaches hr
  have htiles := h.tiles
  rw [hp] at hsuffix htiles
  rw [hu] at hsuffix
  obtain ⟨k, hk⟩ := List.mem_iff_getElem?.mp (hsuffix.subset List.mem_cons_self)
  rw [peek_of_ahead hp, peek_of_ahead hu]
  exact (htiles.first_le hk).1

/-- Behind a step the token that was ahead is the one before. -/
theorem previous_bump {t : Token} {ts : List Token} (hp : p.ahead = t :: ts) :
    p.bump.previous = t := by
  rw [previous, Parser.bump, Cursor.bump, show p.cursor.ahead = t :: ts from hp]
  rfl

/-- What is taken last is one of the tokens that were ahead. -/
theorem previous_mem_of_reaches {t : Token} {ts : List Token} (hp : p.ahead = t :: ts)
    (hr : Reaches p.bump q) : q.previous ∈ p.ahead := by
  have hmem : ∀ {k}, k ≤ ts.length → (p.advance (k + 1)).previous ∈ p.ahead := by
    intro k hk
    have hlt : k < p.cursor.ahead.length := by
      rw [show p.cursor.ahead = t :: ts from hp]
      exact Nat.lt_succ_of_le hk
    have hprevious : (p.advance (k + 1)).previous = p.cursor.ahead[k] := by
      rw [previous, show (p.advance (k + 1)).cursor = p.cursor.advance (k + 1) from rfl,
        Cursor.previous_advance_succ hlt, Cursor.peekAt, List.getD_eq_getElem?_getD,
        List.getElem?_eq_getElem hlt, Option.getD_some]
    exact hprevious ▸ List.getElem_mem hlt
  obtain ⟨n, hn⟩ := exists_cursor_of_reaches hr
  rw [← advance_succ] at hn
  rw [previous, hn, ← previous]
  by_cases hle : n ≤ ts.length
  · exact hmem hle
  · -- behind the end nothing more is taken
    have hleft : p.left = ts.length + 1 := congrArg List.length hp
    rw [advance_of_left_le (by omega), hleft]
    exact hmem (Nat.le_refl _)

/-- The token taken last is behind the old frontier, and its end is the new one. -/
theorem Stands.previous (h : Stands source p) (hend : p.atEnd = false) (hr : Reaches p.bump q) :
    p.frontier ≤ q.previous.span.lo ∧ q.previous.span.hi = q.frontier := by
  obtain ⟨t, ts, hp⟩ := exists_of_not_atEnd hend
  obtain ⟨lo, hlo, hlies⟩ := h.tiles.lies (previous_mem_of_reaches hp hr)
  have hpeek := h.peek hend
  have hfront : 0 < q.frontier := Nat.lt_of_lt_of_le (Nat.lt_of_le_of_lt (Nat.zero_le _) hpeek.lt)
    (Nat.le_trans hpeek.hi_le (h.bump.1.frontier_le hr))
  exact ⟨Nat.le_trans hlo hlies.behind, endOffset_eq hfront⟩

/-! ## Parts of declarations -/

/-- What takes a token takes the next one. -/
theorem reaches_take_of_pos {e : Extent} (h : 0 < e.width) : Reaches p.bump (p.take e) := by
  obtain ⟨n, hn⟩ := Nat.exists_eq_add_of_lt h
  have hadvance : Reaches p.bump (p.advance e.width) := by
    rw [hn, Nat.zero_add, advance_succ]
    exact reaches_advance _ _
  unfold take
  dsimp only
  split
  · exact .report _ _ _ hadvance
  · exact hadvance

/-- A group is taken on the way behind its opening bracket. -/
theorem reaches_bump_takeGroup (h : p.peek.kind.isOpener = true) : Reaches p.bump p.takeGroup := by
  have hend : p.atEnd = false := by
    cases hp : p.ahead with
    | nil =>
      rw [Parser.peek, Cursor.peek, show p.cursor.ahead = [] from hp] at h
      exact absurd h (by simp [Token.eofAt, TokenKind.isOpener])
    | cons t ts => exact atEnd_of_ahead hp
  obtain ⟨t, ts, hp⟩ := exists_of_not_atEnd hend
  rw [peek_of_ahead hp] at h
  unfold takeGroup
  rw [hp]
  dsimp only
  rw [if_pos h]
  exact reaches_take_of_pos (Nat.lt_add_right _ Nat.one_pos)

/-- An opening sign is an opening bracket. -/
theorem isOpener_of_isPunct {k : Punct} (h : p.isPunct k = true) (hk : k.isOpener = true) :
    p.peek.kind.isOpener = true := by
  simp only [isPunct, Token.isPunct, beq_iff_eq] at h
  rw [h]
  exact hk

/-- A body starts where the parse stands, and the parse goes on behind it. -/
theorem Stands.body? (h : Stands source p) {b : Nat} (hb : b ∈ p.body?.1) :
    p.frontier ≤ b ∧ b < p.body?.2.frontier := by
  unfold Parser.body? at hb ⊢
  by_cases hbrace : p.isPunct .openBrace = true
  · rw [if_pos hbrace] at hb ⊢
    obtain rfl := Option.some.inj hb
    have hpeek := h.peek (atEnd_of_isPunct hbrace)
    have hgroup := h.bump.1.frontier_le (reaches_bump_takeGroup (isOpener_of_isPunct hbrace rfl))
    exact ⟨hpeek.lo_le, Nat.lt_of_lt_of_le hpeek.lt (Nat.le_trans hpeek.hi_le hgroup)⟩
  · rw [if_neg hbrace] at hb
    exact absurd hb (by simp)

/-- A required body is recorded like any other. -/
theorem requiredBody_eq (p : Parser) : p.requiredBody.1 = p.body?.1 := by
  unfold requiredBody Parser.body?
  split <;> rfl

/-- A required body is a way on. -/
theorem reaches_requiredBody (p : Parser) : Reaches p p.requiredBody.2 := by
  unfold requiredBody
  rw [apply_ite Prod.snd]
  exact .ite (fun _ => reaches_body? p) (fun _ => reaches_expect p .openBrace)

/-- A required body opens ahead, within what is taken. -/
theorem Stands.requiredBody (h : Stands source p) {b : Nat} (hb : b ∈ p.requiredBody.1) :
    p.frontier ≤ b ∧ b < p.requiredBody.2.frontier := by
  rw [requiredBody_eq] at hb
  have hbody := h.body? hb
  unfold Parser.requiredBody
  split
  · exact hbody
  · rename_i hbrace
    rw [Parser.body?, if_neg hbrace] at hb
    exact absurd hb (by simp)

/-- Type parameters are what is taken for them. They reach from the less sign up to the last token
that is taken. -/
theorem Stands.typeParams? (h : Stands source p) {s : Span} (hs : s ∈ p.typeParams?.1) :
    s.Between p.frontier p.takeAngle.frontier := by
  unfold Parser.typeParams? at hs
  by_cases hless : p.isPunct .less = true
  · rw [if_pos hless] at hs
    split at hs
    · exact absurd hs (by simp)
    · obtain rfl := Option.some.inj hs
      have hpeek := h.peek (atEnd_of_isPunct hless)
      have hreach : Reaches p.bump p.takeAngle := by
        obtain ⟨t, ts, hp⟩ := exists_of_not_atEnd (atEnd_of_isPunct hless)
        rw [isPunct_of_ahead hp] at hless
        refine reaches_take_of_pos ?_
        rw [hp, Extent.angle?, if_pos hless]
        exact Nat.lt_add_right _ Nat.one_pos
      have hle := h.bump.1.frontier_le hreach
      have hprevious := h.previous (atEnd_of_isPunct hless) hreach
      have := hpeek.lo_le
      have := hpeek.lt
      have := hpeek.hi_le
      refine ⟨?_, ?_, ?_⟩ <;> simp only [Span.join] <;> omega
  · rw [if_neg hless] at hs
    exact absurd hs (by simp)

end Parser

end SignatureLedger
