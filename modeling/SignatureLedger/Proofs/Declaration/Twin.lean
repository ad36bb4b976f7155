import SignatureLedger.Proofs.Declaration.StretchRules

/-!
# The same tokens at other places

Two sources can have the same tokens at different places, and can go apart altogether behind some
token. `Twins x x' ts ts'` says that the token lists `ts` and `ts'` differ in places only, up to
their tails `x` and `x'`. A stretch at the front of such lists that leaves the tails alone has the
same width in both: no place of a token is ever looked at, and of the tails only the first token.
-/

namespace SignatureLedger

/-! ## Tokens -/

namespace Token

/-- The token at another place. -/
def moved (t : Token) (s : Span) : Token := { t with span := s }

section Moved

variable (t q : Token) (s : Span)

@[simp] theorem kind_moved : (t.moved s).kind = t.kind := rfl

@[simp] theorem lexeme_moved : (t.moved s).lexeme = t.lexeme := rfl

@[simp] theorem newlineBefore_moved : (t.moved s).newlineBefore = t.newlineBefore := rfl

@[simp] theorem span_moved : (t.moved s).span = s := rfl

@[simp] theorem isPunct_moved : (t.moved s).isPunct = t.isPunct := rfl

@[simp] theorem isKeyword_moved : (t.moved s).isKeyword = t.isKeyword := rfl

@[simp] theorem isWord_moved : (t.moved s).isWord = t.isWord := rfl

@[simp] theorem startsType_moved : (t.moved s).startsType = t.startsType := rfl

@[simp] theorem isTypeOperator_moved : (t.moved s).isTypeOperator = t.isTypeOperator := rfl

@[simp] theorem startsMemberName_moved : (t.moved s).startsMemberName = t.startsMemberName := rfl

@[simp] theorem isMemberModifier_moved : (t.moved s).isMemberModifier = t.isMemberModifier := rfl

@[simp] theorem isDeclKeyword_moved : (t.moved s).isDeclKeyword = t.isDeclKeyword := rfl

@[simp] theorem isItemStart_moved : (t.moved s).isItemStart = t.isItemStart := rfl

@[simp] theorem followsTypeArgs_moved : (t.moved s).followsTypeArgs = t.followsTypeArgs := rfl

@[simp] theorem endsLine_moved_left : (q.moved s).endsLine t = q.endsLine t := rfl

@[simp] theorem endsLine_moved_right : q.endsLine (t.moved s) = q.endsLine t := rfl

theorem moved_span : t.moved t.span = t := rfl

end Moved

/-- The tokens differ at most in their places. -/
def Same (t t' : Token) : Prop := ∃ s, t' = t.moved s

/-- What a token is, wherever it stands. -/
def face (t : Token) : TokenKind × Bytes × Bool := (t.kind, t.lexeme, t.newlineBefore)

/-- A token with the same face is the other one in another place. -/
theorem eq_moved_of_face {t t' : Token} (h : t.face = t'.face) : t' = t.moved t'.span := by
  obtain ⟨kind, span, lexeme, newlineBefore⟩ := t
  obtain ⟨kind', span', lexeme', newlineBefore'⟩ := t'
  obtain ⟨rfl, h⟩ := Prod.mk.inj h
  obtain ⟨rfl, rfl⟩ := Prod.mk.inj h
  rfl

/-- What does not look at places sees no difference. -/
theorem Same.congr {α : Type} {t t' : Token} (h : t.Same t') (P : Token → α)
    (hP : ∀ t s, P (Token.moved t s) = P t) : P t' = P t := by
  obtain ⟨s, rfl⟩ := h
  exact hP t s

end Token

/-! ## Lists with tails -/

/-- The tails have nothing in common but the opening brace that they start with; or both are
empty. -/
inductive Tails : List Token → List Token → Prop
  | nil : Tails [] []
  | brace {t : Token} {s : Span} {x x' : List Token} (h : t.kind = .punct .openBrace) :
      Tails (t :: x) (t.moved s :: x')

/-- The lists differ only in the places of their tokens, up to the tails `x` and `x'`. -/
inductive Twins (x x' : List Token) : List Token → List Token → Prop
  | tail : Twins x x' x x'
  | cons {t : Token} {s : Span} {ts ts' : List Token} (h : Twins x x' ts ts') :
      Twins x x' (t :: ts) (t.moved s :: ts')

/-- The tail `x` is left behind the first `n` tokens. -/
def Leaves (x : List Token) (n : Nat) (ts : List Token) : Prop := x ≠ [] → n + x.length ≤ ts.length

variable {x x' ts ts' us us' : List Token} {n : Nat}

/-- Tails are the same the other way round. -/
theorem Tails.symm (h : Tails x x') : Tails x' x := by
  cases h with
  | nil => exact .nil
  | @brace t s x x' h => exact Tails.brace (t := t.moved s) (s := t.span) h

/-- Either both tails are empty or neither. -/
theorem Tails.nil_iff (h : Tails x x') : x = [] ↔ x' = [] := by
  cases h with
  | nil => simp
  | brace h => simp

namespace Twins

/-- Twins are the same the other way round. -/
theorem symm (h : Twins x x' ts ts') : Twins x' x ts' ts := by
  induction h with
  | tail => exact .tail
  | @cons t s ts ts' h ih => exact .cons (t := t.moved s) (s := t.span) ih

/-- The tail is no longer than the whole. -/
theorem length_le (h : Twins x x' ts ts') : x.length ≤ ts.length := by
  induction h with
  | tail => exact Nat.le_refl _
  | cons h ih =>
    rw [List.length_cons]
    omega

/-- Both lists are equally long but for their tails. -/
theorem length_add (h : Twins x x' ts ts') : ts.length + x'.length = ts'.length + x.length := by
  induction h with
  | tail => exact Nat.add_comm _ _
  | cons h ih =>
    rw [List.length_cons, List.length_cons]
    omega

/-- Either both lists are used up to their tails, or neither is. -/
theorem cases_cons {t : Token} (h : Twins x x' (t :: ts) us') :
    (x = t :: ts ∧ x' = us') ∨ ∃ s ts', us' = t.moved s :: ts' ∧ Twins x x' ts ts' := by
  cases h with
  | tail => exact .inl ⟨rfl, rfl⟩
  | cons h => exact .inr ⟨_, _, rfl, h⟩

/-- Twins with the same tokens in front of both. -/
theorem append (hu : Twins [] [] us us') (h : Twins x x' ts ts') :
    Twins x x' (us ++ ts) (us' ++ ts') := by
  induction us generalizing us' with
  | nil =>
    cases hu with
    | tail => exact h
  | cons t us ih =>
    rcases hu.cases_cons with ⟨hnil, -⟩ | ⟨s, vs', rfl, hvs⟩
    · exact absurd hnil (by simp)
    · exact .cons (ih hvs)

/-- Behind a stretch that leaves the tails. -/
theorem drop (h : Twins x x' ts ts') (hx : Tails x x') (hn : Leaves x n ts) :
    Twins x x' (ts.drop n) (ts'.drop n) := by
  induction h generalizing n with
  | tail =>
    by_cases hnil : x = []
    · obtain rfl := hx.nil_iff.mp hnil
      subst hnil
      rw [List.drop_nil]
      exact .tail
    · obtain rfl : n = 0 := by
        have := hn hnil
        omega
      exact .tail
  | cons h ih =>
    cases n with
    | zero => exact .cons h
    | succ n =>
      refine ih fun hne => ?_
      have := hn hne
      rw [List.length_cons] at this
      omega

/-- The first tokens of both lists are the same, also where these are the tails. -/
theorem head? (h : Twins x x' ts ts') (hx : Tails x x') :
    Option.Rel Token.Same ts.head? ts'.head? := by
  cases h with
  | tail =>
    cases hx with
    | nil => exact .none
    | brace h => exact .some ⟨_, rfl⟩
  | cons h => exact .some ⟨_, rfl⟩

/-- A token before the tails, and the first token of these. -/
theorem getElem? (h : Twins x x' ts ts') (hx : Tails x x') (hn : Leaves x n ts) :
    Option.Rel Token.Same ts[n]? ts'[n]? := by
  have hhead := (h.drop hx hn).head? hx
  rwa [List.head?_drop, List.head?_drop] at hhead

end Twins

/-- Lists of tokens with the same faces have no tails. -/
theorem twins_of_face (h : ts.map Token.face = ts'.map Token.face) : Twins [] [] ts ts' := by
  induction ts generalizing ts' with
  | nil =>
    rw [List.map_nil, eq_comm, List.map_eq_nil_iff] at h
    rw [h]
    exact .tail
  | cons t ts ih =>
    rw [List.map_cons, eq_comm, List.map_eq_cons_iff] at h
    obtain ⟨t', us', rfl, hface, hrest⟩ := h
    rw [Token.eq_moved_of_face hface.symm]
    exact .cons (ih hrest.symm)

/-! ## Stretches that leave the tail -/

/-- The stretch is closed and leaves the tail `x` of the tokens `ts`. -/
structure Extent.Ends (e : Extent) (x ts : List Token) : Prop where
  closed : e.unclosed? = none
  leaves : Leaves x e.width ts

namespace Extent.Ends

variable {e : Extent}

/-- What a stretch goes on with behind `n` tokens ends as well. -/
theorem of_shift (h : (e.shift n).Ends x ts) : Leaves x n ts ∧ e.Ends x (ts.drop n) := by
  refine ⟨fun hne => ?_, h.closed, fun hne => ?_⟩
  · have hl := h.leaves hne
    dsimp only [shift] at hl
    omega
  · have hl := h.leaves hne
    dsimp only [shift] at hl
    rw [List.length_drop]
    omega

/-- The same behind a first token and a group. -/
theorem of_shift_succ {t : Token} (h : (e.shift (1 + n)).Ends x (t :: ts)) :
    Leaves x n ts ∧ e.Ends x (ts.drop n) := by
  obtain ⟨hl, he⟩ := h.of_shift
  rw [Nat.add_comm, List.drop_succ_cons] at he
  refine ⟨fun hne => ?_, he⟩
  have := hl hne
  rw [List.length_cons] at this
  omega

/-- A stretch that ends behind a first token ends there without it. -/
theorem of_shift_one {t : Token} (h : (e.shift 1).Ends x (t :: ts)) : e.Ends x ts :=
  (of_shift_succ (n := 0) h).2

/-- A stretch that is not closed does not end before the tail. -/
theorem not_unclosed {t : Token} : ¬ (Extent.mk n (some t)).Ends x ts := fun h =>
  absurd h.closed (by simp)

end Extent.Ends

/-- A stretch that takes a token and leaves the tail starts before it. -/
theorem Twins.cons_of_ends {t : Token} {e : Extent} (h : Twins x x' (t :: ts) us')
    (he : e.Ends x (t :: ts)) (hpos : 0 < e.width) :
    ∃ s ts', us' = t.moved s :: ts' ∧ Twins x x' ts ts' := by
  rcases h.cases_cons with ⟨rfl, -⟩ | hcons
  · have := he.leaves (List.cons_ne_nil t ts)
    omega
  · exact hcons

/-- The stretches `E` and `E'` of twin lists are the same if they leave the tails. -/
def Extent.Agree (E E' : List Token → Extent) (x x' ts ts' : List Token) : Prop :=
  (E ts).Ends x ts → (E' ts').Ends x' ts' → E' ts' = E ts

/-! ### Groups -/

/-- The end of a group before the tail is found in both. By induction on the twins: the kinds of the
tokens alone count, and they are the same. -/
theorem Twins.groupEnd? {k : Nat} (h : Twins x x' ts ts') (hx : Tails x x')
    (hg : SignatureLedger.groupEnd? k ts = some n) (hn : Leaves x n ts) :
    SignatureLedger.groupEnd? k ts' = some n := by
  induction h generalizing k n with
  | tail =>
    by_cases hnil : x = []
    · rwa [hx.nil_iff.mp hnil, ← hnil]
    · have := hn hnil
      have := groupEnd?_pos hg
      omega
  | @cons t s ts ts' h ih =>
    -- the token is taken, and the search goes on with `m` brackets open
    have hstep : ∀ m, (SignatureLedger.groupEnd? m ts).map (· + 1) = some n →
        (SignatureLedger.groupEnd? m ts').map (· + 1) = some n := by
      intro m hm
      obtain ⟨j, hj, rfl⟩ := Option.map_eq_some_iff.mp hm
      rw [ih hj fun hne => ?_, Option.map_some]
      have := hn hne
      rw [List.length_cons] at this
      omega
    by_cases ho : t.kind.isOpener = true
    · rw [groupEnd?_opener ho] at hg
      rw [groupEnd?_opener (t := t.moved s) ho]
      exact hstep _ hg
    · rw [Bool.not_eq_true] at ho
      by_cases hc : t.kind.isCloser = true
      · cases k with
        | zero =>
          rw [groupEnd?_lastCloser hc] at hg
          rwa [groupEnd?_lastCloser (t := t.moved s) hc]
        | succ k =>
          rw [groupEnd?_closer hc] at hg
          rw [groupEnd?_closer (t := t.moved s) hc]
          exact hstep _ hg
      · rw [Bool.not_eq_true] at hc
        rw [groupEnd?_other ho hc] at hg
        rw [groupEnd?_other (t := t.moved s) ho hc]
        exact hstep _ hg

/-- A group that ends before the tail is the same in both. -/
theorem Twins.group {t t' : Token} (h : Twins x x' ts ts') (hx : Tails x x')
    (he : (Extent.group t ts).Ends x ts) : Extent.group t' ts' = Extent.group t ts := by
  unfold Extent.group at he ⊢
  cases hg : SignatureLedger.groupEnd? 0 ts with
  | none =>
    rw [hg] at he
    exact absurd he Extent.Ends.not_unclosed
  | some n =>
    rw [hg] at he
    rw [h.groupEnd? hx hg he.leaves]

/-- A list of type parameters or arguments. By induction on the reader's own recursion. A list that
nothing closes takes all tokens, and so it would reach into the tail. -/
theorem Twins.angle {t t' : Token} {depth : Nat} (h : Twins x x' ts ts') (hx : Tails x x')
    (he : (Extent.angle t depth ts).Ends x ts) :
    Extent.angle t' depth ts' = Extent.angle t depth ts := by
  fun_induction Extent.angle t depth ts generalizing ts' with
  | case1 depth => exact absurd he Extent.Ends.not_unclosed
  | case2 depth a rest ha ih =>
    obtain ⟨s, us, rfl, hrest⟩ := h.cons_of_ends he (Nat.lt_add_right _ Nat.one_pos)
    rw [Extent.angle, Token.isPunct_moved, if_pos ha, ih hrest he.of_shift_one]
  | case3 depth a rest ha ha₂ ih =>
    obtain ⟨s, us, rfl, hrest⟩ := h.cons_of_ends he (Nat.lt_add_right _ Nat.one_pos)
    rw [Extent.angle, Token.isPunct_moved, if_neg ha, if_pos ha₂, ih hrest he.of_shift_one]
  | case4 depth a rest ha ha₂ ha₃ hd =>
    obtain ⟨s, us, rfl, -⟩ := h.cons_of_ends he Nat.one_pos
    rw [Extent.angle, Token.isPunct_moved, if_neg ha, if_neg ha₂, if_pos ha₃, if_pos hd]
  | case5 depth a rest ha ha₂ ha₃ hd ih =>
    obtain ⟨s, us, rfl, hrest⟩ := h.cons_of_ends he (Nat.lt_add_right _ Nat.one_pos)
    rw [Extent.angle, Token.isPunct_moved, if_neg ha, if_neg ha₂, if_pos ha₃, if_neg hd,
      ih hrest he.of_shift_one]
  | case6 depth a rest ha ha₂ ha₃ ho n hn ih =>
    obtain ⟨s, us, rfl, hrest⟩ := h.cons_of_ends he (by dsimp only [Extent.shift]; omega)
    obtain ⟨hl, he⟩ := he.of_shift_succ
    rw [Extent.angle, Token.isPunct_moved, Token.kind_moved, if_neg ha, if_neg ha₂, if_neg ha₃,
      if_pos ho, hrest.groupEnd? hx hn hl]
    dsimp only
    rw [ih (hrest.drop hx hl) he]
  | case7 depth a rest ha ha₂ ha₃ ho hn => exact absurd he Extent.Ends.not_unclosed
  | case8 depth a rest ha ha₂ ha₃ ho hc => exact absurd he Extent.Ends.not_unclosed
  | case9 depth a rest ha ha₂ ha₃ ho hc ih =>
    obtain ⟨s, us, rfl, hrest⟩ := h.cons_of_ends he (Nat.lt_add_right _ Nat.one_pos)
    rw [Extent.angle, Token.isPunct_moved, Token.kind_moved, if_neg ha, if_neg ha₂, if_neg ha₃,
      if_neg ho, if_neg hc, ih hrest he.of_shift_one]

end SignatureLedger
