import SignatureLedger.Proofs.Declaration.Moves

/-!
# Nested stretches

A stretch of tokens is nested when all its brackets are closed in it. Such a stretch is invisible to
the search for the end of a group (`groupEnd?_append`), so that a group is taken from its opening
bracket to its closing one whatever stands inside (`takeGroup_of_enclosed`). An initial value that
is nested is taken up to the semicolon behind it (`expr_of_initialValue`).
-/

namespace SignatureLedger

/-! ## Nested tokens -/

namespace Token

/-- A token that is neither a bracket nor the end marker. -/
def IsPlain (t : Token) : Prop :=
  t.kind.isOpener = false ∧ t.kind.isCloser = false ∧ t.kind ≠ .eof

end Token

/-- The brackets of the stretch are all closed in it. As in the scan, any closing bracket closes any
opening one. -/
inductive Nested : List Token → Prop
  | nil : Nested []
  | plain {t : Token} {ts : List Token} (ht : t.IsPlain) (hts : Nested ts) : Nested (t :: ts)
  | group {o c : Token} {inner ts : List Token} (ho : o.kind.isOpener = true)
      (hc : c.kind.isCloser = true) (hinner : Nested inner) (hts : Nested ts) :
      Nested (o :: (inner ++ c :: ts))

/-- A stretch in brackets: the opening token, a nested inside and the closing token. -/
inductive Enclosed (opening closing : Punct) : List Token → Prop
  | mk {o c : Token} {inner : List Token} (ho : o.kind = .punct opening)
      (hc : c.kind = .punct closing) (hinner : Nested inner) :
      Enclosed opening closing (o :: (inner ++ [c]))

/-- No bracket is both an opening and a closing one. -/
theorem TokenKind.isOpener_of_isCloser {k : TokenKind} (h : k.isCloser = true) :
    k.isOpener = false := by
  cases k with
  | punct p => cases p <;> first | rfl | simp [isCloser, Punct.isCloser] at h
  | _ => rfl

/-- No opening bracket closes. -/
theorem TokenKind.isCloser_of_isOpener {k : TokenKind} (h : k.isOpener = true) :
    k.isCloser = false := by
  cases hc : k.isCloser with
  | false => rfl
  | true => rw [isOpener_of_isCloser hc] at h; exact h.symm

/-! ## The search for the end of a group -/

section GroupEnd

variable {t : Token}

/-- An opening bracket goes one level down. -/
theorem groupEnd?_opener (h : t.kind.isOpener = true) (n : Nat) (ts : List Token) :
    groupEnd? n (t :: ts) = (groupEnd? (n + 1) ts).map (· + 1) := by
  rw [groupEnd?.eq_def]
  exact if_pos h

/-- A closing bracket goes one level up. -/
theorem groupEnd?_closer (h : t.kind.isCloser = true) (n : Nat) (ts : List Token) :
    groupEnd? (n + 1) (t :: ts) = (groupEnd? n ts).map (· + 1) := by
  rw [groupEnd?.eq_def]
  simp only [TokenKind.isOpener_of_isCloser h, h, if_true, Bool.false_eq_true, if_false]

/-- The closing bracket of the outermost level ends the group. -/
theorem groupEnd?_lastCloser (h : t.kind.isCloser = true) (ts : List Token) :
    groupEnd? 0 (t :: ts) = some 1 := by
  rw [groupEnd?.eq_def]
  simp only [TokenKind.isOpener_of_isCloser h, h, if_true, Bool.false_eq_true, if_false]

/-- Any other token stays on its level. -/
theorem groupEnd?_other (ho : t.kind.isOpener = false) (hc : t.kind.isCloser = false) (n : Nat)
    (ts : List Token) : groupEnd? n (t :: ts) = (groupEnd? n ts).map (· + 1) := by
  rw [groupEnd?.eq_def]
  simp only [ho, hc, Bool.false_eq_true, if_false]

end GroupEnd

/-- The search for the end of a group passes over a nested stretch. -/
theorem groupEnd?_append {B : List Token} (hB : Nested B) (n : Nat) (rest : List Token) :
    groupEnd? n (B ++ rest) = (groupEnd? n rest).map (· + B.length) := by
  induction hB generalizing n rest with
  | nil => simp
  | plain ht hts ih =>
    obtain ⟨hopen, hclose, -⟩ := ht
    rw [List.cons_append, groupEnd?_other hopen hclose, ih, Option.map_map]
    rfl
  | @group o c inner ts ho hc hinner hts ihInner ih =>
    -- the inside is read one level further in, and its closing bracket leads back
    rw [List.cons_append, List.append_assoc, List.cons_append, groupEnd?_opener ho, ihInner,
      groupEnd?_closer hc, ih, Option.map_map, Option.map_map, Option.map_map]
    congr 1
    funext k
    simp only [Function.comp, List.length_cons, List.length_append]
    omega

/-- The end of a group with a nested inside is its closing bracket. -/
theorem groupEnd?_of_nested {B : List Token} (hB : Nested B) {c : Token}
    (hc : c.kind.isCloser = true) (rest : List Token) :
    groupEnd? 0 (B ++ c :: rest) = some (B.length + 1) := by
  rw [groupEnd?_append hB, groupEnd?_lastCloser hc, Option.map_some, Nat.add_comm]

/-! ## Counting brackets -/

/-- The tokens close the `n` brackets that are open before them and all brackets of their own, and
the end marker is not among them. -/
def closesAll : Nat → List Token → Bool
  | n, [] => n == 0
  | n, t :: ts =>
    if t.kind.isOpener then closesAll (n + 1) ts
    else if t.kind.isCloser then
      match n with
      | 0 => false
      | n + 1 => closesAll n ts
    else t.kind != .eof && closesAll n ts

section ClosesAll

variable {t : Token}

/-- An opening bracket must be closed further on. -/
theorem closesAll_opener (h : t.kind.isOpener = true) (n : Nat) (ts : List Token) :
    closesAll n (t :: ts) = closesAll (n + 1) ts := by
  rw [closesAll.eq_def]
  exact if_pos h

/-- A closing bracket closes the level it stands on. -/
theorem closesAll_closer (h : t.kind.isCloser = true) (n : Nat) (ts : List Token) :
    closesAll (n + 1) (t :: ts) = closesAll n ts := by
  rw [closesAll.eq_def]
  simp only [TokenKind.isOpener_of_isCloser h, h, if_true, Bool.false_eq_true, if_false]

/-- A closing bracket with nothing open is one too many. -/
theorem closesAll_firstCloser (h : t.kind.isCloser = true) (ts : List Token) :
    closesAll 0 (t :: ts) = false := by
  rw [closesAll.eq_def]
  simp only [TokenKind.isOpener_of_isCloser h, h, if_true, Bool.false_eq_true, if_false]

/-- Any other token but the end marker may stand anywhere. -/
theorem closesAll_other (ho : t.kind.isOpener = false) (hc : t.kind.isCloser = false) (n : Nat)
    (ts : List Token) : closesAll n (t :: ts) = (t.kind != .eof && closesAll n ts) := by
  rw [closesAll.eq_def]
  simp only [ho, hc, Bool.false_eq_true, if_false]

end ClosesAll

/-- What is nested does not change the level. -/
theorem closesAll_append {B : List Token} (hB : Nested B) (n : Nat) (rest : List Token) :
    closesAll n (B ++ rest) = closesAll n rest := by
  induction hB generalizing n rest with
  | nil => rfl
  | plain ht hts ih =>
    obtain ⟨hopen, hclose, heof⟩ := ht
    rw [List.cons_append, closesAll_other hopen hclose, ih, bne_iff_ne.mpr heof, Bool.true_and]
  | @group o c inner ts ho hc hinner hts ihInner ih =>
    rw [List.cons_append, List.append_assoc, List.cons_append, closesAll_opener ho, ihInner,
      closesAll_closer hc, ih]

/-- Either no bracket was open and the tokens are nested, or the last one is closed behind a nested
stretch. -/
theorem closesAll_cases {n : Nat} {ts : List Token} (h : closesAll n ts = true) :
    (n = 0 ∧ Nested ts) ∨ ∃ m inner c rest, n = m + 1 ∧ ts = inner ++ c :: rest ∧
      c.kind.isCloser = true ∧ Nested inner ∧ closesAll m rest = true := by
  match ts with
  | [] =>
    exact .inl ⟨by simpa [closesAll.eq_def] using h, .nil⟩
  | t :: ts =>
    by_cases ho : t.kind.isOpener = true
    · rw [closesAll_opener ho] at h
      rcases closesAll_cases h with ⟨hn, -⟩ | ⟨m, inner, c, rest, hm, hts, hc, hinner, hrest⟩
      · exact absurd hn (Nat.succ_ne_zero n)
      obtain rfl := Nat.succ.inj hm
      have hlt : rest.length < ts.length + 1 := by
        rw [hts, List.length_append, List.length_cons]
        omega
      -- the group that the bracket opens, and what comes behind it
      rcases closesAll_cases hrest with
        ⟨hn, hnested⟩ | ⟨m, inner', c', rest', hm', hts', hc', hinner', hrest'⟩
      · exact .inl ⟨hn, hts ▸ .group ho hc hinner hnested⟩
      · refine .inr ⟨m, t :: (inner ++ c :: inner'), c', rest', hm', ?_, hc',
          .group ho hc hinner hinner', hrest'⟩
        rw [hts, hts', List.cons_append, List.append_assoc, List.cons_append]
    by_cases hc : t.kind.isCloser = true
    · cases n with
      | zero =>
        rw [closesAll_firstCloser hc] at h
        exact absurd h (by simp)
      | succ m =>
        rw [closesAll_closer hc] at h
        exact .inr ⟨m, [], t, ts, rfl, rfl, hc, .nil, h⟩
    · rw [Bool.not_eq_true] at ho hc
      rw [closesAll_other ho hc, Bool.and_eq_true] at h
      have hplain : t.IsPlain := ⟨ho, hc, bne_iff_ne.mp h.1⟩
      rcases closesAll_cases h.2 with ⟨hn, hnested⟩ | ⟨m, inner, c, rest, hm, hts, hk, hinner, hrest⟩
      · exact .inl ⟨hn, .plain hplain hnested⟩
      · exact .inr ⟨m, t :: inner, c, rest, hm, by rw [hts, List.cons_append], hk,
          .plain hplain hinner, hrest⟩
termination_by ts.length

/-- The brackets of a stretch can be counted. -/
theorem nested_iff_closesAll (ts : List Token) : Nested ts ↔ closesAll 0 ts = true := by
  constructor
  · intro h
    have := closesAll_append h 0 []
    rwa [List.append_nil] at this
  · intro h
    rcases closesAll_cases h with ⟨-, hnested⟩ | ⟨m, -, -, -, hm, -⟩
    · exact hnested
    · exact absurd hm.symm (Nat.succ_ne_zero m)

instance (ts : List Token) : Decidable (Nested ts) :=
  decidable_of_iff _ (nested_iff_closesAll ts).symm

namespace Parser

/-- A group in brackets is taken as a whole. -/
theorem takeGroup_of_enclosed {p : Parser} {opening closing : Punct} {ts rest : List Token}
    (ho : opening.isOpener = true) (hc : closing.isCloser = true)
    (hts : Enclosed opening closing ts) (h : p.ahead = ts ++ rest) :
    p.takeGroup = p.advance ts.length := by
  obtain ⟨hok, hck, hinner⟩ := hts
  rename_i o c inner
  have hopen : o.kind.isOpener = true := by rw [hok]; exact ho
  have hclose : c.kind.isCloser = true := by rw [hck]; exact hc
  have hgroup : Extent.group o (inner ++ c :: rest) = ⟨inner.length + 1, none⟩ := by
    rw [Extent.group, groupEnd?_of_nested hinner hclose]
  have hahead : p.ahead = o :: (inner ++ c :: rest) := by
    rw [h, List.cons_append, List.append_assoc, List.singleton_append]
  rw [takeGroup, hahead]
  dsimp only
  rw [if_pos hopen, hgroup, Extent.shift, take_of_closed, List.length_cons, List.length_append,
    List.length_singleton, Nat.add_comm]

end Parser

/-! ## Initial values -/

/-- The token may stand in an initial value outside all its brackets. -/
structure Token.IsValuePart (t : Token) : Prop where
  notComma : t.isPunct .comma = false
  notSemicolon : t.isPunct .semicolon = false
  notLess : t.isPunct .less = false
  sameLine : t.newlineBefore = false

/-- A nested stretch on one line with no comma, semicolon or less sign outside its brackets. Inside
the brackets, and before the closing ones, lines may end anywhere. -/
inductive InitialValue : List Token → Prop
  | nil : InitialValue []
  | plain {t : Token} {ts : List Token} (ht : t.IsPlain) (hv : t.IsValuePart)
      (hts : InitialValue ts) : InitialValue (t :: ts)
  | group {o c : Token} {inner ts : List Token} (ho : o.kind.isOpener = true)
      (hsame : o.newlineBefore = false) (hc : c.kind.isCloser = true) (hinner : Nested inner)
      (hts : InitialValue ts) : InitialValue (o :: (inner ++ c :: ts))

/-- No line ends before a token on the line of the one before it. -/
theorem Token.endsLine_of_sameLine {t : Token} (h : t.newlineBefore = false)
    (previous? : Option Token) : previous?.any (·.endsLine t) = false := by
  cases previous? with
  | none => rfl
  | some q => simp [Token.endsLine, h]

/-- An opening bracket is no other punctuator. -/
theorem Token.isPunct_of_isOpener {t : Token} (h : t.kind.isOpener = true) {k : Punct}
    (hk : k.isOpener = false) : t.isPunct k = false := by
  rw [isPunct, beq_eq_false_iff_ne]
  intro hkind
  rw [hkind, TokenKind.isOpener, hk] at h
  exact absurd h (by decide)

/-- An initial value reaches up to the semicolon behind it. By induction on the value, whatever
token stands before it. -/
theorem expr_of_initialValue {E : List Token} (hE : InitialValue E) {s : Token}
    (hs : s.isPunct .semicolon = true) (rest : List Token) (previous? : Option Token) :
    Extent.expr previous? (E ++ s :: rest) = ⟨E.length, none⟩ := by
  induction hE generalizing previous? with
  | nil => rw [List.nil_append, Extent.expr, if_pos (by simp [hs])]; rfl
  | plain ht hv hts ih =>
    obtain ⟨hopen, hclose, -⟩ := ht
    rw [List.cons_append, Extent.expr,
      if_neg (by simp [hv.notComma, hv.notSemicolon, hclose,
        Token.endsLine_of_sameLine hv.sameLine]),
      if_neg (by simp [hopen]), if_neg (by simp [hv.notLess]), if_neg (by simp [hv.notLess]), ih,
      Extent.shift, List.length_cons, Nat.add_comm]
  | @group o c inner ts ho hsame hc hinner hts ih =>
    -- a group is one step of the expression, which goes on behind its closing bracket
    have hdrop : (inner ++ c :: (ts ++ s :: rest)).drop (inner.length + 1) = ts ++ s :: rest := by
      rw [← List.drop_drop, List.drop_left, List.drop_one, List.tail_cons]
    rw [List.cons_append, List.append_assoc, List.cons_append, Extent.expr,
      if_neg (by simp [Token.isPunct_of_isOpener ho (show Punct.comma.isOpener = false from rfl),
        Token.isPunct_of_isOpener ho (show Punct.semicolon.isOpener = false from rfl),
        TokenKind.isCloser_of_isOpener ho, Token.endsLine_of_sameLine hsame]),
      if_pos ho, groupEnd?_of_nested hinner hc]
    dsimp only
    rw [hdrop, ih, Extent.shift, List.length_cons, List.length_append, List.length_cons]
    rw [show 1 + (inner.length + 1) + ts.length = inner.length + (ts.length + 1) + 1 by omega]

end SignatureLedger
