import SignatureLedger.Proofs.Declaration.StretchRounds
import SignatureLedger.Proofs.Declaration.Twin

/-!
# Stretches of twin lists

The stretches that nothing closes. Whether such a stretch goes on is told by the next token, so that
two of them which leave their tails agree: neither can go on where the other one ends. Only type
arguments inside an expression are looked for further ahead; there it matters that both expressions
leave their tails.
-/

namespace SignatureLedger

open Extent (Agree)

variable {x x' ts ts' us' : List Token} {t : Token} {n : Nat}

/-! ## Where the tails begin -/

section Tail

variable {e e' : Extent}

/-- Stretches at the tails take nothing. -/
theorem Extent.Ends.eq_of_tail (he : e.Ends x x) (he' : e'.Ends x' x') (hx : Tails x x')
    (hne : x ≠ []) : e' = e := by
  have hw := he.leaves hne
  have hw' := he'.leaves fun hnil => hne (hx.nil_iff.mpr hnil)
  obtain ⟨w, c⟩ := e
  obtain ⟨w', c'⟩ := e'
  obtain rfl : c = none := he.closed
  obtain rfl : c' = none := he'.closed
  obtain rfl : w = 0 := by
    dsimp only at hw
    omega
  obtain rfl : w' = 0 := by
    dsimp only at hw'
    omega
  rfl

/-- Before the tails both lists go on with the same token. -/
theorem Twins.agree_cons (h : Twins x x' (t :: ts) us') (hx : Tails x x') (he : e.Ends x (t :: ts))
    (he' : e'.Ends x' us')
    (hcons : ∀ s ts', us' = t.moved s :: ts' → Twins x x' ts ts' → e' = e) : e' = e := by
  rcases h.cases_cons with ⟨rfl, rfl⟩ | ⟨s, ts', rfl, hrest⟩
  · exact he.eq_of_tail he' hx (List.cons_ne_nil t ts)
  · exact hcons s ts' rfl hrest

/-- With no tail, the twin of no tokens is none. -/
theorem Twins.eq_nil (h : Twins x x' [] us') (hx : Tails x x') : us' = [] := by
  cases h with
  | tail => exact hx.nil_iff.mp rfl

end Tail

/-- A test of the token before, if there is one. -/
theorem any_rel {q q' : Option Token} (h : Option.Rel Token.Same q q') (P : Token → Bool)
    (hP : ∀ t s, P (Token.moved t s) = P t) : q'.any P = q.any P := by
  cases h with
  | none => rfl
  | some h => exact h.congr P hP

/-- The same tokens pass the same test. -/
theorem all_rel {q q' : Option Token} (h : Option.Rel Token.Same q q') (P : Token → Bool)
    (hP : ∀ t s, P (Token.moved t s) = P t) : q'.all P = q.all P := by
  cases h with
  | none => rfl
  | some h => exact h.congr P hP

/-! ## Round by round -/

section Rounds

/-- What the round takes leaves the tail `x`. -/
def Round.Ends (r : Round) (x : List Token) (t : Token) (rest : List Token) : Prop :=
  match r with
  | stop e => e.Ends x (t :: rest)
  | go front => front.Ends x rest

/-- In a stretch that leaves the tail, the first round does so. -/
theorem Round.ends_of_andThen {r : Round} {rest : List Token} {next : Nat → Extent}
    (h : (r.andThen next).Ends x (t :: rest)) : r.Ends x t rest := by
  cases r with
  | stop e => exact h
  | go front =>
    by_cases hopen : front.unclosed?.isSome = true
    · rw [Round.andThen_go_of_unclosed hopen] at h
      exact h.of_shift_one
    · have hclosed := Option.not_isSome_iff_eq_none.mp hopen
      rw [Round.andThen_go hclosed] at h
      exact ⟨hclosed, h.of_shift_succ.1⟩

/-- The rounds `r` and `r'` at the tokens `t` and `t'` of twin lists are the same if what they take
leaves the tails. -/
def Round.Agree (r r' : Round) (x x' : List Token) (t t' : Token) (ts ts' : List Token) : Prop :=
  r.Ends x t ts → r'.Ends x' t' ts' → r' = r

namespace Round.Agree

variable {r r' q q' : Round} {t t' : Token}

/-- The same round, whatever stands ahead. -/
theorem same : Round.Agree r r x x' t t' ts ts' := fun _ _ => rfl

/-- Rounds that are chosen by the same test. -/
theorem ite {c : Prop} [Decidable c] (hr : c → Round.Agree r r' x x' t t' ts ts')
    (hq : ¬ c → Round.Agree q q' x x' t t' ts ts') :
    Round.Agree (if c then r else q) (if c then r' else q') x x' t t' ts ts' := by
  split
  · exact hr ‹_›
  · exact hq ‹_›

/-- A round over a group goes as far in both. -/
theorem group (h : Twins x x' ts ts') (hx : Tails x x') :
    Round.Agree (.go (.group t ts)) (.go (.group t' ts')) x x' t t' ts ts' := by
  intro he _
  rw [h.group hx he]

/-- A round over angles goes as far in both. -/
theorem angle (h : Twins x x' ts ts') (hx : Tails x x') :
    Round.Agree (.go (.angle t 1 ts)) (.go (.angle t' 1 ts')) x x' t t' ts ts' := by
  intro he _
  rw [h.angle hx he]

/-- Behind the token two stretches agree. -/
theorem go {E E' : List Token → Extent} (h : Extent.Agree E E' x x' ts ts') :
    Round.Agree (.go (E ts)) (.go (E' ts')) x x' t t' ts ts' := by
  intro he he'
  rw [h he he']

/-- The rounds end with two stretches that agree. -/
theorem stop {E E' : List Token → Extent} (h : Extent.Agree E E' x x' ts ts') :
    Round.Agree (.stop ((E ts).shift 1)) (.stop ((E' ts').shift 1)) x x' t t' ts ts' := by
  intro he he'
  rw [h (Extent.Ends.of_shift_one he) (Extent.Ends.of_shift_one he')]

end Round.Agree

/-- **Round by round.** Two stretches agree if their rounds agree, from states that stay related. -/
theorem Twins.rounds {σ : Type} (E : σ → List Token → Extent)
    (round : σ → Token → List Token → Round) (next : σ → Nat → List Token → σ)
    (R : σ → σ → Prop) (hx : Tails x x') (hnil : ∀ a, E a [] = ⟨0, none⟩)
    (hcons : ∀ a t rest, E a (t :: rest)
      = (round a t rest).andThen fun n => E (next a n (t :: rest)) (rest.drop n))
    (hround : ∀ {a a' t s rest us}, R a a' → Twins x x' rest us →
      (round a t rest).Agree (round a' (t.moved s) us) x x' t (t.moved s) rest us)
    (hnext : ∀ {a a' n w w'}, R a a' → Twins x x' w w' → Leaves x n w →
      R (next a n w) (next a' n w'))
    (a a' : σ) (h : Twins x x' ts ts') (ha : R a a') : Agree (E a) (E a') x x' ts ts' := by
  induction hlen : ts.length using Nat.strongRecOn generalizing a a' ts ts' with
  | ind len ih =>
  intro he he'
  cases ts with
  | nil => rw [h.eq_nil hx, hnil, hnil]
  | cons t ts =>
    refine h.agree_cons hx he he' ?_
    rintro s us rfl hrest
    rw [hcons] at he he'
    rw [hcons, hcons]
    have hends := Round.ends_of_andThen he
    have hends' := Round.ends_of_andThen he'
    rw [hround ha hrest hends hends'] at he' ⊢
    cases hr : round a t ts with
    | stop e => rfl
    | go front =>
      rw [hr] at hends he he'
      rw [Round.andThen_go hends.closed] at he he' ⊢
      rw [Round.andThen_go hends.closed]
      -- behind the front both stretches go on
      have hleaves : Leaves x front.width (t :: ts) := fun hne => by
        have := hends.leaves hne
        rw [List.length_cons]
        omega
      have hlt : (ts.drop front.width).length < len := by
        rw [← hlen, List.length_drop, List.length_cons]
        omega
      rw [ih _ hlt _ _ (hrest.drop hx hends.leaves) (hnext ha h hleaves) rfl he.of_shift_succ.2
        he'.of_shift_succ.2]

/-- The same for a stretch that needs no state. -/
theorem Twins.plainRounds {E : List Token → Extent} {round : Token → List Token → Round}
    (hx : Tails x x') (hnil : E [] = ⟨0, none⟩)
    (hcons : ∀ t rest, E (t :: rest) = (round t rest).andThen fun n => E (rest.drop n))
    (hround : ∀ {t s rest us}, Twins x x' rest us →
      (round t rest).Agree (round (t.moved s) us) x x' t (t.moved s) rest us)
    (h : Twins x x' ts ts') : Agree E E x x' ts ts' :=
  Twins.rounds (fun _ => E) (fun _ => round) (fun _ _ _ => ()) (fun _ _ => True) hx
    (fun _ => hnil) (fun _ => hcons) (fun _ => hround) (fun _ _ _ => trivial) () () h trivial

end Rounds

/-! ## Groups at the front -/

/-- A stretch that starts with a certain token, or is empty. -/
theorem Twins.front {E : List Token → Extent} {P : Token → Bool}
    {G : Token → List Token → Extent}
    (hE : ∀ t ts, E (t :: ts) = if P t then (G t ts).shift 1 else ⟨0, none⟩)
    (hP : ∀ t s, P (Token.moved t s) = P t)
    (hG : ∀ t s us us', Twins x x' us us' → (G t us).Ends x us → G (Token.moved t s) us' = G t us)
    (h : Twins x x' ts ts') (hx : Tails x x') : Agree E E x x' ts ts' := by
  intro he he'
  cases ts with
  | nil => rw [h.eq_nil hx]
  | cons t ts =>
    refine h.agree_cons hx he he' ?_
    rintro s us rfl hrest
    rw [hE] at he
    rw [hE, hE, hP]
    by_cases ht : P t = true
    · rw [if_pos ht] at he
      rw [if_pos ht, if_pos ht, hG t s ts us hrest he.of_shift_one]
    · rw [if_neg ht, if_neg ht]

theorem Twins.bracketed? (h : Twins x x' ts ts') (hx : Tails x x') :
    Agree Extent.bracketed? Extent.bracketed? x x' ts ts' :=
  h.front (fun _ _ => rfl) (fun _ _ => rfl) (fun _ _ _ _ h he => h.group hx he) hx

theorem Twins.parens? (h : Twins x x' ts ts') (hx : Tails x x') :
    Agree Extent.parens? Extent.parens? x x' ts ts' :=
  h.front (fun _ _ => rfl) (fun _ _ => rfl) (fun _ _ _ _ h he => h.group hx he) hx

theorem Twins.angle? (h : Twins x x' ts ts') (hx : Tails x x') :
    Agree Extent.angle? Extent.angle? x x' ts ts' :=
  h.front (fun _ _ => rfl) (fun _ _ => rfl) (fun _ _ _ _ h he => h.angle hx he) hx

theorem Twins.arrayRound {s : Span} (h : Twins x x' ts ts') (hx : Tails x x') :
    (Extent.arrayRound t ts).Agree (Extent.arrayRound (t.moved s) ts') x x' t (t.moved s) ts ts' :=
  .ite (fun _ => .group h hx) fun _ => .same

theorem Twins.arraySuffix (h : Twins x x' ts ts') (hx : Tails x x') :
    Agree Extent.arraySuffix Extent.arraySuffix x x' ts ts' :=
  h.plainRounds hx (by rw [Extent.arraySuffix]) (fun _ _ => Extent.arraySuffix_cons)
    fun h => h.arrayRound hx

/-! ## One stretch after the other -/

/-- What the first stretch leaves. -/
theorem Extent.Ends.of_andThen {E : List Token → Extent} {e : Extent}
    (h : (e.andThen E ts).Ends x ts) :
    e.Ends x ts ∧ (E (ts.drop e.width)).Ends x (ts.drop e.width) := by
  obtain ⟨hc, hc₂⟩ := closed_of_andThen h.closed
  rw [andThen_of_closed hc] at h
  obtain ⟨hl, he⟩ := h.of_shift
  exact ⟨⟨hc, hl⟩, he⟩

/-- Two stretches, the second taken where the first one ends, agree if both do. -/
theorem Twins.andThen {E₁ E₁' E₂ : List Token → Extent} (h : Twins x x' ts ts') (hx : Tails x x')
    (h₁ : Agree E₁ E₁' x x' ts ts')
    (h₂ : ∀ us us', Twins x x' us us' → Agree E₂ E₂ x x' us us') :
    Agree (fun w => (E₁ w).andThen E₂ w) (fun w => (E₁' w).andThen E₂ w) x x' ts ts' := by
  intro he he'
  obtain ⟨hfirst, hsecond⟩ := Extent.Ends.of_andThen he
  obtain ⟨hfirst', hsecond'⟩ := Extent.Ends.of_andThen he'
  have heq := h₁ hfirst hfirst'
  rw [heq] at hsecond'
  dsimp only
  rw [heq, andThen_of_closed hfirst.closed, andThen_of_closed hfirst.closed,
    h₂ _ _ (h.drop hx hfirst.leaves) hsecond hsecond']

/-! ## Paths and decorators -/

/-- The next token is the same in both lists, be it the first one of the tails. -/
theorem Twins.next (h : Twins x x' (t :: ts) us') (hx : Tails x x') :
    ∃ s ts', us' = t.moved s :: ts' := by
  have hhead := h.head? hx
  cases us' with
  | nil => cases hhead
  | cons t' ts' =>
    cases hhead with
    | some hsame =>
      obtain ⟨s, rfl⟩ := hsame
      exact ⟨s, ts', rfl⟩

/-- Stretches that go on by two tokens: a sign and a name behind it. They agree on twins, since the
two tokens alone tell whether they go on, and not where the tokens stand. -/
theorem Twins.pairs {E : Token → List Token → Extent} {P : Token → Token → Bool}
    (hE : ∀ l a b ts, E l (a :: b :: ts) = if P a b then (E b ts).shift 2 else ⟨0, none⟩)
    (hshort : ∀ l ts, ts.length < 2 → E l ts = ⟨0, none⟩)
    (hP : ∀ a b s s', P (Token.moved a s) (Token.moved b s') = P a b) (l l' : Token)
    (h : Twins x x' ts ts') (hx : Tails x x') : Agree (E l) (E l') x x' ts ts' := by
  induction hn : ts.length using Nat.strongRecOn generalizing l l' ts ts' with
  | ind n ih =>
  intro he he'
  match ts, h with
  | [], h => rw [h.eq_nil hx, hshort l [] (by simp), hshort l' [] (by simp)]
  | [a], h =>
    refine h.agree_cons hx he he' ?_
    rintro s us rfl hrest
    rw [hrest.eq_nil hx, hshort l _ (by simp), hshort l' _ (by simp)]
  | a :: b :: ts, h =>
    refine h.agree_cons hx he he' ?_
    rintro s us rfl hrest
    obtain ⟨s', us, rfl⟩ := hrest.next hx
    rw [hE] at he
    rw [hE, hP] at he'
    rw [hE, hE, hP]
    by_cases hab : P a b = true
    · rw [if_pos hab] at he he'
      rw [if_pos hab, if_pos hab]
      obtain ⟨hl, hend⟩ := he.of_shift
      have htwins : Twins x x' ts us := h.drop hx hl
      have hlt : ts.length < n := by
        rw [← hn, List.length_cons, List.length_cons]
        omega
      rw [ih ts.length hlt b (b.moved s') htwins rfl hend he'.of_shift.2]
    · rw [if_neg hab, if_neg hab]

/-- A path of names agrees on twins. -/
theorem Twins.path (h : Twins x x' ts ts') (hx : Tails x x') :
    Agree Extent.path Extent.path x x' ts ts' := by
  refine h.pairs (E := fun _ => Extent.path) (P := fun a b => a.isPunct .dot && b.kind.isName)
    ?_ ?_ (fun _ _ _ _ => rfl) (Token.eofAt 0) (Token.eofAt 0) hx
  · intro _ a b ts
    unfold Extent.path
    rw [pathWidth]
    split <;> rfl
  · intro _ ts hshort
    rcases ts with _ | ⟨t, _ | ⟨u, ts⟩⟩
    · rfl
    · rfl
    · exact absurd hshort (by simp)

theorem Twins.dotted (l l' : Token) (h : Twins x x' ts ts') (hx : Tails x x') :
    Agree (Extent.dotted l) (Extent.dotted l') x x' ts ts' := by
  refine h.pairs (E := Extent.dotted) (P := fun a b => a.isPunct .dot && decide (b.kind = .ident))
    ?_ ?_ (fun _ _ _ _ => rfl) l l' hx
  · intro l a b ts
    unfold Extent.dotted
    rw [Parser.dottedName]
    by_cases hab : (a.isPunct .dot && decide (b.kind = .ident)) = true
    · rw [if_pos hab, if_pos hab]
      rfl
    · rw [if_neg hab, if_neg hab]
  · intro _ ts hshort
    rcases ts with _ | ⟨t, _ | ⟨u, ts⟩⟩
    · rfl
    · rfl
    · exact absurd hshort (by simp)

/-- The operators of a type agree on twins. By induction on the tokens, of which each is one in both
lists or in neither. -/
theorem Twins.operators (h : Twins x x' ts ts') (hx : Tails x x') :
    Agree Extent.operators Extent.operators x x' ts ts' := by
  intro he he'
  induction ts generalizing ts' with
  | nil => rw [h.eq_nil hx]
  | cons t ts ih =>
    refine h.agree_cons hx he he' ?_
    rintro s us rfl hrest
    -- whether the word is an operator is told by the next token
    have hsame : Token.isOperatorBefore (t.moved s) us = Token.isOperatorBefore t ts := by
      have hhead := hrest.head? hx
      unfold Token.isOperatorBefore
      rw [any_rel hhead Token.startsType fun _ _ => rfl,
        any_rel hhead (·.isKeyword .newKw) fun _ _ => rfl]
      rfl
    cases ht : Token.isOperatorBefore t ts with
    | false =>
      rw [Extent.operators_cons_of_not ht, Extent.operators_cons_of_not (hsame.trans ht)]
    | true =>
      rw [Extent.operators_cons_of_operator ht] at he ⊢
      rw [Extent.operators_cons_of_operator (hsame.trans ht)] at he' ⊢
      rw [ih hrest he.of_shift_one he'.of_shift_one]

theorem Twins.nameAt (h : Twins x x' ts ts') (hx : Tails x x') :
    Extent.nameAt ts' = Extent.nameAt ts := by
  unfold Extent.nameAt
  rw [any_rel (h.head? hx) (·.kind.isName) fun _ _ => rfl]

theorem Twins.pathDecorator (h : Twins x x' ts ts') (hx : Tails x x') :
    Agree Extent.pathDecorator Extent.pathDecorator x x' ts ts' := by
  have hpath : ∀ {us us'}, Twins x x' us us' → Agree Extent.pathAt Extent.pathAt x x' us us' :=
    fun h => h.andThen hx (fun _ _ => h.nameAt hx) fun _ _ h => h.path hx
  exact h.andThen hx (hpath h) fun _ _ h =>
    h.andThen hx (h.angle? hx) fun _ _ h => h.parens? hx

/-- A decorator agrees on twins. -/
theorem Twins.decorator (h : Twins x x' ts ts') (hx : Tails x x') :
    Agree Extent.decorator Extent.decorator x x' ts ts' := by
  intro he he'
  cases ts with
  | nil => rw [h.eq_nil hx]
  | cons t ts =>
    refine h.agree_cons hx he he' ?_
    rintro s us rfl hrest
    by_cases ht : t.isPunct .openParen = true
    · rw [Extent.decorator_of_openParen ht] at he ⊢
      rw [Extent.decorator_of_openParen (t := t.moved s) ht, hrest.group hx he.of_shift_one]
    · rw [Extent.decorator_of_not_openParen ht] at he ⊢
      rw [Extent.decorator_of_not_openParen (t := t.moved s) ht] at he' ⊢
      exact h.pathDecorator hx he he'

theorem Twins.decoratorsRound {s : Span} (h : Twins x x' ts ts') (hx : Tails x x') :
    (Extent.decoratorsRound t ts).Agree (Extent.decoratorsRound (t.moved s) ts') x x' t (t.moved s)
      ts ts' :=
  .ite (fun _ => .go (h.decorator hx)) fun _ => .same

theorem Twins.decorators (h : Twins x x' ts ts') (hx : Tails x x') :
    Agree Extent.decorators Extent.decorators x x' ts ts' :=
  h.plainRounds hx (by rw [Extent.decorators]) (fun _ _ => Extent.decorators_cons)
    fun h => h.decoratorsRound hx

/-! ## Expressions -/

/-- Type arguments that leave the tail end in the same place in both lists. By induction on the
steps of the look-ahead, which ends before the tail and so never comes to what differs. -/
theorem Twins.typeArgsEnd? {steps depth : Nat} (h : Twins x x' ts ts') (hx : Tails x x')
    (hg : SignatureLedger.typeArgsEnd? steps depth ts = some n) (hn : Leaves x n ts) :
    SignatureLedger.typeArgsEnd? steps depth ts' = some n := by
  induction steps generalizing depth ts ts' n with
  | zero => exact absurd hg (by simp [SignatureLedger.typeArgsEnd?])
  | succ steps ih =>
    cases ts with
    | nil => exact absurd hg (by simp [SignatureLedger.typeArgsEnd?])
    | cons t ts =>
      obtain ⟨u, v, g, happ, rfl, hlast, -⟩ := exists_of_typeArgsEnd? hg
      have hpos : 0 < u.length := List.length_pos_iff.mpr (by rintro rfl; simp at hlast)
      obtain ⟨s, us, rfl, hrest⟩ := h.cons_of_ends (e := ⟨u.length, none⟩) ⟨rfl, hn⟩ hpos
      -- the token is taken, and the arguments go on behind it
      have hstep : ∀ d, (SignatureLedger.typeArgsEnd? steps d ts).map (· + 1) = some u.length →
          (SignatureLedger.typeArgsEnd? steps d us).map (· + 1) = some u.length := by
        intro d hd
        obtain ⟨m, hm, hmu⟩ := Option.map_eq_some_iff.mp hd
        rw [ih hrest hm fun hne => ?_, Option.map_some, hmu]
        have := hn hne
        rw [List.length_cons] at this
        omega
      rw [SignatureLedger.typeArgsEnd?] at hg ⊢
      rw [Token.isPunct_moved, Token.kind_moved,
        all_rel (hrest.head? hx) Token.followsTypeArgs fun _ _ => rfl]
      by_cases hless : t.isPunct .less = true
      · rw [if_pos hless] at hg ⊢
        exact hstep _ hg
      rw [if_neg hless] at hg ⊢
      by_cases hgreater : t.isPunct .greater = true
      · rw [if_pos hgreater] at hg ⊢
        by_cases hdepth : depth ≤ 1
        · rwa [if_pos hdepth] at hg ⊢
        · rw [if_neg hdepth] at hg ⊢
          exact hstep _ hg
      rw [if_neg hgreater] at hg ⊢
      by_cases hkind : t.kind.inTypeArgs = true
      · rw [if_pos hkind] at hg ⊢
        exact hstep _ hg
      · rw [if_neg hkind] at hg
        exact absurd hg (by simp)

/-- Type arguments agree: where one look-ahead finds none, the other could only find some that do
not leave its tail. -/
theorem Twins.typeArgs (h : Twins x x' ts ts') (hx : Tails x x') :
    Agree Extent.typeArgs Extent.typeArgs x x' ts ts' := by
  intro he he'
  unfold Extent.typeArgs at he he' ⊢
  cases hn : SignatureLedger.typeArgsEnd? (typeArgsLimit - 1) 1 ts with
  | some n =>
    rw [hn] at he
    rw [h.typeArgsEnd? hx hn he.leaves]
  | none =>
    cases hn' : SignatureLedger.typeArgsEnd? (typeArgsLimit - 1) 1 ts' with
    | none => rfl
    | some m =>
      rw [hn'] at he'
      have hback := h.symm.typeArgsEnd? hx.symm hn' he'.leaves
      exact absurd (hn.symm.trans hback) (by simp)

/-- The test that ends a line is the same in both lists. -/
theorem any_endsLine {s : Span} {q q' : Option Token} (hq : Option.Rel Token.Same q q') :
    q'.any (·.endsLine (t.moved s)) = q.any (·.endsLine t) :=
  any_rel hq (·.endsLine t) fun _ _ => rfl

theorem Twins.exprRound {s : Span} {q q' : Option Token} (h : Twins x x' ts ts') (hx : Tails x x')
    (hq : Option.Rel Token.Same q q') :
    (Extent.exprRound q t ts).Agree (Extent.exprRound q' (t.moved s) ts') x x' t (t.moved s)
      ts ts' := by
  unfold Extent.exprRound
  rw [any_endsLine hq, all_rel hq (·.kind.beforeOperand) fun _ _ => rfl,
    any_rel hq (fun q => q.kind.isName || q.isPunct .greater) fun _ _ => rfl]
  refine .ite (fun _ => .same) fun _ => ?_
  refine .ite (fun _ => .group h hx) fun _ => ?_
  refine .ite (fun _ => .angle h hx) fun _ => ?_
  exact .ite (fun _ => .go (h.typeArgs hx)) fun _ => .same

/-- An expression agrees on twins. -/
theorem Twins.expr {q q' : Option Token} (h : Twins x x' ts ts') (hx : Tails x x')
    (hq : Option.Rel Token.Same q q') :
    Agree (Extent.expr q) (Extent.expr q') x x' ts ts' :=
  Twins.rounds Extent.expr Extent.exprRound (fun _ n w => w[n]?) (Option.Rel Token.Same) hx
    (fun q => by rw [Extent.expr]) (fun q _ _ => Extent.expr_cons q)
    (fun hq h => h.exprRound hx hq) (fun _ h hn => h.getElem? hx hn) q q' h hq

/-! ## Statements, clauses and heads -/

theorem Twins.statementRound {s : Span} {q q' : Option Token} (h : Twins x x' ts ts')
    (hx : Tails x x') (hq : Option.Rel Token.Same q q') :
    (Extent.statementRound q t ts).Agree (Extent.statementRound q' (t.moved s) ts') x x' t
      (t.moved s) ts ts' := by
  unfold Extent.statementRound
  rw [any_endsLine hq]
  refine .ite (fun _ => .same) fun _ => .ite (fun _ => .same) fun _ => ?_
  exact .ite (fun _ => .group h hx) fun _ => .same

/-- A statement agrees on twins. -/
theorem Twins.statement {q q' : Option Token} (h : Twins x x' ts ts') (hx : Tails x x')
    (hq : Option.Rel Token.Same q q') :
    Agree (Extent.statement q) (Extent.statement q') x x' ts ts' :=
  Twins.rounds Extent.statement Extent.statementRound (fun _ n w => w[n]?)
    (Option.Rel Token.Same) hx (fun q => by rw [Extent.statement])
    (fun q _ _ => Extent.statement_cons q) (fun hq h => h.statementRound hx hq)
    (fun _ h hn => h.getElem? hx hn) q q' h hq

theorem Twins.semicolon? (h : Twins x x' ts ts') (hx : Tails x x') :
    Agree Extent.semicolon? Extent.semicolon? x x' ts ts' := by
  intro he he'
  cases ts with
  | nil => rw [h.eq_nil hx]
  | cons t ts =>
    refine h.agree_cons hx he he' ?_
    rintro s us rfl -
    rfl

/-- The attributes behind the name of a module agree on twins. They are a word on the line of the
name and a group behind it. -/
theorem Twins.attributes? (h : Twins x x' ts ts') (hx : Tails x x') :
    Agree Extent.attributes? Extent.attributes? x x' ts ts' := by
  intro he he'
  match ts, h with
  | [], h => rw [h.eq_nil hx]
  | [a], h =>
    refine h.agree_cons hx he he' ?_
    rintro s us rfl hrest
    rw [hrest.eq_nil hx]
    rfl
  | a :: b :: ts, h =>
    refine h.agree_cons hx he he' ?_
    rintro s us rfl hrest
    obtain ⟨s', us, rfl⟩ := hrest.next hx
    rw [Extent.attributes?] at he ⊢
    rw [Extent.attributes?, Token.isKeyword_moved, Token.isWord_moved, Token.newlineBefore_moved,
      Token.isPunct_moved]
    by_cases hab : ((a.isKeyword .withKw || a.isWord "assert") && !a.newlineBefore
        && b.isPunct .openBrace) = true
    · rw [if_pos hab] at he
      obtain ⟨hl, he⟩ := he.of_shift
      have htwins : Twins x x' ts us := h.drop hx hl
      rw [if_pos hab, if_pos hab, htwins.group hx he]
    · rw [if_neg hab, if_neg hab]

/-- A stretch and the semicolon behind it. -/
theorem Twins.ended {E E' : List Token → Extent} (h : Twins x x' ts ts') (hx : Tails x x')
    (hE : Agree E E' x x' ts ts') :
    Agree (Extent.ended E) (Extent.ended E') x x' ts ts' :=
  h.andThen hx hE fun _ _ h => h.semicolon? hx

theorem Twins.clauseRound {s : Span} {taken : Nat} {q q' : Option Token} (h : Twins x x' ts ts')
    (hx : Tails x x') (hq : Option.Rel Token.Same q q') :
    (Extent.clauseRound taken q t ts).Agree (Extent.clauseRound taken q' (t.moved s) ts') x x' t
      (t.moved s) ts ts' := by
  unfold Extent.clauseRound
  rw [any_rel hq (·.isPunct .closeBrace) fun _ _ => rfl]
  refine .ite (fun _ => .same) fun _ => .ite (fun _ => .same) fun _ => ?_
  refine .ite (fun _ => .same) fun _ => .ite (fun _ => ?_) fun _ => .ite (fun _ => ?_) fun _ => ?_
  · -- the name of a module ends the clause, with its attributes and a semicolon
    exact .stop (h.ended hx (h.attributes? hx))
  · -- so does a group in round brackets
    exact .stop (h.ended hx fun he _ => h.group hx he)
  · exact .ite (fun _ => .group h hx) fun _ => .same

/-- A clause agrees on twins. -/
theorem Twins.clause {taken : Nat} {q q' : Option Token} (h : Twins x x' ts ts') (hx : Tails x x')
    (hq : Option.Rel Token.Same q q') :
    Agree (Extent.clause taken q) (Extent.clause taken q') x x' ts ts' :=
  Twins.rounds (fun a => Extent.clause a.1 a.2) (fun a => Extent.clauseRound a.1 a.2)
    (fun a n w => (a.1 + 1 + n, w[n]?))
    (fun a a' => a'.1 = a.1 ∧ Option.Rel Token.Same a.2 a'.2) hx
    (fun a => by rw [Extent.clause]) (fun a _ _ => Extent.clause_cons a.1 a.2)
    (fun ha h => by rw [ha.1]; exact h.clauseRound hx ha.2)
    (fun ha h hn => ⟨by rw [ha.1], h.getElem? hx hn⟩) (taken, q) (taken, q') h ⟨rfl, hq⟩

theorem Twins.heritageRound {s : Span} (h : Twins x x' ts ts') (hx : Tails x x') :
    (Extent.heritageRound t ts).Agree (Extent.heritageRound (t.moved s) ts') x x' t (t.moved s)
      ts ts' := by
  refine .ite (fun _ => .same) fun _ => ?_
  exact .ite (fun _ => .angle h hx) fun _ => .ite (fun _ => .group h hx) fun _ => .same

/-- The heritage of a class agrees on twins. -/
theorem Twins.heritage (h : Twins x x' ts ts') (hx : Tails x x') :
    Agree Extent.heritage Extent.heritage x x' ts ts' :=
  h.plainRounds hx (by rw [Extent.heritage]) (fun _ _ => Extent.heritage_cons)
    fun h => h.heritageRound hx

/-! ## Modifiers -/

/-- The word before an opening brace is no modifier of a name. -/
theorem isWord_of_openBrace (ht : t.kind = .punct .openBrace) (w : String) :
    t.isWord w = false := by
  simp [Token.isWord, ht]

/-- The modifiers of a member are the same; at the tails there are none. By induction on the twins,
as each word is looked at together with the token behind it. -/
theorem Twins.memberModifiers (h : Twins x x' ts ts') (hx : Tails x x') (run : ModifierRun) :
    run.read ts' = run.read ts := by
  induction h generalizing run with
  | tail =>
    cases hx with
    | nil => rfl
    | brace hb =>
      -- no modifier starts with a brace
      have hnot : ∀ (t : Token) (us : List Token), t.kind = .punct .openBrace →
          run.read (t :: us) = run := by
        intro t us ht
        cases us with
        | nil => rfl
        | cons n us =>
          rw [ModifierRun.read, if_pos]
          simp [Token.isMemberModifier, isWord_of_openBrace ht]
      exact (hnot _ _ (by exact hb)).trans (hnot _ _ hb).symm
  | @cons t s ts ts' h ih =>
    cases ts with
    | nil =>
      rw [h.eq_nil hx]
      rfl
    | cons n ts =>
      obtain ⟨s', us, rfl⟩ := h.next hx
      rw [ModifierRun.read, ModifierRun.read, ih, Token.isMemberModifier_moved,
        Token.isWord_moved, Token.isPunct_moved, Token.startsMemberName_moved,
        Token.newlineBefore_moved]
      rfl

/-- The modifiers, wherever the declaration starts. -/
def DeclModifiers.unplaced (m : DeclModifiers) : DeclModifiers := { m with lo? := none }

/-- What two readings of modifiers have in common: the modifiers but for the place where the
declaration starts, and their number, which of `size` tokens leaves the tail. -/
structure SameReading (x : List Token) (size : Nat) (a a' : DeclModifiers × Nat) : Prop where
  unplaced : a'.1.unplaced = a.1.unplaced
  count : a'.2 = a.2
  leaves : a.2 + x.length ≤ size

/-- The same reading of modifiers in either branch. -/
theorem SameReading.ite {size : Nat} {a a' b b' : DeclModifiers × Nat} {c : Prop} [Decidable c]
    (ha : c → SameReading x size a a') (hb : ¬ c → SameReading x size b b') :
    SameReading x size (if c then a else b) (if c then a' else b') := by
  split
  · exact ha ‹_›
  · exact hb ‹_›

/-- Before an opening brace there are no modifiers. -/
theorem read_of_openBrace (ht : t.kind = .punct .openBrace) (afterDefault : Bool)
    (m : DeclModifiers) (count : Nat) (us : List Token) :
    DeclModifiers.read afterDefault m count (t :: us) = (m, count) :=
  Parser.read_of_not_modifier (isWord_of_openBrace ht _) (isWord_of_openBrace ht _)
    (isWord_of_openBrace ht _) afterDefault m count us

/-- The modifiers of a declaration are the same but for the place where it starts, and they leave
the tail. -/
theorem Twins.declModifiers (h : Twins x x' ts ts') (hx : Tails x x') (afterDefault : Bool)
    (count : Nat) {m m' : DeclModifiers} (hm : m'.unplaced = m.unplaced) :
    SameReading x (count + ts.length) (DeclModifiers.read afterDefault m count ts)
      (DeclModifiers.read afterDefault m' count ts') := by
  induction h generalizing m m' count with
  | tail =>
    cases hx with
    | nil => exact ⟨hm, rfl, Nat.le_refl _⟩
    | @brace t s _ _ hb =>
      rw [read_of_openBrace hb, read_of_openBrace (t := t.moved s) hb]
      exact ⟨hm, rfl, Nat.le_refl _⟩
  | @cons t s ts ts' h ih =>
    have hlength := h.length_le
    have hstop : SameReading x (count + (t :: ts).length) (m, count) (m', count) :=
      ⟨hm, rfl, by rw [List.length_cons]; omega⟩
    cases ts with
    | nil =>
      rw [h.eq_nil hx]
      exact hstop
    | cons n ts =>
      obtain ⟨s', us, rfl⟩ := h.next hx
      -- every branch either stops or notes one more modifier and reads on
      have hmore : ∀ {m m' : DeclModifiers}, m'.unplaced = m.unplaced →
          SameReading x (count + (t :: n :: ts).length)
            (DeclModifiers.read afterDefault m (count + 1) (n :: ts))
            (DeclModifiers.read afterDefault m' (count + 1) (n.moved s' :: us)) := by
        intro m m' hm
        have hread := ih (count + 1) hm
        rwa [Nat.add_assoc, Nat.add_comm 1] at hread
      rw [DeclModifiers.read, DeclModifiers.read, Token.isWord_moved, Token.isDeclKeyword_moved,
        Token.isKeyword_moved, Token.newlineBefore_moved]
      refine .ite (fun _ => hstop) fun _ => ?_
      refine .ite (fun _ => hmore (congrArg ({ · with isDeclare := true }) hm)) fun _ => ?_
      refine .ite (fun _ => hmore (congrArg ({ · with isAbstract := true }) hm)) fun _ => ?_
      exact .ite (fun _ => hmore (congrArg ({ · with isAsync := true }) hm)) fun _ => hstop

end SignatureLedger
