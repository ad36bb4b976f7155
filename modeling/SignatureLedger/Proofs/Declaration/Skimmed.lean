import SignatureLedger.Proofs.Declaration.Nested

/-!
# Skimmed tokens

A parse skims over most tokens: it counts brackets where it needs the end of a group and looks at
nothing else. Here the brackets of a stretch are matched for real, each closing one with an opening
one of its own kind (`Matched`). Beside that stands what a parse makes of the same stretch
(`Skimmed`), with the brackets that are at fault in it. The brackets of a stretch are matched where
it can be skimmed over with none of them at fault, and nowhere else (`matched_iff_skimmed`).
-/

namespace SignatureLedger

/-! ## Matched brackets -/

namespace Token

/-- The bracket that closes this one. -/
def partner? (t : Token) : Option Punct :=
  match t.kind with
  | .punct .openParen => some .closeParen
  | .punct .openBracket => some .closeBracket
  | .punct .openBrace => some .closeBrace
  | _ => none

/-- The token is a bracket of some kind. -/
def isBracket (t : Token) : Bool := t.kind.isOpener || t.kind.isCloser

/-- The opening brackets are those that another bracket closes. -/
theorem isSome_partner? (t : Token) : t.partner?.isSome = t.kind.isOpener := by
  unfold partner?
  cases t.kind with
  | punct p => cases p <;> rfl
  | _ => rfl

/-- Only an opening bracket has a partner. -/
theorem partner?_of_not_isOpener {t : Token} (h : t.kind.isOpener = false) : t.partner? = none := by
  rwa [← isSome_partner?, Option.isSome_eq_false_iff, Option.isNone_iff_eq_none] at h

end Token

/-- The brackets that are due after the token, the next one first; `none` where the token closes
something else. -/
def dueAfter? (due : List Punct) (t : Token) : Option (List Punct) :=
  match t.partner? with
  | some c => some (c :: due)
  | none =>
    if t.kind.isCloser then
      match due with
      | [] => none
      | c :: rest => if t.isPunct c then some rest else none
    else some due

/-- The brackets that are due after the tokens. -/
def dueBehind? (due : List Punct) (ts : List Token) : Option (List Punct) := ts.foldlM dueAfter? due

/-- Each closing bracket closes the opening one of its kind that was opened last, and none is left
open. -/
def Matched (ts : List Token) : Prop := dueBehind? [] ts = some []

instance (ts : List Token) : Decidable (Matched ts) :=
  inferInstanceAs (Decidable (dueBehind? [] ts = some []))

section Due

variable {due rest : List Punct} {t : Token} {us ts : List Token}

/-- What is due behind some tokens, read off the first of them. -/
theorem dueBehind?_cons (due : List Punct) (t : Token) (ts : List Token) :
    dueBehind? due (t :: ts) = (dueAfter? due t).bind (dueBehind? · ts) := List.foldlM_cons ..

/-- What is due behind two stretches, one after the other. -/
theorem dueBehind?_append (due : List Punct) (us ts : List Token) :
    dueBehind? due (us ++ ts) = (dueBehind? due us).bind (dueBehind? · ts) := List.foldlM_append

/-- Behind an opening bracket its partner is due. -/
theorem dueAfter?_of_partner {c : Punct} (h : t.partner? = some c) (due : List Punct) :
    dueAfter? due t = some (c :: due) := by
  rw [dueAfter?.eq_def, h]

/-- A plain token leaves what is due. -/
theorem dueAfter?_of_plain (ho : t.kind.isOpener = false) (hc : t.kind.isCloser = false)
    (due : List Punct) : dueAfter? due t = some due := by
  rw [dueAfter?.eq_def, Token.partner?_of_not_isOpener ho]
  simp [hc]

/-- The closing bracket that is due is no longer due behind it. -/
theorem dueAfter?_of_closer {c : Punct} (hc : t.kind.isCloser = true) (h : t.isPunct c = true)
    (due : List Punct) : dueAfter? (c :: due) t = some due := by
  rw [dueAfter?.eq_def, Token.partner?_of_not_isOpener (TokenKind.isOpener_of_isCloser hc)]
  simp [hc, h]

/-- What is due further out does not matter. An opening bracket puts its partner in front, a closing
one takes the first that is due away, and neither looks further. -/
theorem dueAfter?_append (h : dueAfter? due t = some rest) (more : List Punct) :
    dueAfter? (due ++ more) t = some (rest ++ more) := by
  unfold dueAfter? at h ⊢
  cases hp : t.partner? with
  | some c =>
    simp only [hp, Option.some.injEq] at h ⊢
    rw [← h, List.cons_append]
  | none =>
    simp only [hp] at h ⊢
    by_cases hc : t.kind.isCloser = true
    · rw [if_pos hc] at h ⊢
      cases due with
      | nil => exact absurd h (by simp)
      | cons c due =>
        dsimp only [List.cons_append] at h ⊢
        by_cases ht : t.isPunct c = true
        · rw [if_pos ht, Option.some_inj] at h
          rw [if_pos ht, h]
        · rw [if_neg ht] at h
          exact absurd h (by simp)
    · rw [if_neg hc, Option.some_inj] at h
      rw [if_neg hc, h]

/-- What is due further out does not matter to a stretch. -/
theorem dueBehind?_more (h : dueBehind? due ts = some rest) (more : List Punct) :
    dueBehind? (due ++ more) ts = some (rest ++ more) := by
  induction ts generalizing due with
  | nil => exact congrArg (fun ds => ds.map (· ++ more)) h
  | cons t ts ih =>
    rw [dueBehind?_cons, Option.bind_eq_some_iff] at h
    obtain ⟨next, hnext, hts⟩ := h
    rw [dueBehind?_cons, dueAfter?_append hnext more, Option.bind_some, ih hts]

/-- A matched stretch changes nothing for the tokens behind it. -/
theorem Matched.dueBehind? (h : Matched ts) (due : List Punct) : dueBehind? due ts = some due :=
  dueBehind?_more h due

/-- Without brackets there is nothing to match. -/
theorem matched_of_no_bracket (h : ∀ t ∈ ts, t.isBracket = false) : Matched ts := by
  suffices ∀ due, dueBehind? due ts = some due from this []
  intro due
  induction ts with
  | nil => rfl
  | cons t ts ih =>
    have ht := h t List.mem_cons_self
    rw [Token.isBracket, Bool.or_eq_false_iff] at ht
    rw [dueBehind?_cons, dueAfter?_of_plain ht.1 ht.2, Option.bind_some,
      ih fun u hu => h u (List.mem_cons_of_mem t hu)]

end Due

/-! ## What a parse skims over -/

/-- Where a parse stands, as far as it matters for what it can overlook. -/
inductive Place where
  /-- Between brackets that are skipped as a whole. -/
  | bracketed
  /-- Between the parts of items and members. -/
  | items
  /-- In a value. -/
  | value
  /-- In the clause of an import or export, or in the head of a class or interface. -/
  | clause
deriving DecidableEq, Repr

namespace Place

/-- A semicolon does not end the stretch. -/
def passesSemicolon : Place → Bool
  | bracketed | items => true
  | value | clause => false

/-- A token of this kind is passed over for itself. -/
def passes (m : Place) (k : TokenKind) : Bool :=
  !k.isOpener && !k.isCloser && (k != .punct .semicolon || m.passesSemicolon)

/-- A token that is passed opens nothing. -/
theorem isOpener_of_passes {m : Place} {k : TokenKind} (h : m.passes k = true) :
    k.isOpener = false := by
  simp only [passes, Bool.and_eq_true, Bool.not_eq_true'] at h
  exact h.1.1

/-- A token that is passed closes nothing. -/
theorem isCloser_of_passes {m : Place} {k : TokenKind} (h : m.passes k = true) :
    k.isCloser = false := by
  simp only [passes, Bool.and_eq_true, Bool.not_eq_true'] at h
  exact h.1.2

/-- A token that is no bracket and no semicolon is passed. -/
theorem passes_of_not {m : Place} {k : TokenKind} (ho : ¬ k.isOpener = true)
    (hc : ¬ k.isCloser = true) (hs : k ≠ .punct .semicolon) : m.passes k = true := by
  simp [passes, ho, hc, hs]

/-- The token behind which such a place starts. -/
def startsBehind (m : Place) (t : Token) : Bool :=
  match m with
  | value => t.isPunct .assign || t.isKeyword .defaultKw
  | clause =>
    t.isKeyword .importKw || t.isKeyword .exportKw || t.isKeyword .classKw || t.isWord "interface"
  | bracketed | items => false

end Place

/-- The pair is at fault unless one bracket closes the other. -/
def pairFaults (o c : Token) : List Token := if o.partner?.any c.isPunct then [] else [o, c]

/-- The brackets are at fault unless they match. -/
def stretchFaults (ts : List Token) : List Token :=
  if Matched ts then [] else ts.filter Token.isBracket

/-- A pair without faults is an opening bracket and its partner. -/
theorem exists_partner_of_pairFaults {o c : Token} (h : pairFaults o c = []) :
    ∃ k, o.partner? = some k ∧ c.isPunct k = true := by
  unfold pairFaults at h
  cases hp : o.partner? with
  | none => exact absurd h (by simp [hp])
  | some k =>
    by_cases hk : c.isPunct k = true
    · exact ⟨k, rfl, hk⟩
    · exact absurd h (by simp [hp, hk])

/-- A stretch without faults is matched. -/
theorem matched_of_stretchFaults {ts : List Token} (h : stretchFaults ts = []) : Matched ts := by
  by_cases hm : Matched ts
  · exact hm
  · rw [stretchFaults, if_neg hm, List.filter_eq_nil_iff] at h
    exact matched_of_no_bracket fun t ht => Bool.not_eq_true _ ▸ h t ht

/-- In such a place a parse can skim over the tokens without a word, the brackets `faults` among
them being at fault. -/
inductive Skimmed : (m : Place) → (faults ts : List Token) → Prop
  | nil {m : Place} : Skimmed m [] []
  | plain {m : Place} {t : Token} {f ts : List Token} (ht : m.passes t.kind = true)
      (hts : Skimmed m f ts) : Skimmed m f (t :: ts)
  /-- A group is skipped up to the bracket that closes it by count, of whatever kind that is. -/
  | group {m : Place} {o c : Token} {f g inner ts : List Token} (ho : o.kind.isOpener = true)
      (hc : c.kind.isCloser = true) (hinner : Skimmed .bracketed f inner) (hts : Skimmed m g ts) :
      Skimmed m (pairFaults o c ++ (f ++ g)) (o :: (inner ++ c :: ts))
  /-- In what looks like type arguments inside a value nobody looks at brackets. -/
  | typeArgs {less : Token} {f args ts behind : List Token} (hless : less.isPunct .less = true)
      (hargs : typeArgsEnd? (typeArgsLimit - 1) 1 (args ++ behind) = some args.length)
      (hts : Skimmed .value f ts) :
      Skimmed .value (stretchFaults args ++ f) (less :: (args ++ ts))
  /-- Only a brace ends a clause or the head of a class. -/
  | stray {c : Token} {f ts : List Token} (hc : c.kind.isCloser = true)
      (hbrace : c.isPunct .closeBrace = false) (hts : Skimmed .clause f ts) :
      Skimmed .clause (c :: f) (c :: ts)
  /-- A value, clause or head stands among the parts of an item. -/
  | lead {m : Place} {t : Token} {f g a ts : List Token} (ht : m.startsBehind t = true)
      (ha : Skimmed m f a) (hts : Skimmed .items g ts) : Skimmed .items (f ++ g) (t :: (a ++ ts))
  /-- The body of a class or namespace is closed by the brace that is asked for. -/
  | body {o c : Token} {f g inner ts : List Token} (ho : o.isPunct .openBrace = true)
      (hc : c.isPunct .closeBrace = true) (hinner : Skimmed .items f inner)
      (hts : Skimmed .items g ts) : Skimmed .items (f ++ g) (o :: (inner ++ c :: ts))

namespace Skimmed

variable {m : Place} {f g us ts : List Token}

/-- Two stretches, one skimmed after the other. -/
theorem append (hu : Skimmed m f us) (ht : Skimmed m g ts) : Skimmed m (f ++ g) (us ++ ts) := by
  induction hu with
  | nil => exact ht
  | plain hk _ ih => exact .plain hk (ih ht)
  | group ho hc hinner _ _ ih =>
    rw [List.append_assoc, List.append_assoc, List.cons_append, List.append_assoc, List.cons_append]
    exact .group ho hc hinner (ih ht)
  | typeArgs hless hargs _ ih =>
    rw [List.append_assoc, List.cons_append, List.append_assoc]
    exact .typeArgs hless hargs (ih ht)
  | stray hc hbrace _ ih => exact .stray hc hbrace (ih ht)
  | lead hk ha _ _ ih =>
    rw [List.append_assoc, List.cons_append, List.append_assoc]
    exact .lead hk ha (ih ht)
  | body ho hc hinner _ _ ih =>
    rw [List.append_assoc, List.cons_append, List.append_assoc, List.cons_append]
    exact .body ho hc hinner (ih ht)

/-- A stretch of tokens that are passed is skimmed without faults. -/
theorem of_passes (h : ∀ t ∈ ts, m.passes t.kind = true) : Skimmed m [] ts := by
  induction ts with
  | nil => exact .nil
  | cons t ts ih =>
    exact .plain (h t List.mem_cons_self) (ih fun u hu => h u (List.mem_cons_of_mem t hu))

/-- The partner of an opening brace is the closing one. -/
theorem partner?_of_openBrace {o : Token} (ho : o.isPunct .openBrace = true) :
    o.partner? = some .closeBrace := by
  simp only [Token.isPunct, beq_iff_eq] at ho
  rw [Token.partner?, ho]

/-- A closing brace closes. -/
theorem isCloser_of_closeBrace {c : Token} (hc : c.isPunct .closeBrace = true) :
    c.kind.isCloser = true := by
  simp only [Token.isPunct, beq_iff_eq] at hc
  rw [hc]
  rfl

/-- The word behind which an item starts is no bracket. -/
theorem passes_of_startsBehind {t : Token} (h : m.startsBehind t = true) :
    t.kind.isOpener = false ∧ t.kind.isCloser = false := by
  cases hk : t.kind with
  | punct p =>
    cases m with
    | value =>
      have hp : p = .assign := by
        simpa [Place.startsBehind, Token.isPunct, Token.isKeyword, hk] using h
      rw [hp]
      exact ⟨rfl, rfl⟩
    | clause => simp [Place.startsBehind, Token.isKeyword, Token.isWord, hk] at h
    | bracketed => exact absurd h (by simp [Place.startsBehind])
    | items => exact absurd h (by simp [Place.startsBehind])
  | _ => exact ⟨rfl, rfl⟩

/-- What is at fault is a bracket of the stretch. By induction on the skimming: each way to skim
adds the brackets that it does not pair, or none. -/
theorem mem_of_mem_faults (h : Skimmed m f ts) {t : Token} (ht : t ∈ f) :
    t ∈ ts ∧ t.isBracket = true := by
  induction h with
  | nil => exact absurd ht List.not_mem_nil
  | plain _ _ ih => exact ⟨List.mem_cons_of_mem _ (ih ht).1, (ih ht).2⟩
  | @group m o c f g inner ts ho hc _ _ ihInner ih =>
    rw [List.mem_append, List.mem_append] at ht
    rcases ht with ht | ht | ht
    · rw [pairFaults] at ht
      split at ht
      · exact absurd ht List.not_mem_nil
      · simp only [List.mem_cons, List.not_mem_nil, or_false] at ht
        rcases ht with rfl | rfl
        · exact ⟨by simp, by simp [Token.isBracket, ho]⟩
        · exact ⟨by simp, by simp [Token.isBracket, hc]⟩
    · exact ⟨by simp [(ihInner ht).1], (ihInner ht).2⟩
    · exact ⟨by simp [(ih ht).1], (ih ht).2⟩
  | typeArgs _ _ _ ih =>
    rcases List.mem_append.mp ht with ht | ht
    · rw [stretchFaults] at ht
      split at ht
      · exact absurd ht List.not_mem_nil
      · have hmem := List.mem_filter.mp ht
        exact ⟨by simp [hmem.1], hmem.2⟩
    · exact ⟨by simp [(ih ht).1], (ih ht).2⟩
  | stray hc _ _ ih =>
    rcases List.mem_cons.mp ht with rfl | ht
    · exact ⟨List.mem_cons_self, by simp [Token.isBracket, hc]⟩
    · exact ⟨List.mem_cons_of_mem _ (ih ht).1, (ih ht).2⟩
  | lead _ _ _ iha ih | body _ _ _ _ iha ih =>
    rcases List.mem_append.mp ht with ht | ht
    · exact ⟨by simp [(iha ht).1], (iha ht).2⟩
    · exact ⟨by simp [(ih ht).1], (ih ht).2⟩

/-- A pair of brackets around a matched stretch. -/
theorem dueBehind?_pair {o c : Token} {k : Punct} {inner : List Token} {due : List Punct}
    (ho : o.partner? = some k) (hc : c.kind.isCloser = true) (hk : c.isPunct k = true)
    (hinner : ∀ due, dueBehind? due inner = some due) (hts : ∀ due, dueBehind? due ts = some due) :
    dueBehind? due (o :: (inner ++ c :: ts)) = some due := by
  rw [dueBehind?_cons, dueAfter?_of_partner ho, Option.bind_some, dueBehind?_append, hinner,
    Option.bind_some, dueBehind?_cons, dueAfter?_of_closer hc hk, Option.bind_some, hts]

/-- A stretch skimmed without faults leaves what is due. By induction on the skimming, with a case
for each way to skim. -/
theorem dueBehind?_eq (h : Skimmed m f ts) (hf : f = []) (due : List Punct) :
    dueBehind? due ts = some due := by
  -- each way to skim leaves what is due as it was, unless it names a bracket at fault
  induction h generalizing due with
  | nil => rfl
  | plain ht _ ih =>
    rw [dueBehind?_cons, dueAfter?_of_plain (Place.isOpener_of_passes ht)
      (Place.isCloser_of_passes ht), Option.bind_some, ih hf]
  | @group m o c f g inner ts ho hc _ _ ihInner ih =>
    obtain ⟨hpair, hfg⟩ := List.append_eq_nil_iff.mp hf
    obtain ⟨rfl, rfl⟩ := List.append_eq_nil_iff.mp hfg
    obtain ⟨k, hk, hck⟩ := exists_partner_of_pairFaults hpair
    exact dueBehind?_pair hk hc hck (ihInner rfl) (ih rfl)
  | @typeArgs less f args ts behind hless _ _ ih =>
    obtain ⟨hargs, rfl⟩ := List.append_eq_nil_iff.mp hf
    have hplain : less.kind.isOpener = false ∧ less.kind.isCloser = false := by
      simp only [Token.isPunct, beq_iff_eq] at hless
      rw [hless]
      exact ⟨rfl, rfl⟩
    rw [dueBehind?_cons, dueAfter?_of_plain hplain.1 hplain.2, Option.bind_some, dueBehind?_append,
      (matched_of_stretchFaults hargs).dueBehind?, Option.bind_some, ih rfl]
  | stray => exact absurd hf (by simp)
  | lead ht _ _ iha ih =>
    obtain ⟨rfl, rfl⟩ := List.append_eq_nil_iff.mp hf
    have hplain := passes_of_startsBehind ht
    rw [dueBehind?_cons, dueAfter?_of_plain hplain.1 hplain.2, Option.bind_some, dueBehind?_append,
      iha rfl, Option.bind_some, ih rfl]
  | body ho hc _ _ ihInner ih =>
    obtain ⟨rfl, rfl⟩ := List.append_eq_nil_iff.mp hf
    exact dueBehind?_pair (partner?_of_openBrace ho) (isCloser_of_closeBrace hc) hc (ihInner rfl)
      (ih rfl)

/-- **Where no bracket is at fault, all match.** -/
theorem matched (h : Skimmed m [] ts) : Matched ts := h.dueBehind?_eq rfl []

end Skimmed

/-! ## Nothing else matches -/

/-- A bracket and its partner are a pair without faults. -/
theorem pairFaults_of_partner? {o c : Token} {k : Punct} (ho : o.partner? = some k)
    (hc : c.isPunct k = true) : pairFaults o c = [] := by
  rw [pairFaults, ho, Option.any_some, if_pos hc]

/-- A pair around a stretch that is skimmed is skimmed. -/
theorem Skimmed.pair {m : Place} {o c : Token} {k : Punct} {inner ts : List Token}
    (ho : o.partner? = some k) (hcloser : c.kind.isCloser = true) (hc : c.isPunct k = true)
    (hinner : Skimmed .bracketed [] inner) (hts : Skimmed m [] ts) :
    Skimmed m [] (o :: (inner ++ c :: ts)) := by
  have hopener : o.kind.isOpener = true := by rw [← Token.isSome_partner?, ho, Option.isSome_some]
  have hgroup := Skimmed.group hopener hcloser hinner hts
  rwa [pairFaults_of_partner? ho hc] at hgroup

/-- Either nothing was due and all is skimmed over, or what is due next is found behind a stretch
that is skimmed over. -/
theorem skimmed_of_dueBehind? (m : Place) (hm : m.passesSemicolon = true) {due : List Punct}
    {ts : List Token} (h : dueBehind? due ts = some []) :
    (due = [] ∧ Skimmed m [] ts) ∨ ∃ k rest inner c us, due = k :: rest ∧ ts = inner ++ c :: us
      ∧ c.kind.isCloser = true ∧ c.isPunct k = true ∧ Skimmed m [] inner
      ∧ dueBehind? rest us = some [] := by
  match ts with
  | [] => exact .inl ⟨Option.some.inj h, .nil⟩
  | t :: ts =>
    rw [dueBehind?_cons, Option.bind_eq_some_iff] at h
    obtain ⟨next, hnext, h⟩ := h
    cases hp : t.partner? with
    | some k =>
      rw [dueAfter?_of_partner hp, Option.some_inj] at hnext
      subst hnext
      obtain ⟨hno, -⟩ | ⟨k', rest, inner, c, us, hdue, rfl, hcloser, hc, hinner, h⟩ :=
        skimmed_of_dueBehind? .bracketed rfl h
      · exact absurd hno (List.cons_ne_nil k due)
      obtain ⟨rfl, rfl⟩ := List.cons.inj hdue
      have hlt : us.length < (inner ++ c :: us).length + 1 := by
        rw [List.length_append, List.length_cons]
        omega
      -- the pair that the bracket opens, and what comes behind it
      rcases skimmed_of_dueBehind? m hm h with
        ⟨hnil, hus⟩ | ⟨k', rest, inner', c', us', hdue, rfl, hcloser', hc', hinner', h⟩
      · exact .inl ⟨hnil, .pair hp hcloser hc hinner hus⟩
      · exact .inr ⟨k', rest, t :: (inner ++ c :: inner'), c', us', hdue, by simp, hcloser', hc',
          .pair hp hcloser hc hinner hinner', h⟩
    | none =>
      rw [dueAfter?.eq_def, hp] at hnext
      dsimp only at hnext
      by_cases hcloser : t.kind.isCloser = true
      · rw [if_pos hcloser] at hnext
        cases due with
        | nil => exact absurd hnext (by simp)
        | cons k due =>
          dsimp only at hnext
          split at hnext
          · rename_i hk
            obtain rfl := Option.some.inj hnext
            exact .inr ⟨k, due, [], t, ts, rfl, rfl, hcloser, hk, .nil, h⟩
          · exact absurd hnext (by simp)
      · rw [if_neg hcloser, Option.some_inj] at hnext
        subst hnext
        have hopener : t.kind.isOpener = false := by
          rw [← Token.isSome_partner?, hp, Option.isSome_none]
        have hplain : m.passes t.kind = true := by simp [Place.passes, hopener, hcloser, hm]
        rcases skimmed_of_dueBehind? m hm h with
          ⟨hnil, hts⟩ | ⟨k, rest, inner, c, us, hdue, rfl, hcloser', hc, hinner, h⟩
        · exact .inl ⟨hnil, .plain hplain hts⟩
        · exact .inr ⟨k, rest, t :: inner, c, us, hdue, rfl, hcloser', hc, .plain hplain hinner, h⟩
termination_by ts.length

/-- The brackets match where a parse can skim over them with none at fault, and nowhere else. -/
theorem matched_iff_skimmed (ts : List Token) : Matched ts ↔ Skimmed .items [] ts := by
  refine ⟨fun h => ?_, Skimmed.matched⟩
  rcases skimmed_of_dueBehind? .items rfl h with ⟨-, hts⟩ | ⟨k, rest, -, -, -, hdue, -⟩
  · exact hts
  · exact absurd hdue.symm (List.cons_ne_nil k rest)

end SignatureLedger
