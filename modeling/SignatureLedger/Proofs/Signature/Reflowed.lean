import SignatureLedger.Proofs.Signature.TwoSources
import SignatureLedger.Proofs.Token.Tiles

/-!
# Layout between tokens

Two sources can have the same tokens with other blanks between them. Their parses take the same
tokens in step, and the stretches that the signatures are made of differ in their blanks only; so
the sources have the same signatures (`Analysis.fingerprints_eq_of_reflowed`).
-/

namespace SignatureLedger

open Byte SignatureLedger.Normal

/-! ## Tight tokens -/

/-- Around these punctuators blanks do not matter. -/
def Punct.isTight : Punct → Bool
  | colon | openParen | closeParen | openBracket | closeBracket | openBrace | closeBrace | comma
  | semicolon => true
  | _ => false

/-- The token is a sign next to which the normal form drops blanks. -/
def Token.isTight (t : Token) : Bool :=
  match t.kind with
  | .punct p => p.isTight
  | _ => false

/-- All bytes of a tight sign are tight. -/
theorem Punct.all_isTight_text {p : Punct} (h : p.isTight = true) :
    (bytes p.text).all Normal.isTight = true := by
  cases p <;> first | exact absurd h (by decide) | decide +kernel

/-- All bytes of a tight token are tight. -/
theorem Token.Lies.all_isTight {source : Bytes} {pos : Nat} {t : Token} (h : t.Lies source pos)
    (ht : t.isTight = true) : t.lexeme.all Normal.isTight = true := by
  unfold Token.isTight at ht
  split at ht
  · rename_i p hkind
    rw [h.punct p hkind]
    exact Punct.all_isTight_text ht
  · exact absurd ht (by simp)

/-- The first and the last byte of a token are loose only if the token is. -/
theorem Token.Lies.loose {source : Bytes} {pos : Nat} {t : Token} (h : t.Lies source pos) {b : UInt8}
    (hb : b ∈ t.lexeme) (hloose : Normal.isTight b = false) : t.isTight = false := by
  cases ht : t.isTight with
  | false => rfl
  | true =>
    have := List.all_eq_true.mp (h.all_isTight ht) b hb
    rw [hloose] at this
    exact absurd this (by simp)

/-! ## Blanks between akin texts -/

namespace Normal

variable {a b : UInt8} {g g' u v w x x' : Bytes}

/-- Texts that are alike anywhere are alike behind their first byte. -/
theorem AlikeAnywhere.behind_first (hb : isSpace b = false) (h : AlikeAnywhere (b :: u) (b :: v)) :
    Alike (some b) u v := by
  generalize hs : b :: u = s at h
  generalize ht : b :: v = t at h
  cases h none with
  | done hrun =>
    have := hrun.blank b (hs ▸ List.mem_cons_self)
    rw [hb] at this
    exact absurd this (by simp)
  | byte hrun _ _ hrest =>
    obtain rfl := eq_nil_of_append_eq_cons hrun.blank hb hs.symm
    obtain rfl := eq_nil_of_append_eq_cons hrun.blank' hb ht.symm
    obtain ⟨rfl, rfl⟩ := List.cons.inj hs
    obtain ⟨-, rfl⟩ := List.cons.inj ht
    exact hrest

/-- Two texts with blanks between them: whether there are any matters only between bytes that are
not tight. -/
theorem Akin.across (hw : w ≠ []) (hrun : SameRun g g') (hb : isSpace b = false)
    (hgap : ∀ a ∈ w.getLast?, SameGap (some a) b g g') (h : Akin (b :: x) (b :: x')) :
    Akin (w ++ (g ++ b :: x)) (w ++ (g' ++ b :: x')) := by
  intro u v huv
  have hrest : Alike (some b) (x ++ u) (x' ++ v) := (h u v huv).behind_first hb
  obtain ⟨w, a, rfl⟩ : ∃ w₀ a, w = w₀ ++ [a] := ⟨_, _, (List.dropLast_concat_getLast hw).symm⟩
  have hlast := hgap a (by simp)
  simp only [List.append_assoc]
  refine Akin.refl _ _ _ fun p => ?_
  show Alike p (a :: (g ++ b :: (x ++ u))) (a :: (g' ++ b :: (x' ++ v)))
  cases ha : isSpace a with
  | false => exact Alike.cons ha (.byte hrun hlast hb hrest)
  | true =>
    -- a blank at the end of the first text joins the blanks behind it
    have hboth : SameRun (a :: g) (a :: g') :=
      (SameRun.refl (r := [a]) (by simpa using ha)).append hrun
    show Alike p ((a :: g) ++ b :: (x ++ u)) ((a :: g') ++ b :: (x' ++ v))
    exact .byte hboth (fun _ _ _ _ => by simp) hb hrest

end Normal

/-! ## Sources with the same tokens -/

/-- The gaps before `u` in the one source and before `u'` in the other have blanks only. They are
both empty or neither is, unless one of the tokens beside them is tight. -/
structure SameJoint (s s' : Bytes) (t u t' u' : Token) : Prop where
  blank : ∀ b ∈ s.slice t.span.hi u.span.lo, isSpace b = true
  blank' : ∀ b ∈ s'.slice t'.span.hi u'.span.lo, isSpace b = true
  joint : t.isTight = false → u.isTight = false →
    (s.slice t.span.hi u.span.lo = [] ↔ s'.slice t'.span.hi u'.span.lo = [])

/-- Between the tokens of the two lists there are gaps that do not differ in what matters. -/
def SameJoints (s s' : Bytes) : List Token → List Token → Prop
  | t :: u :: ts, t' :: u' :: ts' =>
    SameJoint s s' t u t' u' ∧ SameJoints s s' (u :: ts) (u' :: ts')
  | _, _ => True

/-- The two sources have the same tokens, and the gaps between these, the end marker left out, do
not differ in what matters. -/
structure Reflowed (dialect : Dialect) (s s' : Bytes) : Prop where
  faces : (lex dialect s).tokens.map Token.face = (lex dialect s').tokens.map Token.face
  joints : SameJoints s s' (lex dialect s).tokens.dropLast (lex dialect s').tokens.dropLast

/-- No gap is between the tokens inside the span. -/
def Unbroken (s : Span) : List Token → Prop
  | t :: u :: ts =>
    (s.lo ≤ t.span.lo → u.span.hi ≤ s.hi → u.span.lo = t.span.hi) ∧ Unbroken s (u :: ts)
  | _ => True

section Decide

variable (s s' : Bytes) (span : Span)

instance (t u t' u' : Token) : Decidable (SameJoint s s' t u t' u') :=
  -- the bytes of the gaps are looked at, not all bytes that there are
  have := List.decidableBAll (isSpace · = true) (s.slice t.span.hi u.span.lo)
  have := List.decidableBAll (isSpace · = true) (s'.slice t'.span.hi u'.span.lo)
  decidable_of_iff
    ((∀ b ∈ s.slice t.span.hi u.span.lo, isSpace b = true) ∧
      (∀ b ∈ s'.slice t'.span.hi u'.span.lo, isSpace b = true) ∧
      (t.isTight = false → u.isTight = false →
        (s.slice t.span.hi u.span.lo = [] ↔ s'.slice t'.span.hi u'.span.lo = [])))
    ⟨fun ⟨hblank, hblank', hjoint⟩ => ⟨hblank, hblank', hjoint⟩,
      fun ⟨hblank, hblank', hjoint⟩ => ⟨hblank, hblank', hjoint⟩⟩

instance decidableSameJoints : (ts ts' : List Token) → Decidable (SameJoints s s' ts ts')
  | t :: u :: ts, t' :: u' :: ts' =>
    have := decidableSameJoints (u :: ts) (u' :: ts')
    inferInstanceAs (Decidable (SameJoint s s' t u t' u' ∧ SameJoints s s' (u :: ts) (u' :: ts')))
  | [], _ => inferInstanceAs (Decidable True)
  | [_], _ => inferInstanceAs (Decidable True)
  | _ :: _ :: _, [] => inferInstanceAs (Decidable True)
  | _ :: _ :: _, [_] => inferInstanceAs (Decidable True)

instance (dialect : Dialect) : Decidable (Reflowed dialect s s') :=
  decidable_of_iff
    ((lex dialect s).tokens.map Token.face = (lex dialect s').tokens.map Token.face ∧
      SameJoints s s' (lex dialect s).tokens.dropLast (lex dialect s').tokens.dropLast)
    ⟨fun ⟨hfaces, hjoints⟩ => ⟨hfaces, hjoints⟩, fun ⟨hfaces, hjoints⟩ => ⟨hfaces, hjoints⟩⟩

instance decidableUnbroken : (ts : List Token) → Decidable (Unbroken span ts)
  | t :: u :: ts =>
    have := decidableUnbroken (u :: ts)
    inferInstanceAs (Decidable
      ((span.lo ≤ t.span.lo → u.span.hi ≤ span.hi → u.span.lo = t.span.hi) ∧
        Unbroken span (u :: ts)))
  | [] => inferInstanceAs (Decidable True)
  | [_] => inferInstanceAs (Decidable True)

end Decide

/-! ## Stretches between tokens -/

/-- Lists of the same tokens lie in the two sources, behind the offsets `pos` and `pos'`. -/
structure SameTiles (s s' : Bytes) (pos pos' : Nat) (ts ts' : List Token) : Prop where
  tiles : Tiles s pos ts
  tiles' : Tiles s' pos' ts'
  faces : ts.map Token.face = ts'.map Token.face
  joints : SameJoints s s' ts ts'

/-- Both texts start with the same byte of the text `l`, which is no blank, and they are akin. -/
structure SameStretch (l w w' : Bytes) : Prop where
  first : ∃ b x x', b ∈ l ∧ isSpace b = false ∧ w = b :: x ∧ w' = b :: x'
  akin : Akin w w'

namespace SameTiles

variable {s s' : Bytes} {pos pos' n k : Nat} {t t' u u' v v' : Token} {ts ts' : List Token}

/-- Behind the first pair of tiles the rest lies the same way. -/
theorem behind (h : SameTiles s s' pos pos' (t :: ts) (t' :: ts')) :
    SameTiles s s' t.span.hi t'.span.hi ts ts' := by
  obtain ⟨htiles, htiles', hfaces, hjoints⟩ := h
  cases htiles with
  | cons ht hts =>
  cases htiles' with
  | cons ht' hts' =>
  refine ⟨hts, hts', (List.cons.inj hfaces).2, ?_⟩
  cases ts with
  | nil => trivial
  | cons u ts =>
    cases ts' with
    | nil => exact absurd hfaces (by simp)
    | cons u' ts' => exact hjoints.2

/-- The tokens from the place `n` on. -/
theorem drop (h : SameTiles s s' pos pos' ts ts') (n : Nat) :
    ∃ lo lo', SameTiles s s' lo lo' (ts.drop n) (ts'.drop n) := by
  induction n generalizing pos pos' ts ts' with
  | zero => exact ⟨pos, pos', h⟩
  | succ n ih =>
    cases ts with
    | nil =>
      have hnil : ts' = [] := by simpa using h.faces.symm
      subst hnil
      exact ⟨pos, pos', h⟩
    | cons t ts =>
      cases ts' with
      | nil => exact absurd h.faces (by simp)
      | cons t' ts' => exact ih h.behind

/-- The first pair of tiles has the same lexeme. -/
theorem lexeme_eq (h : SameTiles s s' pos pos' (t :: ts) (t' :: ts')) : t'.lexeme = t.lexeme := by
  have hface := (List.cons.inj h.faces).1
  exact (congrArg (fun f => f.2.1) hface).symm

/-- The first pair of tiles starts a line in both sources or in neither. -/
theorem newline_eq (h : SameTiles s s' pos pos' (t :: ts) (t' :: ts')) :
    t'.newlineBefore = t.newlineBefore := by
  have hface := (List.cons.inj h.faces).1
  exact (congrArg (fun f => f.2.2) hface).symm

/-- A line ends in both gaps or in neither. -/
theorem sameRun (h : SameTiles s s' pos pos' (t :: u :: ts) (t' :: u' :: ts')) :
    SameRun (s.slice t.span.hi u.span.lo) (s'.slice t'.span.hi u'.span.lo) := by
  have hnewline := h.behind.newline_eq
  obtain ⟨htiles, htiles', -, hjoints⟩ := h
  cases htiles with
  | cons _ hts =>
  cases hts with
  | cons hu _ =>
  cases htiles' with
  | cons _ hts' =>
  cases hts' with
  | cons hu' _ =>
  refine ⟨hjoints.1.blank, hjoints.1.blank', ?_⟩
  rw [← hu.line hjoints.1.blank, ← hu'.line hjoints.1.blank', hnewline]

end SameTiles

/-- The text of a stretch is the text of its first token, the gap behind that, and what follows. -/
theorem Tiles.slice_cons {s : Bytes} {pos k : Nat} {t u v : Token} {ts : List Token}
    (h : Tiles s pos (t :: u :: ts)) (hv : (u :: ts)[k]? = some v) :
    s.slice t.span.lo v.span.hi
      = t.lexeme ++ (s.slice t.span.hi u.span.lo ++ s.slice u.span.lo v.span.hi) := by
  cases h with
  | cons ht hts =>
    obtain ⟨hlo, hlt, hhi⟩ := hts.at_ hv
    have hfirst := hts.first_le hv
    have hgap := (hts.at_ (k := 0) rfl).1
    have := ht.lt
    rw [← ht.text, Bytes.slice_append_slice hgap (by omega) hhi,
      Bytes.slice_append_slice (by omega) (by omega) hhi]

namespace SameTiles

variable {s s' : Bytes} {pos pos' n k : Nat} {t t' u u' v v' : Token} {ts ts' : List Token}

/-- From the first token to another one. By induction on the number of tokens between them: the
texts of the tokens are equal, and the gaps between them may differ only as in `SameGap`. -/
theorem sameStretch (h : SameTiles s s' pos pos' (t :: ts) (t' :: ts'))
    (hv : (t :: ts)[k]? = some v) (hv' : (t' :: ts')[k]? = some v') :
    SameStretch t.lexeme (s.slice t.span.lo v.span.hi) (s'.slice t'.span.lo v'.span.hi) := by
  induction k generalizing pos pos' t t' ts ts' with
  | zero =>
    obtain rfl := Option.some.inj hv
    obtain rfl := Option.some.inj hv'
    have hlexeme := h.lexeme_eq
    cases h.tiles with
    | cons ht _ =>
    cases h.tiles' with
    | cons ht' _ =>
    obtain ⟨b, w, hw, hb⟩ := ht.starts
    rw [ht.text, ht'.text, hlexeme]
    exact ⟨⟨b, w, w, by rw [hw]; exact List.mem_cons_self, hb, hw, hw⟩, .refl _⟩
  | succ k ih =>
    cases ts with
    | nil => exact absurd hv (by simp)
    | cons u ts =>
    cases ts' with
    | nil => exact absurd hv' (by simp)
    | cons u' ts' =>
    rw [List.getElem?_cons_succ] at hv hv'
    obtain ⟨⟨b, x, x', hmem, hb, hx, hx'⟩, hakin⟩ := ih h.behind hv hv'
    rw [h.tiles.slice_cons hv, h.tiles'.slice_cons hv', h.lexeme_eq, hx, hx']
    rw [hx, hx'] at hakin
    have hrun := h.sameRun
    obtain ⟨htiles, -, -, hjoints⟩ := h
    cases htiles with
    | cons ht hts =>
    cases hts with
    | cons hu _ =>
    obtain ⟨c, w, hw, hc⟩ := ht.starts
    have hjoint : ∀ a ∈ t.lexeme.getLast?, SameGap (some a) b
        (s.slice t.span.hi u.span.lo) (s'.slice t'.span.hi u'.span.lo) := by
      intro a ha a' ha' hloose hloose'
      obtain rfl := Option.some.inj ha'
      exact hjoints.1.joint (ht.loose (List.mem_of_getLast? ha) hloose) (hu.loose hmem hloose')
    have hstart : ∀ z, t.lexeme ++ z = c :: (w ++ z) := fun z => by rw [hw, List.cons_append]
    exact ⟨⟨c, _, _, by rw [hw]; exact List.mem_cons_self, hc, hstart _, hstart _⟩,
      Akin.across (by simp [hw]) hrun hb hjoint hakin⟩

/-- In an unbroken stretch there is no gap. By induction on the tokens, which have equal texts and
stand right behind one another in both sources. -/
theorem slice_eq {span span' : Span} (h : SameTiles s s' pos pos' (t :: ts) (t' :: ts'))
    (hv : (t :: ts)[k]? = some v) (hv' : (t' :: ts')[k]? = some v')
    (hu : Unbroken span (t :: ts)) (hu' : Unbroken span' (t' :: ts'))
    (hlo : span.lo ≤ t.span.lo) (hlo' : span'.lo ≤ t'.span.lo)
    (hhi : v.span.hi ≤ span.hi) (hhi' : v'.span.hi ≤ span'.hi) :
    s'.slice t'.span.lo v'.span.hi = s.slice t.span.lo v.span.hi := by
  induction k generalizing pos pos' t t' ts ts' with
  | zero =>
    obtain rfl := Option.some.inj hv
    obtain rfl := Option.some.inj hv'
    have hlexeme := h.lexeme_eq
    cases h.tiles with
    | cons ht _ =>
    cases h.tiles' with
    | cons ht' _ =>
    rw [ht.text, ht'.text, hlexeme]
  | succ k ih =>
    cases ts with
    | nil => exact absurd hv (by simp)
    | cons u ts =>
    cases ts' with
    | nil => exact absurd hv' (by simp)
    | cons u' ts' =>
    rw [List.getElem?_cons_succ] at hv hv'
    -- both gaps are empty
    have hbehind := h.behind
    have hle := hbehind.tiles.first_le hv
    have hle' := hbehind.tiles'.first_le hv'
    have hgap : u.span.lo = t.span.hi := hu.1 hlo (by omega)
    have hgap' : u'.span.lo = t'.span.hi := hu'.1 hlo' (by omega)
    have hle₀ : t.span.lo ≤ u.span.lo := (h.tiles.first_le (k := 1) rfl).1
    have hle₀' : t'.span.lo ≤ u'.span.lo := (h.tiles'.first_le (k := 1) rfl).1
    rw [h.tiles.slice_cons hv, h.tiles'.slice_cons hv', h.lexeme_eq,
      ih hbehind hv hv' hu.2 hu'.2 (by omega) (by omega), hgap, hgap', Bytes.slice_of_hi_le
      (Nat.le_refl _), Bytes.slice_of_hi_le (Nat.le_refl _)]

/-! ### Places in the lists -/

/-- The lists from the tokens at the place `n` on, and a later place in them. -/
theorem from_ (h : SameTiles s s' pos pos' ts ts') (ht : ts[n]? = some t) (ht' : ts'[n]? = some t')
    (hle : n ≤ k) : ∃ lo lo' us us', SameTiles s s' lo lo' (t :: us) (t' :: us') ∧
      t :: us = ts.drop n ∧ t' :: us' = ts'.drop n ∧
      (t :: us)[k - n]? = ts[k]? ∧ (t' :: us')[k - n]? = ts'[k]? := by
  have hcons : ∀ {l : List Token} {a : Token}, l[n]? = some a → a :: l.drop (n + 1) = l.drop n := by
    intro l a hl
    obtain ⟨hn, rfl⟩ := List.getElem?_eq_some_iff.mp hl
    exact (List.drop_eq_getElem_cons hn).symm
  have hget : ∀ l : List Token, (l.drop n)[k - n]? = l[k]? := by
    intro l
    rw [List.getElem?_drop, Nat.add_sub_cancel' hle]
  obtain ⟨lo, lo', hdrop⟩ := h.drop n
  rw [← hcons ht, ← hcons ht'] at hdrop
  refine ⟨lo, lo', _, _, hdrop, hcons ht, hcons ht', ?_, ?_⟩
  · rw [hcons ht, hget]
  · rw [hcons ht', hget]

/-- From one token to a later one, the two texts are the same stretch. -/
theorem stretch_at (h : SameTiles s s' pos pos' ts ts') (ht : ts[n]? = some t)
    (ht' : ts'[n]? = some t') (hv : ts[k]? = some v) (hv' : ts'[k]? = some v') (hle : n ≤ k) :
    SameStretch t.lexeme (s.slice t.span.lo v.span.hi) (s'.slice t'.span.lo v'.span.hi) := by
  obtain ⟨lo, lo', us, us', hfrom, -, -, hk, hk'⟩ := h.from_ ht ht' hle
  exact hfrom.sameStretch (hk.trans hv) (hk'.trans hv')

/-- Between two tokens next to each other, the two texts have the same run of blanks. -/
theorem sameRun_at (h : SameTiles s s' pos pos' ts ts') (ht : ts[n]? = some t)
    (ht' : ts'[n]? = some t') (hu : ts[n + 1]? = some u) (hu' : ts'[n + 1]? = some u') :
    SameRun (s.slice t.span.hi u.span.lo) (s'.slice t'.span.hi u'.span.lo) := by
  obtain ⟨lo, lo', us, us', hfrom, -, -, hk, hk'⟩ := h.from_ ht ht' (Nat.le_add_right n 1)
  rw [Nat.add_sub_cancel_left, List.getElem?_cons_succ] at hk hk'
  obtain ⟨vs, rfl⟩ := List.head?_eq_some_iff.mp (List.head?_eq_getElem? ▸ hk.trans hu)
  obtain ⟨vs', rfl⟩ := List.head?_eq_some_iff.mp (List.head?_eq_getElem? ▸ hk'.trans hu')
  exact hfrom.sameRun

/-- Up to a later token, without it. It is `stretch_at` with one gap more. -/
theorem nearly_at (h : SameTiles s s' pos pos' ts ts') (ht : ts[n]? = some t)
    (ht' : ts'[n]? = some t') (hv : ts[k]? = some v) (hv' : ts'[k]? = some v') (hlt : n < k) :
    NearlyAkin (s.slice t.span.lo v.span.lo) (s'.slice t'.span.lo v'.span.lo) := by
  obtain ⟨m, rfl⟩ : ∃ m, k = m + 1 := ⟨k - 1, by omega⟩
  -- the token before the later one, and the gap between them
  have hbefore : ∀ {l : List Token} {a : Token}, l[m + 1]? = some a → ∃ b, l[m]? = some b := by
    intro l a hl
    have := (List.getElem?_eq_some_iff.mp hl).1
    exact ⟨l[m], List.getElem?_eq_getElem (by omega)⟩
  obtain ⟨u, hu⟩ := hbefore hv
  obtain ⟨u', hu'⟩ := hbefore hv'
  have hle : n ≤ m := by omega
  have hparts : ∀ {w : Bytes} {lo : Nat} {l : List Token} {a b c : Token}, Tiles w lo l →
      l[n]? = some a → l[m]? = some b → l[m + 1]? = some c →
      w.slice a.span.lo c.span.lo = w.slice a.span.lo b.span.hi ++ w.slice b.span.hi c.span.lo := by
    intro w lo l a b c hl ha hb hc
    obtain ⟨-, hlt, hhi⟩ := hl.at_ hc
    have hab : a.span.lo ≤ b.span.hi := by
      have := (hl.at_ hb).2.1
      rcases Nat.eq_or_lt_of_le hle with rfl | hlt
      · obtain rfl := Option.some.inj (ha.symm.trans hb)
        omega
      · have := hl.hi_le ha hb hlt
        have := (hl.at_ ha).2.1
        omega
    exact (Bytes.slice_append_slice hab (hl.hi_le hb hc (Nat.lt_succ_self m)) (by omega)).symm
  exact ⟨_, _, _, _, hparts h.tiles ht hu hv, hparts h.tiles' ht' hu' hv',
    (h.stretch_at ht ht' hu hu' hle).akin, h.sameRun_at hu hu' hv hv'⟩

end SameTiles

/-- A span that no blank breaks is not broken in the tokens from some place on either. -/
theorem Unbroken.drop {span : Span} {ts : List Token} (h : Unbroken span ts) (n : Nat) :
    Unbroken span (ts.drop n) := by
  induction n generalizing ts with
  | zero => exact h
  | succ n ih =>
    cases ts with
    | nil => exact h
    | cons t ts =>
      cases ts with
      | nil =>
        rw [List.drop_succ_cons, List.drop_nil]
        trivial
      | cons u ts => exact ih h.2

/-! ## Runs of the parser -/

/-- The two sources, and the spans of names that no gap parts in them. -/
def reflowViews (dialect : Dialect) (s s' : Bytes) : Views where
  source := s
  source' := s'
  fits := fun span => Unbroken span (lex dialect s).tokens.dropLast
  fits' := fun span => Unbroken span (lex dialect s').tokens.dropLast

section Texts

variable {s s' : Bytes} {ts ts' : List Token} {V : Views} {r : Runs} {t t' u u' : Token}

/-- The runs read all the tokens of two sources. The tokens tile both, from the first byte on. -/
structure Runs.Reads (r : Runs) (V : Views) (ts ts' : List Token) : Prop where
  tiles : SameTiles V.source V.source' 0 0 ts ts'
  noTail : r.tail = []
  ahead : r.start.ahead = ts
  ahead' : r.start'.ahead = ts'
  stop : r.start.cursor.stop = V.source.length
  stop' : r.start'.cursor.stop = V.source'.length
  fits : ∀ span, V.fits span → Unbroken span ts
  fits' : ∀ span, V.fits' span → Unbroken span ts'

namespace Runs.Reads

/-- At each distance ahead both cursors show a pair of tokens, or the end of the source. -/
theorem peekAt (h : r.Reads V ts ts') (n : Nat) :
    (∃ t t', r.start.cursor.peekAt n = t ∧ r.start'.cursor.peekAt n = t' ∧
      ts[n]? = some t ∧ ts'[n]? = some t') ∨
    (r.start.cursor.peekAt n = Token.eofAt V.source.length ∧
      r.start'.cursor.peekAt n = Token.eofAt V.source'.length ∧ ts.length ≤ n) := by
  have hlen : ts.length = ts'.length := by
    have := congrArg List.length h.tiles.faces
    rwa [List.length_map, List.length_map] at this
  have hpeek : r.start.cursor.peekAt n = ts[n]?.getD (Token.eofAt V.source.length) := by
    rw [Cursor.peekAt, List.getD_eq_getElem?_getD, h.stop, ← h.ahead]
    rfl
  have hpeek' : r.start'.cursor.peekAt n = ts'[n]?.getD (Token.eofAt V.source'.length) := by
    rw [Cursor.peekAt, List.getD_eq_getElem?_getD, h.stop', ← h.ahead']
    rfl
  rcases Nat.lt_or_ge n ts.length with hlt | hge
  · left
    have hget := List.getElem?_eq_getElem hlt
    have hget' := List.getElem?_eq_getElem (hlen ▸ hlt)
    rw [hget] at hpeek
    rw [hget'] at hpeek'
    exact ⟨_, _, hpeek, hpeek', hget, hget'⟩
  · right
    rw [List.getElem?_eq_none hge] at hpeek
    rw [List.getElem?_eq_none (hlen ▸ hge)] at hpeek'
    exact ⟨hpeek, hpeek', hge⟩

/-- Matched tokens stand at the same place of the two lists, or are both at the end. -/
theorem matched (h : r.Reads V ts ts') (ht : r.Matched t t') :
    (∃ n : Nat, ts[n]? = some t ∧ ts'[n]? = some t') ∨
      (t = Token.eofAt V.source.length ∧ t' = Token.eofAt V.source'.length) := by
  obtain ⟨n, -, rfl, rfl⟩ := ht
  rcases h.peekAt n with ⟨t, t', rfl, rfl, hn, hn'⟩ | ⟨heq, heq', -⟩
  · exact .inl ⟨n, hn, hn'⟩
  · exact .inr ⟨heq, heq'⟩

/-- Inner tokens stand at the same place of the two lists, or are both behind the last one. -/
theorem inner (h : r.Reads V ts ts') (ht : r.Inner t t') :
    (∃ n : Nat, ts[n]? = some t ∧ ts'[n]? = some t') ∨
      (t = Token.eofAt V.source.length ∧ t' = Token.eofAt V.source'.length ∧ ts = []) := by
  obtain ⟨n, hn, rfl, rfl⟩ := ht
  rw [h.noTail] at hn
  rcases h.peekAt n with ⟨t, t', rfl, rfl, hget, hget'⟩ | ⟨heq, heq', hle⟩
  · exact .inl ⟨n, hget, hget'⟩
  · have hleft : r.start.left = ts.length := congrArg List.length h.ahead
    refine .inr ⟨heq, heq', List.length_eq_zero_iff.mp ?_⟩
    rw [hleft, List.length_nil] at hn
    omega

/-- From a token to the end of one: the stretches are the same up to their blanks, or empty. -/
theorem stretch (h : r.Reads V ts ts') (ht : r.Matched t t') (hu : r.Inner u u') :
    (∃ l, SameStretch l (V.source.slice t.span.lo u.span.hi)
      (V.source'.slice t'.span.lo u'.span.hi)) ∨
    (V.source.slice t.span.lo u.span.hi = [] ∧ V.source'.slice t'.span.lo u'.span.hi = []) := by
  have htiles := h.tiles.tiles
  have htiles' := h.tiles.tiles'
  rcases h.inner hu with ⟨k, hk, hk'⟩ | ⟨rfl, rfl, hnil⟩
  · rcases h.matched ht with ⟨n, hn, hn'⟩ | ⟨rfl, rfl⟩
    · rcases Nat.lt_or_ge k n with hlt | hle
      · exact .inr ⟨Bytes.slice_of_hi_le (htiles.hi_le hk hn hlt),
          Bytes.slice_of_hi_le (htiles'.hi_le hk' hn' hlt)⟩
      · exact .inl ⟨_, h.tiles.stretch_at hn hn' hk hk' hle⟩
    · exact .inr ⟨Bytes.slice_of_hi_le (htiles.at_ hk).2.2,
        Bytes.slice_of_hi_le (htiles'.at_ hk').2.2⟩
  · rcases h.matched ht with ⟨n, hn, -⟩ | ⟨rfl, rfl⟩
    · rw [hnil] at hn
      exact absurd hn (by simp)
    · exact .inr ⟨Bytes.slice_of_hi_le (Nat.le_refl _), Bytes.slice_of_hi_le (Nat.le_refl _)⟩

/-- From a matched token to an inner one, the two texts are nearly akin. -/
theorem akin (h : r.Reads V ts ts') (ht : r.Matched t t') (hu : r.Inner u u') :
    V.AkinAt ⟨t.span.lo, u.span.hi⟩ ⟨t'.span.lo, u'.span.hi⟩ := by
  rcases h.stretch ht hu with ⟨l, hsame⟩ | ⟨hnil, hnil'⟩
  · exact hsame.akin
  · show Normal.Akin (V.source.slice t.span.lo u.span.hi) (V.source'.slice t'.span.lo u'.span.hi)
    rw [hnil, hnil']
    exact .refl []

/-- The span of two tokens is the stretch from the first of them to the other one. -/
theorem join (h : r.Reads V ts ts') (ht : r.Inner t t') (hu : r.Inner u u') :
    (t.span.join u.span = ⟨t.span.lo, u.span.hi⟩ ∧ t'.span.join u'.span = ⟨t'.span.lo, u'.span.hi⟩)
    ∨ (t.span.join u.span = ⟨u.span.lo, t.span.hi⟩ ∧
      t'.span.join u'.span = ⟨u'.span.lo, t'.span.hi⟩) := by
  have hjoin : ∀ {a b : Token}, a.span.lo ≤ b.span.lo → a.span.hi ≤ b.span.hi →
      a.span.join b.span = ⟨a.span.lo, b.span.hi⟩ ∧ b.span.join a.span = ⟨a.span.lo, b.span.hi⟩ := by
    intro a b hlo hhi
    rw [Span.join, Span.join, Nat.min_eq_left hlo, Nat.min_eq_right hlo, Nat.max_eq_left hhi,
      Nat.max_eq_right hhi]
    exact ⟨rfl, rfl⟩
  have htiles := h.tiles.tiles
  have htiles' := h.tiles.tiles'
  have hahead : ∀ {w : Bytes} {lo n k : Nat} {l : List Token} {a b : Token}, Tiles w lo l → n < k →
      l[n]? = some a → l[k]? = some b →
      a.span.lo ≤ b.span.lo ∧ a.span.hi ≤ b.span.hi := by
    intro w lo n k l a b hl hlt ha hb
    have := hl.hi_le ha hb hlt
    have := (hl.at_ ha).2.1
    have := (hl.at_ hb).2.1
    omega
  rcases h.inner ht with ⟨n, hn, hn'⟩ | ⟨rfl, rfl, hnil⟩
  · rcases h.inner hu with ⟨k, hk, hk'⟩ | ⟨-, -, hnil⟩
    · rcases Nat.lt_trichotomy n k with hlt | rfl | hlt
      · obtain ⟨hlo, hhi⟩ := hahead htiles hlt hn hk
        obtain ⟨hlo', hhi'⟩ := hahead htiles' hlt hn' hk'
        exact .inl ⟨(hjoin hlo hhi).1, (hjoin hlo' hhi').1⟩
      · obtain rfl := Option.some.inj (hn.symm.trans hk)
        obtain rfl := Option.some.inj (hn'.symm.trans hk')
        exact .inl ⟨(hjoin (Nat.le_refl _) (Nat.le_refl _)).1,
          (hjoin (Nat.le_refl _) (Nat.le_refl _)).1⟩
      · obtain ⟨hlo, hhi⟩ := hahead htiles hlt hk hn
        obtain ⟨hlo', hhi'⟩ := hahead htiles' hlt hk' hn'
        exact .inr ⟨(hjoin hlo hhi).2, (hjoin hlo' hhi').2⟩
    · rw [hnil] at hn
      exact absurd hn (by simp)
  · rcases h.inner hu with ⟨k, hk, -⟩ | ⟨rfl, rfl, -⟩
    · rw [hnil] at hk
      exact absurd hk (by simp)
    · exact .inl ⟨(hjoin (Nat.le_refl _) (Nat.le_refl _)).1,
        (hjoin (Nat.le_refl _) (Nat.le_refl _)).1⟩

/-- A name that no gap parts is the same in both sources. -/
theorem name_eq (h : r.Reads V ts ts') (ht : r.Inner t t') (hu : r.Inner u u')
    (hfits : V.fits (t.span.join u.span)) (hfits' : V.fits' (t'.span.join u'.span)) :
    V.source'.slice t'.span.lo u'.span.hi = V.source.slice t.span.lo u.span.hi := by
  rcases h.inner ht with ⟨n, hn, hn'⟩ | ⟨rfl, rfl, hnil⟩
  · rcases h.inner hu with ⟨k, hk, hk'⟩ | ⟨-, -, hnil⟩
    · rcases Nat.lt_or_ge k n with hlt | hle
      · rw [Bytes.slice_of_hi_le (h.tiles.tiles.hi_le hk hn hlt),
          Bytes.slice_of_hi_le (h.tiles.tiles'.hi_le hk' hn' hlt)]
      · obtain ⟨lo, lo', us, us', hfrom, hus, hus', hget, hget'⟩ := h.tiles.from_ hn hn' hle
        have hunbroken := (h.fits _ hfits).drop n
        have hunbroken' := (h.fits' _ hfits').drop n
        rw [← hus] at hunbroken
        rw [← hus'] at hunbroken'
        exact hfrom.slice_eq (hget.trans hk) (hget'.trans hk') hunbroken hunbroken'
          (Nat.min_le_left _ _) (Nat.min_le_left _ _) (Nat.le_max_right _ _) (Nat.le_max_right _ _)
    · rw [hnil] at hn
      exact absurd hn (by simp)
  · rcases h.inner hu with ⟨k, hk, -⟩ | ⟨rfl, rfl, -⟩
    · rw [hnil] at hk
      exact absurd hk (by simp)
    · exact (Bytes.slice_of_hi_le (Nat.le_refl _)).trans (Bytes.slice_of_hi_le (Nat.le_refl _)).symm

/-- Up to a brace, whatever gap is before that. Where the brace does not stand behind the other
token both texts are empty. -/
theorem nearly (h : r.Reads V ts ts') (ht : r.Matched t t') (hu : r.Matched u u')
    (hbrace : u.kind = .punct .openBrace) :
    NearlyAkin (V.source.slice t.span.lo u.span.lo) (V.source'.slice t'.span.lo u'.span.lo) := by
  have hempty : u.span.lo ≤ t.span.lo → u'.span.lo ≤ t'.span.lo →
      NearlyAkin (V.source.slice t.span.lo u.span.lo) (V.source'.slice t'.span.lo u'.span.lo) := by
    intro hle hle'
    rw [Bytes.slice_of_hi_le hle, Bytes.slice_of_hi_le hle']
    exact (Normal.Akin.refl []).nearly
  have htiles := h.tiles.tiles
  have htiles' := h.tiles.tiles'
  rcases h.matched hu with ⟨k, hk, hk'⟩ | ⟨rfl, -⟩
  · obtain ⟨-, hlt, hhi⟩ := htiles.at_ hk
    obtain ⟨-, hlt', hhi'⟩ := htiles'.at_ hk'
    rcases h.matched ht with ⟨n, hn, hn'⟩ | ⟨rfl, rfl⟩
    · rcases Nat.lt_trichotomy n k with hnk | rfl | hkn
      · exact h.tiles.nearly_at hn hn' hk hk' hnk
      · obtain rfl := Option.some.inj (hn.symm.trans hk)
        obtain rfl := Option.some.inj (hn'.symm.trans hk')
        exact hempty (Nat.le_refl _) (Nat.le_refl _)
      · have := htiles.hi_le hk hn hkn
        have := htiles'.hi_le hk' hn' hkn
        exact hempty (by omega) (by omega)
    · exact hempty (Nat.le_trans (Nat.le_of_lt hlt) hhi) (Nat.le_trans (Nat.le_of_lt hlt') hhi')
  · exact absurd hbrace (by simp [Token.eofAt])

/-- The two reads take the same texts from the two sources. -/
theorem texts (h : r.Reads V ts ts') (hsource : r.start.source = V.source)
    (hsource' : r.start'.source = V.source') : r.Texts V where
  source := hsource
  source' := hsource'
  closed := h.akin
  joined := by
    intro t t' u u' ht hu
    rcases h.join ht hu with ⟨hjoin, hjoin'⟩ | ⟨hjoin, hjoin'⟩
    · rw [hjoin, hjoin']
      exact h.akin ht.matched hu
    · rw [hjoin, hjoin']
      exact h.akin hu.matched ht
  opened := h.nearly
  first := by
    intro t t' u u' ht hu
    rcases h.stretch ht hu with ⟨-, ⟨b, x, x', -, -, hx, hx'⟩, -⟩ | ⟨hnil, hnil'⟩
    · rw [hx, hx']
      rfl
    · rw [hnil, hnil']
  named := h.name_eq

end Runs.Reads

end Texts

/-! ## Signatures -/

/-- **Layout between tokens does not matter.** Two sources without findings that have the same
tokens, with blanks between them that do not differ in what matters, have the same symbols with the
same digests, if no gap parts the name of a namespace in either. The sources have fewer than `2 ^
32` bytes, so that no offset wraps where words of 32 bits hold it. -/
theorem Analysis.fingerprints_eq_of_reflowed {options : AnalysisOptions} {path s s' : Bytes}
    (hsize : s.length < 2 ^ 32) (hsize' : s'.length < 2 ^ 32)
    (hreflowed : Reflowed (Dialect.ofPath path) s s')
    (hclean : (analyze options path s).found = []) (hclean' : (analyze options path s').found = [])
    (hnames : ∀ span ∈ Decl.spaceNamesOfAll (decls options path s),
      Unbroken span (lex (Dialect.ofPath path) s).tokens.dropLast)
    (hnames' : ∀ span ∈ Decl.spaceNamesOfAll (decls options path s'),
      Unbroken span (lex (Dialect.ofPath path) s').tokens.dropLast) :
    (∀ t ∈ (lex (Dialect.ofPath path) s).tokens, t.span.InWords) ∧
      (∀ t ∈ (lex (Dialect.ofPath path) s').tokens, t.span.InWords) ∧
      (analyze options path s).fingerprints = (analyze options path s').fingerprints := by
  refine ⟨fun _ => inWords_of_mem_lex hsize, fun _ => inWords_of_mem_lex hsize', ?_⟩
  obtain ⟨ts, hts, htiles⟩ := tiles_lex (Dialect.ofPath path) s
  obtain ⟨ts', hts', htiles'⟩ := tiles_lex (Dialect.ofPath path) s'
  have hlast : (lex (Dialect.ofPath path) s).tokens.dropLast = ts := by
    rw [hts, List.dropLast_concat]
  have hlast' : (lex (Dialect.ofPath path) s').tokens.dropLast = ts' := by
    rw [hts', List.dropLast_concat]
  have hfaces : ts.map Token.face = ts'.map Token.face := by
    rw [← hlast, ← hlast', List.map_dropLast, List.map_dropLast, hreflowed.faces]
  have hcursor := cursor_start options hts htiles
  have hcursor' := cursor_start options hts' htiles'
  let r : Runs :=
    { start := start options path s, start' := start options path s', tail := [], tail' := []
      quiet := quiet_start, quiet' := quiet_start, tails := .nil
      twins := by
        show Twins [] [] (start options path s).cursor.ahead (start options path s').cursor.ahead
        rw [hcursor, hcursor']
        exact twins_of_face hfaces }
  let V := reflowViews (Dialect.ofPath path) s s'
  have hreads : r.Reads V ts ts' :=
    { tiles := ⟨htiles, htiles', hfaces, hlast ▸ hlast' ▸ hreflowed.joints⟩
      noTail := rfl
      ahead := congrArg Cursor.ahead hcursor
      ahead' := congrArg Cursor.ahead hcursor'
      stop := congrArg Cursor.stop hcursor
      stop' := congrArg Cursor.stop hcursor'
      fits := fun span h => hlast ▸ h
      fits' := fun span h => hlast' ▸ h }
  have hsignatures := signatures_eq_of_hole (Runs.Hole.none (hreads.texts rfl rfl) rfl) rfl rfl hclean
    hclean' (fun h => absurd rfl h) (fun h => absurd rfl h) hnames hnames'
  exact congrArg (List.map fun s : Signature => (s.name, s.kind, s.digest)) hsignatures

namespace ReflowSample

/-- A namespace with a function in it, and a class. -/
def source : Bytes :=
  bytes "export namespace a.b \x7b\n  export function f(x: number): T \x7b return x \x7d\n\x7d\n
export class C \x7b m (a :string);  k: 'u  v' = 1 \x7d"

/-- The same with other blanks. -/
def other : Bytes :=
  bytes " /* a */ export  namespace\ta.b\x7b\r\n\texport function f ( x :number ) :T\x7breturn  x\x7d \n \x7d
export class  C\x7bm(a: string) ; k : 'u  v'   =   1\x7d // end"

end ReflowSample

/-- A sample and its reflowed copy meet all the conditions, and their fingerprints agree. -/
theorem fingerprints_eq_of_reflowed_sample :
    Reflowed .typeScript ReflowSample.source ReflowSample.other
      ∧ (analyze {} (bytes "m.ts") ReflowSample.source).found = []
      ∧ (analyze {} (bytes "m.ts") ReflowSample.other).found = []
      ∧ (analyze {} (bytes "m.ts") ReflowSample.source).fingerprints
        = (analyze {} (bytes "m.ts") ReflowSample.other).fingerprints := by
  have hreflowed : Reflowed .typeScript ReflowSample.source ReflowSample.other := by
    decide +kernel
  have hclean : (analyze {} (bytes "m.ts") ReflowSample.source).found = [] := by decide +kernel
  have hclean' : (analyze {} (bytes "m.ts") ReflowSample.other).found = [] := by decide +kernel
  obtain ⟨-, -, heq⟩ := @Analysis.fingerprints_eq_of_reflowed {} (bytes "m.ts") _ _
    (by decide +kernel) (by decide +kernel) hreflowed hclean hclean' (by decide +kernel)
    (by decide +kernel)
  exact ⟨hreflowed, hclean, hclean', heq⟩

end SignatureLedger
