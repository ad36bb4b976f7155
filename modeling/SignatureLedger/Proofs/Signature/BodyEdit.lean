import SignatureLedger.Proofs.Signature.TwoSources
import SignatureLedger.Proofs.Token.Places

/-!
# Bodies exchanged

Two sources can differ in what stands between the braces of one body. Up to the first brace their
tokens lie at the same places, and behind the second one at places that are equally far from it. The
parses are two runs with a hole in that place, and no stretch that a signature is made of reaches
into the hole; so the sources have the same signatures (`Analysis.fingerprints_eq_of_bodyEdit`).
-/

namespace SignatureLedger

open SignatureLedger.Parser

/-! ## Slices -/

namespace Bytes

variable {x y : Bytes} {lo hi : Nat}

/-- A slice inside the first part is a slice of that part. -/
theorem slice_append_left (h : hi ≤ x.length) (y : Bytes) :
    (x ++ y).slice lo hi = x.slice lo hi := by
  by_cases hle : lo ≤ hi
  · rw [slice_of_le hle (by rw [List.length_append]; omega), slice_of_le hle h,
      List.drop_append_of_le_length (Nat.le_trans hle h),
      List.take_append_of_le_length (by rw [List.length_drop]; omega)]
  · rw [slice_of_hi_le (by omega), slice_of_hi_le (by omega)]

/-- A slice behind the first part is a slice of the second. -/
theorem slice_append_right (x y : Bytes) (lo hi : Nat) :
    (x ++ y).slice (x.length + lo) (x.length + hi) = y.slice lo hi := by
  unfold slice
  rw [List.length_append, ← List.drop_drop, List.drop_left,
    show x.length + hi - (x.length + lo) = hi - lo by omega]
  simp only [Nat.add_le_add_iff_left]

end Bytes

/-! ## Aligned runs -/

/-- The tokens are in the same place of two stretches of `n` bytes, which start at the offsets `d`
and `d'`. -/
def Token.Aligned (d d' n : Nat) (t t' : Token) : Prop :=
  ∃ lo hi, lo ≤ n ∧ hi ≤ n ∧ t.span = ⟨d + lo, d + hi⟩ ∧ t'.span = ⟨d' + lo, d' + hi⟩

/-- Where the two stretches are the same, so are the texts of two runs in them. Each pair of
tokens lies in the stretch at the same offset from its start, and so does all that is cut out
between them. -/
theorem Runs.texts_of_aligned {r : Runs} {V : Views} (d d' n : Nat)
    (hsource : r.start.source = V.source) (hsource' : r.start'.source = V.source')
    (hplaces : ∀ {t t'}, r.Matched t t' → t.Aligned d d' n t')
    (hslices : ∀ lo hi, hi ≤ n →
      V.source'.slice (d' + lo) (d' + hi) = V.source.slice (d + lo) (d + hi)) : r.Texts V := by
  have heq : ∀ {t t' u u'}, r.Matched t t' → r.Matched u u' →
      V.source'.slice t'.span.lo u'.span.hi = V.source.slice t.span.lo u.span.hi := by
    intro t t' u u' ht hu
    obtain ⟨lo, _, -, -, hspan, hspan'⟩ := hplaces ht
    obtain ⟨_, hi, -, hhi, hspan₂, hspan₂'⟩ := hplaces hu
    rw [hspan, hspan', hspan₂, hspan₂']
    exact hslices lo hi hhi
  have hakin : ∀ {w w' : Bytes}, w' = w → Normal.Akin w w' := fun h => h ▸ .refl _
  refine ⟨hsource, hsource', fun ht hu => hakin (heq ht hu.matched), ?_, ?_,
    fun ht hu => congrArg List.head? (heq ht hu.matched), fun ht hu _ _ => heq ht.matched hu.matched⟩
  · intro t t' u u' ht hu
    obtain ⟨lo, hi, -, hhi, hspan, hspan'⟩ := hplaces ht.matched
    obtain ⟨lo₂, hi₂, -, hhi₂, hspan₂, hspan₂'⟩ := hplaces hu.matched
    rw [hspan, hspan', hspan₂, hspan₂']
    refine hakin ?_
    dsimp only [Span.join]
    rw [Nat.add_min_add_left, Nat.add_min_add_left, Nat.add_max_add_left, Nat.add_max_add_left]
    exact hslices _ _ (Nat.max_le.mpr ⟨hhi, hhi₂⟩)
  · intro t t' u u' ht hu _
    obtain ⟨lo, _, -, -, hspan, hspan'⟩ := hplaces ht
    obtain ⟨hi, _, hhi, -, hspan₂, hspan₂'⟩ := hplaces hu
    rw [hspan, hspan', hspan₂, hspan₂']
    exact (hakin (hslices lo hi hhi)).nearly

/-! ## Bodies -/

/-- The tokens of `a ++ b ++ c`: the brace `o` is at the end of `a`, the brace `k` at the start of
`c`, and all brackets between them are closed there. -/
structure BodyAt (dialect : Dialect) (a b c : Bytes) (A : List Token) (o : Token) (B : List Token)
    (k : Token) (C : List Token) : Prop where
  tokens : (lex dialect (a ++ b ++ c)).tokens = A ++ o :: (B ++ k :: C)
  opens : o.kind = .punct .openBrace
  starts : o.span.hi = a.length
  nested : Nested B
  closes : k.kind = .punct .closeBrace
  ends : k.span.lo = (a ++ b).length

namespace BodyAt

variable {dialect : Dialect} {a b b' c : Bytes} {A B C A' B' C' : List Token} {o k o' k' : Token}

/-- The tokens of a source with a body lie side by side up to the end marker. -/
theorem exists_tiles (h : BodyAt dialect a b c A o B k C) :
    ∃ D, C = D ++ [Token.eofAt (a ++ b ++ c).length] ∧
      Tiles (a ++ b ++ c) 0 (A ++ o :: (B ++ k :: D)) := by
  obtain ⟨ts, hts, htiles⟩ := tiles_lex dialect (a ++ b ++ c)
  rw [h.tokens] at hts
  rcases List.eq_nil_or_concat C with rfl | ⟨D, e, rfl⟩
  · -- the closing brace is not the end marker
    have hlast : (A ++ o :: B) ++ [k] = ts ++ [Token.eofAt (a ++ b ++ c).length] := by
      rw [← hts, List.append_assoc, List.cons_append]
    have heof := (List.append_inj' hlast rfl).2
    have hkind := h.closes
    rw [List.singleton_inj.mp heof] at hkind
    exact absurd hkind (by simp [Token.eofAt])
  · have hlast : (A ++ o :: (B ++ k :: D)) ++ [e] = ts ++ [Token.eofAt (a ++ b ++ c).length] := by
      rw [← hts]
      simp
    obtain ⟨rfl, heof⟩ := List.append_inj' hlast rfl
    exact ⟨D, by rw [List.concat_eq_append, heof], htiles⟩

/-- The opening brace lies behind some place of the text. -/
theorem exists_lies (h : BodyAt dialect a b c A o B k C) : ∃ pos, o.Lies (a ++ b ++ c) pos := by
  obtain ⟨D, -, htiles⟩ := h.exists_tiles
  obtain ⟨lo, -, hlies⟩ := htiles.lies (t := o) (by simp)
  exact ⟨lo, hlies⟩

/-- The brace is the last byte of `a`. -/
theorem endsOpen (h : BodyAt dialect a b c A o B k C) :
    o.span.lo + 1 = a.length ∧ Gap.EndsOpen a := by
  obtain ⟨pos, hlies⟩ := h.exists_lies
  have htext := hlies.text
  have hhi := hlies.hi
  rw [hlies.punct _ h.opens, h.starts] at hhi htext
  rw [show bytes Punct.openBrace.text = [Byte.openBrace] by decide +kernel] at hhi htext
  rw [List.length_singleton] at hhi
  rw [List.append_assoc, Bytes.slice_append_left (Nat.le_refl _),
    Bytes.slice_of_le (by omega) (Nat.le_refl _)] at htext
  refine ⟨hhi.symm, ?_⟩
  have hdrop : a.drop o.span.lo = [Byte.openBrace] := by
    rwa [List.take_of_length_le (by rw [List.length_drop])] at htext
  have hlast := congrArg List.getLast? hdrop
  rwa [List.getLast?_drop, if_neg (by omega)] at hlast

/-- The brace is the first byte of `c`. -/
theorem hi_closing (h : BodyAt dialect a b c A o B k C) : k.span.hi = (a ++ b).length + 1 := by
  obtain ⟨D, -, htiles⟩ := h.exists_tiles
  obtain ⟨lo, -, hlies⟩ := htiles.lies (t := k) (by simp)
  rw [hlies.hi, hlies.punct _ h.closes, h.ends]
  rfl

/-- The tokens up to the brace, which is the last of them. -/
theorem tiles_front (h : BodyAt dialect a b c A o B k C) : Tiles (a ++ (b ++ c)) 0 (A ++ [o]) := by
  obtain ⟨D, -, htiles⟩ := h.exists_tiles
  rw [List.append_assoc a b c,
    show A ++ o :: (B ++ k :: D) = (A ++ [o]) ++ (B ++ k :: D) by simp] at htiles
  exact htiles.of_append.1

/-- Each token up to the opening brace ends before the body starts. -/
theorem hi_le (h : BodyAt dialect a b c A o B k C) {t : Token} (ht : t ∈ A ++ [o]) :
    t.span.hi ≤ a.length := by
  obtain ⟨n, hn⟩ := List.mem_iff_getElem?.mp ht
  have hlast : (A ++ [o])[A.length]? = some o := by simp
  rw [← h.starts]
  rcases Nat.lt_or_ge n A.length with hlt | hge
  · have := h.tiles_front.hi_le hn hlast hlt
    have := (h.tiles_front.at_ hlast).2.1
    omega
  · have hlen := (List.getElem?_eq_some_iff.mp hn).1
    rw [List.length_append, List.length_singleton] at hlen
    obtain rfl : n = A.length := by omega
    rw [Option.some.inj (hn.symm.trans hlast)]

/-- The tokens in front of the bodies of two sources lie at the same places. -/
theorem front_eq (h : BodyAt dialect a b c A o B k C) (h' : BodyAt dialect a b' c A' o' B' k' C')
    (hfront : (A ++ [o]).map Token.face = (A' ++ [o']).map Token.face) : A' = A ∧ o' = o := by
  have heq := Tiles.eq_front h.endsOpen.2 h.tiles_front h'.tiles_front hfront fun _ => h.hi_le
  obtain ⟨hA, ho⟩ := List.append_inj' heq rfl
  exact ⟨hA, List.singleton_inj.mp ho⟩

end BodyAt

/-! ## Two sources -/

/-- Two sources with a body between `a` and `c`, and the same tokens outside of it; the end markers
are left out. -/
structure TwoBodies (dialect : Dialect) (a b b' c : Bytes) (A : List Token) (o : Token)
    (B B' : List Token) (k k' : Token) (D D' : List Token) : Prop where
  body : BodyAt dialect a b c A o B k (D ++ [Token.eofAt (a ++ b ++ c).length])
  body' : BodyAt dialect a b' c A o B' k' (D' ++ [Token.eofAt (a ++ b' ++ c).length])
  tiles : Tiles (a ++ b ++ c) 0 (A ++ o :: (B ++ k :: D))
  tiles' : Tiles (a ++ b' ++ c) 0 (A ++ o :: (B' ++ k' :: D'))
  faces : (k :: D).map Token.face = (k' :: D').map Token.face

/-- Two sources whose tokens agree outside the body are two bodies of one source. -/
theorem BodyAt.twoBodies {dialect : Dialect} {a b b' c : Bytes} {A B C A' B' C' : List Token}
    {o k o' k' : Token} (h : BodyAt dialect a b c A o B k C)
    (h' : BodyAt dialect a b' c A' o' B' k' C')
    (hfront : (A ++ [o]).map Token.face = (A' ++ [o']).map Token.face)
    (hback : (k :: C).map Token.face = (k' :: C').map Token.face) :
    ∃ D D', TwoBodies dialect a b b' c A o B B' k k' D D' := by
  obtain ⟨rfl, rfl⟩ := h.front_eq h' hfront
  obtain ⟨D, rfl, htiles⟩ := h.exists_tiles
  obtain ⟨D', rfl, htiles'⟩ := h'.exists_tiles
  refine ⟨D, D', h, h', htiles, htiles', ?_⟩
  have := congrArg List.dropLast hback
  rw [← List.map_dropLast, ← List.map_dropLast, ← List.cons_append, ← List.cons_append,
    List.dropLast_concat, List.dropLast_concat] at this
  exact this

namespace TwoBodies

variable {dialect : Dialect} {a b b' c : Bytes} {A B B' D D' : List Token} {o k k' : Token}

/-- The two bodies may change places. -/
theorem symm (h : TwoBodies dialect a b b' c A o B B' k k' D D') :
    TwoBodies dialect a b' b c A o B' B k' k D' D :=
  ⟨h.body', h.body, h.tiles', h.tiles, h.faces.symm⟩

/-- The tokens behind the bodies lie equally far behind the closing braces, which stand at the ends
of `a ++ b` and `a ++ b'`. -/
theorem exists_spans (h : TwoBodies dialect a b b' c A o B B' k k' D D') {n : Nat} {t t' : Token}
    (ht : (k :: D)[n]? = some t) (ht' : (k' :: D')[n]? = some t') :
    ∃ lo hi, t.span = ⟨(a ++ b).length + lo, (a ++ b).length + hi⟩ ∧
      t'.span = ⟨(a ++ b').length + lo, (a ++ b').length + hi⟩ := by
  have hpos : 0 < a.length := by
    have := h.body.endsOpen.1
    omega
  cases n with
  | zero =>
    obtain rfl := Option.some.inj ht
    obtain rfl := Option.some.inj ht'
    refine ⟨0, 1, ?_, ?_⟩
    · rw [show k.span = ⟨k.span.lo, k.span.hi⟩ from rfl, h.body.ends, h.body.hi_closing]
      rfl
    · rw [show k'.span = ⟨k'.span.lo, k'.span.hi⟩ from rfl, h.body'.ends, h.body'.hi_closing]
      rfl
  | succ n =>
    have hall : Tiles (a ++ b ++ c) 0 ((A ++ o :: B) ++ k :: D) := by simpa using h.tiles
    have hall' : Tiles (a ++ b' ++ c) 0 ((A ++ o :: B') ++ k' :: D') := by simpa using h.tiles'
    have htiles : Tiles (a ++ b ++ c) ((a ++ b).length + 1) D := h.body.hi_closing ▸ hall.behind
    have htiles' : Tiles (a ++ b' ++ c) ((a ++ b').length + 1) D' :=
      h.body'.hi_closing ▸ hall'.behind
    refine Tiles.aligned ?_ ?_ ?_ htiles htiles' (List.cons.inj h.faces).2 ht ht'
    · rw [List.length_append]
      omega
    · rw [List.length_append]
      omega
    · rw [List.drop_left, List.drop_left]

/-- The tokens behind the bodies lie equally far from `c`. -/
theorem aligned_behind (h : TwoBodies dialect a b b' c A o B B' k k' D D') {n : Nat} {t t' : Token}
    (ht : (k :: D)[n]? = some t) (ht' : (k' :: D')[n]? = some t') :
    t.Aligned (a ++ b).length (a ++ b').length c.length t' := by
  obtain ⟨lo, hi, hspan, hspan'⟩ := h.exists_spans ht ht'
  -- no token ends behind the source
  have hmem : t ∈ A ++ o :: (B ++ k :: D) := by
    have := List.mem_of_getElem? ht
    simp only [List.mem_append, List.mem_cons] at this ⊢
    exact .inr (.inr (.inr this))
  obtain ⟨pos, -, hlies⟩ := h.tiles.lies hmem
  have hlt := hlies.lt
  have hwithin := hlies.within
  have hlen : (a ++ b ++ c).length = (a ++ b).length + c.length := List.length_append
  rw [hspan] at hlt hwithin
  dsimp only at hlt hwithin
  exact ⟨lo, hi, by omega, by omega, hspan, hspan'⟩

/-! ### The runs -/

variable (options : AnalysisOptions) {path : Bytes}

/-- The parse of the source starts at the cursor with nothing read and all tokens ahead. -/
theorem cursor_start (h : TwoBodies (Dialect.ofPath path) a b b' c A o B B' k k' D D') :
    (Analysis.start options path (a ++ b ++ c)).cursor
      = ⟨[], A ++ o :: (B ++ k :: D), (a ++ b ++ c).length⟩ := by
  refine Analysis.cursor_start options ?_ h.tiles
  rw [h.body.tokens]
  simp

/-- The state before the closing brace. -/
theorem ahead_back (h : TwoBodies (Dialect.ofPath path) a b b' c A o B B' k k' D D') :
    ((Analysis.start options path (a ++ b ++ c)).advance (A.length + (B.length + 1))).ahead
      = k :: D := by
  rw [ahead_advance, show (Analysis.start options path (a ++ b ++ c)).ahead = _ from
    congrArg Cursor.ahead (h.cursor_start options), ← List.drop_drop, List.drop_left,
    List.drop_succ_cons,
    List.drop_left]

/-- The two parses up to the body. Their tails start with the brace that opens it. -/
def front (h : TwoBodies (Dialect.ofPath path) a b b' c A o B B' k k' D D') : Runs where
  start := Analysis.start options path (a ++ b ++ c)
  start' := Analysis.start options path (a ++ b' ++ c)
  tail := o :: (B ++ k :: D)
  tail' := o :: (B' ++ k' :: D')
  quiet := Analysis.quiet_start
  quiet' := Analysis.quiet_start
  tails := Tails.brace (t := o) (s := o.span) h.body.opens
  twins := by
    show Twins _ _ (Analysis.start options path (a ++ b ++ c)).cursor.ahead
      (Analysis.start options path (a ++ b' ++ c)).cursor.ahead
    rw [h.cursor_start options, h.symm.cursor_start options]
    exact (twins_of_face rfl).append .tail

/-- The two parses from the end of the body on. There the tokens are the same up to their places,
and no tail is left. -/
def back (h : TwoBodies (Dialect.ofPath path) a b b' c A o B B' k k' D D') : Runs where
  start := (Analysis.start options path (a ++ b ++ c)).advance (A.length + (B.length + 1))
  start' := (Analysis.start options path (a ++ b' ++ c)).advance (A.length + (B'.length + 1))
  tail := []
  tail' := []
  quiet := Analysis.quiet_start.advance _
  quiet' := Analysis.quiet_start.advance _
  tails := .nil
  twins := by
    rw [h.ahead_back options, h.symm.ahead_back options]
    exact twins_of_face h.faces

/-- At the start the tokens left are those before the body and those from it on. -/
theorem left_front (h : TwoBodies (Dialect.ofPath path) a b b' c A o B B' k k' D D') :
    (h.front options).start.left = A.length + (h.front options).tail.length := by
  show (Analysis.start options path (a ++ b ++ c)).cursor.ahead.length = _
  rw [h.cursor_start options, List.length_append]
  rfl

/-- Only the opening brace starts where it does. -/
theorem pin (h : TwoBodies (Dialect.ofPath path) a b b' c A o B B' k k' D D') :
    Pin (o :: (B ++ k :: D)) (Analysis.start options path (a ++ b ++ c)).ahead (a.length - 1) := by
  have hlo := h.body.endsOpen.1
  have hsuffix : o :: (B ++ k :: D) <:+ A ++ o :: (B ++ k :: D) := List.suffix_append _ _
  show Pin _ (Analysis.start options path (a ++ b ++ c)).cursor.ahead _
  rw [h.cursor_start options]
  exact ⟨hsuffix, fun _ t us ht hlo' => h.tiles.suffix_eq hsuffix ht (by omega)⟩

/-- The body is taken as a group, up to its closing brace. -/
theorem takeGroup_eq (h : TwoBodies (Dialect.ofPath path) a b b' c A o B B' k k' D D') :
    ((Analysis.start options path (a ++ b ++ c)).advance A.length).takeGroup
      = ((Analysis.start options path (a ++ b ++ c)).advance
          (A.length + (B.length + 1))).advance 1 := by
  have hahead : ((Analysis.start options path (a ++ b ++ c)).advance A.length).ahead
      = (o :: (B ++ [k])) ++ D := by
    rw [ahead_advance, show (Analysis.start options path (a ++ b ++ c)).ahead = _ from
      congrArg Cursor.ahead (h.cursor_start options), List.drop_left, List.cons_append,
      List.append_assoc,
      List.singleton_append]
  have henclosed : Enclosed .openBrace .closeBrace (o :: (B ++ [k])) :=
    .mk h.body.opens h.body.closes h.body.nested
  rw [takeGroup_of_enclosed (show Punct.openBrace.isOpener = true from rfl)
    (show Punct.closeBrace.isCloser = true from rfl) henclosed hahead, advance_advance,
    advance_advance, List.length_cons, List.length_append, List.length_singleton,
    Nat.add_assoc A.length]

/-- The parses go on together behind the group. Both stand right behind the brace that closes it,
and there the same tokens are ahead, up to their places. -/
theorem enters (h : TwoBodies (Dialect.ofPath path) a b b' c A o B B' k k' D D') {p p' : Parser}
    (hp : (h.front options).Abreast p p') (hleft : p.left = (h.front options).tail.length) :
    (h.back options).Abreast p.takeGroup p'.takeGroup := by
  obtain ⟨n, -, rfl, rfl⟩ := hp.placed
  obtain rfl : n = A.length := by
    have := h.left_front options
    rw [left_advance] at hleft
    have hpos : 0 < (h.front options).tail.length := Nat.succ_pos _
    omega
  have hgroup := h.takeGroup_eq options
  have hgroup' := h.symm.takeGroup_eq options
  have hpos : ∀ {q : Parser} {t : Token} {ts : List Token}, q.ahead = t :: ts →
      0 < q.cursor.ahead.length := fun {q t ts} hq => by
    rw [show q.cursor.ahead = t :: ts from hq]
    exact Nat.succ_pos _
  show (h.back options).Abreast
    ((Analysis.start options path (a ++ b ++ c)).advance A.length).takeGroup
    ((Analysis.start options path (a ++ b' ++ c)).advance A.length).takeGroup
  rw [hgroup, hgroup']
  refine ⟨⟨1, ?_, rfl, rfl⟩, 0, Nat.zero_le _, ?_, ?_⟩
  · exact hpos (h.ahead_back options)
  · exact Cursor.previous_advance_succ (hpos (h.ahead_back options))
  · exact Cursor.previous_advance_succ (hpos (h.symm.ahead_back options))

/-- The two sources; the names of all namespaces may be compared. -/
def views (a b b' c : Bytes) : Views where
  source := a ++ b ++ c
  source' := a ++ b' ++ c
  fits := fun _ => True
  fits' := fun _ => True

/-- A token up to the opening brace. -/
theorem peekAt_front (h : TwoBodies (Dialect.ofPath path) a b b' c A o B B' k k' D D') {n : Nat}
    (hn : n ≤ A.length) :
    (A ++ [o])[n]? = some ((Analysis.start options path (a ++ b ++ c)).cursor.peekAt n) := by
  have hlt : n < (A ++ [o]).length := by
    rw [List.length_append, List.length_singleton]
    omega
  rw [h.cursor_start options, Cursor.peekAt, List.getD_eq_getElem?_getD,
    show A ++ o :: (B ++ k :: D) = (A ++ [o]) ++ (B ++ k :: D) by simp,
    List.getElem?_append_left hlt, List.getElem?_eq_getElem hlt]
  rfl

/-- A token from the closing brace on, or the end marker. -/
theorem peekAt_back (h : TwoBodies (Dialect.ofPath path) a b b' c A o B B' k k' D D') (n : Nat) :
    ((Analysis.start options path (a ++ b ++ c)).advance (A.length + (B.length + 1))).cursor.peekAt n
      = (k :: D)[n]?.getD (Token.eofAt (a ++ b ++ c).length) := by
  have hstop : ((Analysis.start options path (a ++ b ++ c)).advance
      (A.length + (B.length + 1))).cursor.stop = (a ++ b ++ c).length :=
    (Cursor.stop_advance _ _).trans (congrArg Cursor.stop (h.cursor_start options))
  rw [Cursor.peekAt, List.getD_eq_getElem?_getD, hstop]
  show (Parser.ahead _)[n]?.getD _ = _
  rw [h.ahead_back options]

/-- The cut in front of the body shows the texts of both sources there. -/
theorem texts_front (h : TwoBodies (Dialect.ofPath path) a b b' c A o B B' k k' D D') :
    (h.front options).Texts (views a b b' c) := by
  refine Runs.texts_of_aligned 0 0 a.length rfl rfl ?_ ?_
  · intro t t' ht
    obtain ⟨n, hn, rfl, rfl⟩ := ht
    rw [h.left_front options] at hn
    have hget := h.peekAt_front options (n := n) (by omega)
    have hget' := h.symm.peekAt_front options (n := n) (by omega)
    have hhi := h.body.hi_le (List.mem_of_getElem? hget)
    have hlo := (h.body.tiles_front.at_ hget).2.1
    refine ⟨_, _, Nat.le_trans (Nat.le_of_lt hlo) hhi, hhi, ?_, ?_⟩
    · rw [Nat.zero_add, Nat.zero_add]
      rfl
    · rw [Nat.zero_add, Nat.zero_add]
      exact congrArg Token.span (Option.some.inj (hget'.symm.trans hget))
  · intro lo hi hle
    show (a ++ b' ++ c).slice _ _ = (a ++ b ++ c).slice _ _
    rw [Nat.zero_add, Nat.zero_add, List.append_assoc, List.append_assoc,
      Bytes.slice_append_left hle, Bytes.slice_append_left hle]

/-- The cut behind the body shows the texts of both sources there. The tokens there lie as far
behind the body in one source as in the other, and the end marker stands at the end of both. -/
theorem texts_back (h : TwoBodies (Dialect.ofPath path) a b b' c A o B B' k k' D D') :
    (h.back options).Texts (views a b b' c) := by
  refine Runs.texts_of_aligned (a ++ b).length (a ++ b').length c.length rfl rfl ?_ fun lo hi _ =>
    (Bytes.slice_append_right (a ++ b') c lo hi).trans
      (Bytes.slice_append_right (a ++ b) c lo hi).symm
  · intro t t' ht
    obtain ⟨n, -, rfl, rfl⟩ := ht
    show Token.Aligned _ _ _ (((Analysis.start options path (a ++ b ++ c)).advance
      (A.length + (B.length + 1))).cursor.peekAt n) (((Analysis.start options path
      (a ++ b' ++ c)).advance (A.length + (B'.length + 1))).cursor.peekAt n)
    rw [h.peekAt_back options, h.symm.peekAt_back options]
    have hlen : (k :: D).length = (k' :: D').length := by
      have := congrArg List.length h.faces
      rwa [List.length_map, List.length_map] at this
    rcases Nat.lt_or_ge n (k :: D).length with hlt | hge
    · have hget := List.getElem?_eq_getElem hlt
      have hget' := List.getElem?_eq_getElem (hlen ▸ hlt)
      rw [hget, hget']
      exact h.aligned_behind hget hget'
    · rw [List.getElem?_eq_none hge, List.getElem?_eq_none (hlen ▸ hge)]
      refine ⟨c.length, c.length, Nat.le_refl _, Nat.le_refl _, ?_, ?_⟩
      · rw [← List.length_append]
        rfl
      · rw [← List.length_append]
        rfl

/-- The parses with the body as the hole between them. The front goes over into the back where the
group in braces is taken. -/
def hole (h : TwoBodies (Dialect.ofPath path) a b b' c A o B B' k k' D D') :
    (h.front options).Hole (views a b b' c) where
  hole := a.length - 1
  hole' := a.length - 1
  after := h.back options
  pin := h.pin options
  pin' := h.symm.pin options
  texts := h.texts_front options
  textsAfter := h.texts_back options
  noTail := rfl
  enters := fun _ _ _ => h.enters options

end TwoBodies

/-! ## Signatures -/

namespace BodySample

/-- A class in a namespace, up to the body of one of its methods. -/
def front : Bytes :=
  bytes "export namespace n \x7b export class C<T> \x7b get x(): T \x7b"

/-- A body of the sample. -/
def body : Bytes := bytes " return this.y; "

/-- Another body, with braces in a string and in a comment. -/
def body' : Bytes := bytes " if (y) \x7b f('\x7d') /* \x7d */ \x7d\n  return [y, `$\x7b z \x7d`] "

/-- What follows the body in the sample: the rest of the class, and a constant. -/
def back : Bytes := bytes "\x7d\n m(a: string): void \x7b\x7d \x7d \x7d\nexport const k = 1"

/-- The tokens of the source with this body. -/
def tokens (b : Bytes) : List Token := (lex .typeScript (front ++ b ++ back)).tokens

/-- The brace in front of the body. -/
def opening : Token := ⟨.punct .openBrace, ⟨52, 53⟩, bytes "\x7b", false⟩

/-- The brace behind a body that ends at this offset. -/
def closing (lo : Nat) : Token := ⟨.punct .closeBrace, ⟨lo, lo + 1⟩, bytes "\x7d", false⟩

end BodySample

end SignatureLedger
