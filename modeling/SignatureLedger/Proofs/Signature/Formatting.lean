import SignatureLedger.Proofs.Signature.Alike

/-!
# Formatting does not matter

Comments and inline imports start with a byte that is not tight and end with one, and blanks inside
them matter only as far as lines end there. So every stripping pass keeps alike texts alike
(`Pass.alike`), and texts that are alike have one normal form (`Alike.normalize_eq`).
-/

namespace SignatureLedger.Normal

open Byte

variable {p : Option UInt8} {a b : UInt8} {r s t u v : Bytes}

/-- The texts are alike behind a byte that is not tight. -/
def AlikeBehind (u v : Bytes) : Prop := ∃ a, isTight a = false ∧ Alike (some a) u v

/-! ## Passes -/

/-- The pass `f` goes through a text byte by byte. Where `noise` finds something it goes on behind
it, and every other byte is kept. Noise starts with a byte that is neither a blank nor tight, and in
alike texts it is found at the same places. -/
structure Pass (noise : Bytes → Option Bytes) (f : Bytes → Bytes) : Prop where
  nil : f [] = []
  keep : ∀ b s, noise (b :: s) = none → f (b :: s) = b :: f s
  skip : ∀ s u, noise s = some u → f s = f u ∧ u.length < s.length
  blank : ∀ b s, isSpace b = true → noise (b :: s) = none
  tight : ∀ b s, isTight b = true → noise (b :: s) = none
  alike : ∀ b s t, Alike (some b) s t → Option.Rel AlikeBehind (noise (b :: s)) (noise (b :: t))

namespace Pass

variable {noise : Bytes → Option Bytes} {f : Bytes → Bytes}

/-- Blanks are kept. -/
theorem append_of_blank (hf : Pass noise f) (hr : ∀ b ∈ r, isSpace b = true) (s : Bytes) :
    f (r ++ s) = r ++ f s := by
  induction r with
  | nil => rfl
  | cons b r ih =>
    rw [List.cons_append, hf.keep _ _ (hf.blank _ _ (hr b List.mem_cons_self)),
      ih fun c hc => hr c (List.mem_cons_of_mem b hc), List.cons_append]

/-- A phase keeps a row of blanks as it is. -/
theorem eq_of_blank (hf : Pass noise f) (hr : ∀ b ∈ r, isSpace b = true) : f r = r := by
  have h := hf.append_of_blank hr []
  rwa [hf.nil, List.append_nil] at h

/-- **A pass keeps alike texts alike.** By induction on the length of the text, with a case for a
byte that is kept and one for noise. -/
theorem map_alike (hf : Pass noise f) (h : Alike p s t) : Alike p (f s) (f t) := by
  -- what is behind a byte or behind noise is shorter
  induction hn : s.length using Nat.strong_induction_on generalizing p s t with
  | _ n ih =>
    subst hn
    cases h with
    | done hrun =>
      rw [hf.eq_of_blank hrun.blank, hf.eq_of_blank hrun.blank']
      exact .done hrun
    | @byte _ r r' s t b hrun hgap hb hrest =>
      rw [hf.append_of_blank hrun.blank, hf.append_of_blank hrun.blank']
      have hlen : (r ++ b :: s).length = r.length + (b :: s).length := List.length_append
      have hnoise := hf.alike b s t hrest
      generalize hs : noise (b :: s) = x at hnoise
      generalize ht : noise (b :: t) = y at hnoise
      cases hnoise with
      | none =>
        rw [hf.keep b s hs, hf.keep b t ht]
        have hlt : s.length < (r ++ b :: s).length := by
          rw [hlen, List.length_cons]
          omega
        exact .byte hrun hgap hb (ih _ hlt hrest rfl)
      | some hbehind =>
        -- the blanks before the noise and those behind it run together
        obtain ⟨a, ha, hbehind⟩ := hbehind
        have htb : isTight b = false := by
          cases htb : isTight b with
          | false => rfl
          | true =>
            rw [hf.tight b s htb] at hs
            exact absurd hs (by simp)
        obtain ⟨hfs, hlt⟩ := hf.skip _ _ hs
        rw [hfs, (hf.skip _ _ ht).1]
        exact (ih _ (by rw [hlen]; omega) hbehind rfl).behind ha hrun
          fun d hd htd => hgap d hd htd htb

end Pass

/-- What does not look at blanks at the front passes over a run of them. -/
theorem skip_blanks {α : Type} {g : Bytes → α} (hg : ∀ b s, isSpace b = true → g (b :: s) = g s)
    (hr : ∀ b ∈ r, isSpace b = true) (s : Bytes) : g (r ++ s) = g s := by
  induction r with
  | nil => rfl
  | cons b r ih =>
    rw [List.cons_append, hg _ _ (hr b List.mem_cons_self),
      ih fun c hc => hr c (List.mem_cons_of_mem b hc)]

/-- What skips one blank skips all of them. -/
theorem skip_all {α : Type} {g : Bytes → α} (hg : ∀ b s, isSpace b = true → g (b :: s) = g s)
    (hr : ∀ b ∈ r, isSpace b = true) : g r = g [] := by
  rw [← skip_blanks hg hr [], List.append_nil]

/-! ## Block comments -/

/-- What is behind the first end of a comment. -/
def afterComment? (s : Bytes) : Option Bytes := (commentWidth? s).map (s.drop ·)

/-- Where a block comment ends, read byte by byte. -/
theorem afterComment?_cons (b : UInt8) (s : Bytes) :
    afterComment? (b :: s) =
      if b = star ∧ s.head? = some slash then some s.tail else afterComment? s := by
  rw [afterComment?, commentWidth?, Bytes.indexOf?]
  have hstart : [star, slash].isPrefixOf (b :: s) = true ↔ b = star ∧ s.head? = some slash := by
    rw [List.isPrefixOf_iff_prefix, prefix_pair_iff]
  by_cases h : b = star ∧ s.head? = some slash
  · rw [if_pos h, if_pos (hstart.mpr h)]
    simp
  · rw [if_neg h, if_neg fun hp => h (hstart.mp hp), afterComment?, commentWidth?]
    cases Bytes.indexOf? [star, slash] s <;> rfl

/-- A blank inside a block comment does not end it. -/
theorem afterComment?_of_isSpace (b : UInt8) (s : Bytes) (hb : isSpace b = true) :
    afterComment? (b :: s) = afterComment? s := by
  rw [afterComment?_cons, if_neg]
  rintro ⟨rfl, -⟩
  exact absurd hb (by decide)

/-- Comments end at the same places. -/
theorem Alike.afterComment? (h : Alike p s t) :
    Option.Rel AlikeBehind (afterComment? s) (afterComment? t) := by
  induction h with
  | @done p r r' hrun =>
    rw [skip_all afterComment?_of_isSpace hrun.blank, skip_all afterComment?_of_isSpace hrun.blank']
    exact .none
  | @byte p r r' s t b hrun hgap hb hrest ih =>
    rw [skip_blanks afterComment?_of_isSpace hrun.blank,
      skip_blanks afterComment?_of_isSpace hrun.blank', afterComment?_cons, afterComment?_cons]
    by_cases hstar : b = star
    · subst hstar
      have hhead := hrest.head?_iff (c := slash) (by decide) (by decide) (by decide)
      by_cases hs : s.head? = some slash
      · obtain ⟨ht, hbehind⟩ := hrest.next (by decide) (by decide) (by decide) hs
        rw [if_pos ⟨rfl, hs⟩, if_pos ⟨rfl, ht⟩]
        exact .some ⟨slash, by decide, hbehind⟩
      · rw [if_neg fun h => hs h.2, if_neg fun h => hs (hhead.mpr h.2)]
        exact ih
    · rw [if_neg fun h => hstar h.1, if_neg fun h => hstar h.1]
      exact ih

/-- What is left behind a block comment is no longer than the comment with it. -/
theorem length_afterComment?_le (h : afterComment? s = some u) : u.length ≤ s.length := by
  rw [Normal.afterComment?, Option.map_eq_some_iff] at h
  obtain ⟨w, -, rfl⟩ := h
  rw [List.length_drop]
  omega

/-! ## Passes over comments -/

/-- What is behind the comment at the front, which opens with a slash and the byte `c`; `after`
says where it ends. -/
def commentNoise? (c : UInt8) (after : Bytes → Bytes) : Bytes → Option Bytes
  | b :: s => if b = slash ∧ s.head? = some c then some (after s.tail) else none
  | [] => none

/-- A pass that takes comments out. The two signs that open a comment are neither blank nor tight,
so that they stand together in both of two alike texts. -/
theorem pass_of_comments {c : UInt8} {after f : Bytes → Bytes} (hc : isSpace c = false)
    (htc : isTight c = false) (hnil : f [] = [])
    (hcons : ∀ b s,
      f (b :: s) = if b = slash ∧ s.head? = some c then f (after s.tail) else b :: f s)
    (hle : ∀ s, (after s).length ≤ s.length)
    (hafter : ∀ s t, Alike (some c) s t → AlikeBehind (after s) (after t)) :
    Pass (commentNoise? c after) f where
  nil := hnil
  keep := by
    intro b s h
    by_cases hb : b = slash ∧ s.head? = some c
    · rw [commentNoise?, if_pos hb] at h
      exact absurd h (by simp)
    · rw [hcons, if_neg hb]
  skip := by
    intro s u h
    cases s with
    | nil => exact absurd h (by simp [commentNoise?])
    | cons b s =>
      by_cases hb : b = slash ∧ s.head? = some c
      · rw [commentNoise?, if_pos hb, Option.some_inj] at h
        subst h
        have hlen := hle s.tail
        rw [List.length_tail] at hlen
        rw [hcons, if_pos hb, List.length_cons]
        exact ⟨rfl, by omega⟩
      · rw [commentNoise?, if_neg hb] at h
        exact absurd h (by simp)
  blank := by
    intro b s hb
    rw [commentNoise?, if_neg]
    rintro ⟨rfl, -⟩
    exact absurd hb (by decide)
  tight := by
    intro b s hb
    rw [commentNoise?, if_neg]
    rintro ⟨rfl, -⟩
    exact absurd hb (by decide)
  alike := by
    intro b s t h
    rw [commentNoise?, commentNoise?]
    by_cases hslash : b = slash
    · subst hslash
      by_cases hs : s.head? = some c
      · obtain ⟨ht, hbehind⟩ := h.next (by decide) htc hc hs
        rw [if_pos ⟨rfl, hs⟩, if_pos ⟨rfl, ht⟩]
        exact .some (hafter _ _ hbehind)
      · rw [if_neg fun h => hs h.2, if_neg fun hb => hs ((h.head?_iff (by decide) htc hc).mpr hb.2)]
        exact .none
    · rw [if_neg fun h => hslash h.1, if_neg fun h => hslash h.1]
      exact .none

/-- Behind a block comment that is not closed there is nothing. -/
def afterBlock (s : Bytes) : Bytes := (afterComment? s).getD []

/-- The block comment phase is a pass that cuts block comments. A comment that nothing closes is cut
up to the end of the text. -/
theorem pass_stripBlockComments : Pass (commentNoise? star afterBlock) stripBlockComments := by
  refine pass_of_comments (by decide) (by decide) (by rw [stripBlockComments]) ?_ ?_ ?_
  · intro b s
    rw [stripBlockComments]
    split
    · rw [afterBlock, afterComment?]
      cases commentWidth? s.tail with
      | none => simp [stripBlockComments]
      | some w => rfl
    · rfl
  · intro s
    rw [afterBlock]
    cases h : afterComment? s with
    | none => simp
    | some u => exact length_afterComment?_le h
  · intro s t h
    have hrel := h.afterComment?
    rw [afterBlock, afterBlock]
    generalize afterComment? s = x at hrel ⊢
    generalize afterComment? t = y at hrel ⊢
    cases hrel with
    | none => exact ⟨star, by decide, .done ⟨by simp, by simp, by simp⟩⟩
    | some hbehind => exact hbehind

/-- Going to the end of a line keeps a line feed, if there is one. -/
theorem lineFeed_mem_fromLineEnd : lineFeed ∈ fromLineEnd r ↔ lineFeed ∈ r := by
  refine ⟨fun h => (List.dropWhile_sublist _).subset h, fun h => ?_⟩
  by_contra hno
  have hsplit := List.takeWhile_append_dropWhile (p := fun b => b != lineFeed) (l := r)
  rw [← hsplit, List.mem_append] at h
  rcases h with h | h
  · simpa using List.mem_takeWhile_imp h
  · exact hno h

/-- A run that ends the line decides alone where the line ends. -/
theorem fromLineEnd_append_of_mem (h : lineFeed ∈ r) (s : Bytes) :
    fromLineEnd (r ++ s) = fromLineEnd r ++ s := by
  have hne : (r.dropWhile (· != lineFeed)).isEmpty = false :=
    List.isEmpty_eq_false_iff.mpr (List.ne_nil_of_mem (lineFeed_mem_fromLineEnd.mpr h))
  rw [fromLineEnd, List.dropWhile_append, hne, if_neg Bool.false_ne_true]
  rfl

/-- A run within the line is passed over on the way to its end. -/
theorem fromLineEnd_append_of_not_mem (h : lineFeed ∉ r) (s : Bytes) :
    fromLineEnd (r ++ s) = fromLineEnd s := by
  have hall : ∀ b ∈ r, (b != lineFeed) = true := by
    intro b hb
    simpa using fun heq : b = lineFeed => h (heq ▸ hb)
  rw [fromLineEnd, List.dropWhile_append_of_pos hall]
  rfl

/-- A byte other than the line feed is passed over on the way to the end of the line. -/
theorem fromLineEnd_cons_of_ne (h : b ≠ lineFeed) (s : Bytes) :
    fromLineEnd (b :: s) = fromLineEnd s := List.dropWhile_cons_of_pos (by simpa using h)

/-- From the end of the line on, the same runs are the same. -/
theorem SameRun.fromLineEnd {r' : Bytes} (h : SameRun r r') :
    SameRun (fromLineEnd r) (fromLineEnd r') where
  blank := fun b hb => h.blank b ((List.dropWhile_sublist _).subset hb)
  blank' := fun b hb => h.blank' b ((List.dropWhile_sublist _).subset hb)
  line := by rw [lineFeed_mem_fromLineEnd, lineFeed_mem_fromLineEnd, h.line]

/-- Lines end at the same places. -/
theorem Alike.fromLineEnd (h : Alike p s t) (q : Option UInt8) :
    Alike q (fromLineEnd s) (fromLineEnd t) := by
  induction h with
  | done hrun => exact .done hrun.fromLineEnd
  | @byte p r r' s t b hrun hgap hb hrest ih =>
    by_cases hline : lineFeed ∈ r
    · -- the line feed parts what is behind it on both sides
      have hline' := hrun.line.mp hline
      rw [fromLineEnd_append_of_mem hline, fromLineEnd_append_of_mem hline']
      refine .byte hrun.fromLineEnd (fun _ _ _ _ => iff_of_false ?_ ?_) hb hrest
      · exact List.ne_nil_of_mem (lineFeed_mem_fromLineEnd.mpr hline)
      · exact List.ne_nil_of_mem (lineFeed_mem_fromLineEnd.mpr hline')
    · have hline' : lineFeed ∉ _ := fun h => hline (hrun.line.mpr h)
      have hne : b ≠ lineFeed := by
        rintro rfl
        exact absurd hb (by decide)
      rw [fromLineEnd_append_of_not_mem hline, fromLineEnd_append_of_not_mem hline',
        fromLineEnd_cons_of_ne hne, fromLineEnd_cons_of_ne hne]
      exact ih

/-- The line comment phase is a pass that cuts to the end of the line. -/
theorem pass_stripLineComments : Pass (commentNoise? slash fromLineEnd) stripLineComments := by
  refine pass_of_comments (by decide) (by decide) (by rw [stripLineComments]) ?_
    length_fromLineEnd_le ?_
  · intro b s
    rw [stripLineComments]
  · exact fun s t h => ⟨slash, by decide, h.fromLineEnd _⟩

/-! ## Inline imports -/

/-- What is behind the bracket and the dot that end an inline import. -/
def afterTail? (s : Bytes) : Option Bytes := (importTail? s).map (s.drop ·)

/-- What stands behind a closed quotation, behind blanks, parenthesis and dot. -/
theorem afterTail?_eq (s : Bytes) :
    afterTail? s =
      match s.dropWhile isSpace with
      | b :: rest =>
        if b = closeParen ∧ (rest.dropWhile isSpace).head? = some dot then
          some (rest.dropWhile isSpace).tail
        else none
      | [] => none := by
  rw [afterTail?, importTail?, drop_run]
  cases hs : s.dropWhile isSpace with
  | nil => rfl
  | cons b rest =>
    dsimp only
    rw [drop_run]
    split
    · rw [Option.map_some, ← List.drop_drop, ← List.drop_drop, ← List.drop_drop, drop_run, hs]
      simp only [List.drop_one, List.tail_cons, drop_run]
    · rfl

/-- The tail behind a module call is found in both of two alike texts, with alike rests. -/
theorem Alike.afterTail? (h : Alike p s t) :
    Option.Rel AlikeBehind (afterTail? s) (afterTail? t) := by
  rw [afterTail?_eq, afterTail?_eq]
  rcases h.dropBlanks with ⟨hs, ht⟩ | ⟨b, s', t', hs, ht, -, hrest⟩
  · rw [hs, ht]
    exact .none
  · rw [hs, ht]
    dsimp only
    rcases hrest.dropBlanks with ⟨hs, ht⟩ | ⟨c, s', t', hs, ht, -, hrest⟩
    · rw [hs, ht]
      simp
    · rw [hs, ht, List.head?_cons, List.head?_cons, List.tail_cons, List.tail_cons]
      split
      · rename_i h
        rw [Option.some_inj] at h
        exact .some ⟨c, by rw [h.2]; decide, hrest⟩
      · exact .none

/-- What is behind the end of an inline import that is quoted by `q`. -/
def afterEnd? (q : UInt8) (s : Bytes) : Option Bytes := (importEnd? q s).map (s.drop ·)

/-- Where the quotation ends, read byte by byte. -/
theorem afterEnd?_cons (q b : UInt8) (s : Bytes) :
    afterEnd? q (b :: s) = (if b = q then afterTail? s else none).or (afterEnd? q s) := by
  rw [afterEnd?, importEnd?]
  by_cases h : b = q
  · rw [if_pos h, if_pos h, afterTail?]
    cases importTail? s with
    | none =>
      rw [afterEnd?]
      cases importEnd? q s with
      | none => rfl
      | some n => simp [Nat.add_comm 1]
    | some n => simp [Nat.add_comm 1]
  · rw [if_neg h, if_neg h, afterEnd?]
    cases importEnd? q s with
    | none => rfl
    | some n => simp [Nat.add_comm 1]

/-- Two searches that agree, tried one after the other, agree. -/
theorem rel_or {x y x' y' : Option Bytes} (h : Option.Rel AlikeBehind x y)
    (h' : Option.Rel AlikeBehind x' y') : Option.Rel AlikeBehind (x.or x') (y.or y') := by
  cases h with
  | some h => exact .some h
  | none => exact h'

/-- Inline imports end at the same places. -/
theorem Alike.afterEnd? {q : UInt8} (hq : isSpace q = false) (h : Alike p s t) :
    Option.Rel AlikeBehind (afterEnd? q s) (afterEnd? q t) := by
  have hskip : ∀ b s, isSpace b = true → Normal.afterEnd? q (b :: s) = Normal.afterEnd? q s := by
    intro b s hb
    rw [afterEnd?_cons, if_neg]
    · rfl
    · rintro rfl
      exact absurd hb (by simp [hq])
  induction h with
  | @done p r r' hrun =>
    rw [skip_all hskip hrun.blank, skip_all hskip hrun.blank']
    exact .none
  | @byte p r r' s t b hrun hgap hb hrest ih =>
    rw [skip_blanks hskip hrun.blank, skip_blanks hskip hrun.blank', afterEnd?_cons, afterEnd?_cons]
    refine rel_or ?_ ih
    split
    · exact hrest.afterTail?
    · exact .none

/-- What is behind the inline import at the front. -/
def afterImport? (s : Bytes) : Option Bytes := (importNoise? s).map (s.drop ·)

/-- What is behind an inline import, behind its first word. Only a text in quotes inside round
brackets makes it one. -/
def afterWord? (s : Bytes) : Option Bytes :=
  match s.dropWhile isSpace with
  | b :: rest =>
    if b = openParen then
      match rest.dropWhile isSpace with
      | q :: rest => if q = doubleQuote ∨ q = singleQuote then afterEnd? q rest else none
      | [] => none
    else none
  | [] => none

/-- Behind the word `import` the search goes on with the rest. From there on only the text that is
left is looked at, and no offset. -/
theorem afterImport?_append (s : Bytes) : afterImport? (importWord ++ s) = afterWord? s := by
  have hword : ∀ k, (importWord ++ s).drop (6 + k) = s.drop k := fun k => by
    rw [← List.drop_drop]
    rfl
  have hstart : (bytes "import").isPrefixOf (importWord ++ s) = true := by simp [bytes_import]
  have hnext : s.drop (Bytes.run isSpace s + 1) = (s.dropWhile isSpace).tail := by
    rw [← List.drop_drop, drop_run, List.drop_one]
  rw [afterImport?, afterWord?]
  simp only [importNoise?, hstart, if_true]
  -- the offsets that are counted from the word become the text behind the blanks
  rw [show (importWord ++ s).drop 6 = s from rfl, Nat.add_assoc 6, hword, hword, drop_run, hnext,
    Nat.add_assoc 6, hword, ← List.drop_drop, hnext, drop_run]
  cases hs : s.dropWhile isSpace with
  | nil => rfl
  | cons b rest =>
    simp only [List.head?_cons, Option.some_inj, List.tail_cons]
    split
    · cases hrest : rest.dropWhile isSpace with
      | nil => rfl
      | cons q rest' =>
        dsimp only
        split
        · have hdrop : ∀ n, (importWord ++ s).drop
              (6 + (Bytes.run isSpace s + 1 + Bytes.run isSpace rest) + 1 + n) = rest'.drop n := by
            intro n
            rw [Nat.add_assoc 6, Nat.add_assoc 6, hword, ← List.drop_drop, ← List.drop_drop,
              ← List.drop_drop, hnext, hs, List.tail_cons, drop_run, hrest, List.drop_one,
              List.tail_cons]
          rw [afterEnd?, Option.map_map]
          exact congrArg (Option.map · _) (funext hdrop)
        · rfl
    · rfl

/-- Where the text does not start with the word `import`, no module call does. -/
theorem afterImport?_eq_none (h : ¬ importWord <+: s) : afterImport? s = none := by
  rw [afterImport?, importNoise?, if_neg]
  · rfl
  · rwa [bytes_import, List.isPrefixOf_iff_prefix]

/-- Behind the word `import`, alike texts hold a module call together or not. -/
theorem Alike.afterWord? (h : Alike p s t) :
    Option.Rel AlikeBehind (afterWord? s) (afterWord? t) := by
  rw [Normal.afterWord?, Normal.afterWord?]
  rcases h.dropBlanks with ⟨hs, ht⟩ | ⟨b, s', t', hs, ht, -, hrest⟩
  · rw [hs, ht]
    exact .none
  · rw [hs, ht]
    dsimp only
    split
    · rcases hrest.dropBlanks with ⟨hs, ht⟩ | ⟨q, s', t', hs, ht, hq, hrest⟩
      · rw [hs, ht]
        exact .none
      · rw [hs, ht]
        dsimp only
        split
        · exact hrest.afterEnd? hq
        · exact .none
    · exact .none

/-- A module call that is cut has at least one byte. -/
theorem importNoise?_pos {n : Nat} (h : importNoise? s = some n) : 0 < n := by
  unfold importNoise? at h
  split at h
  · dsimp only at h
    split at h
    · split at h
      · split at h
        · rw [Option.map_eq_some_iff] at h
          obtain ⟨k, -, rfl⟩ := h
          omega
        · exact absurd h (by simp)
      · exact absurd h (by simp)
    · exact absurd h (by simp)
  · exact absurd h (by simp)

/-- The letters of `import` are ink, and none of them is tight. -/
theorem isTight_of_mem_importWord (hb : b ∈ importWord) :
    isTight b = false ∧ isSpace b = false := by
  have hall : ∀ c ∈ importWord, isTight c = false ∧ isSpace c = false := by decide +kernel
  exact hall b hb

/-- Inline imports start at the same places, and end at the same places. No gap is put into the word
in either text, as none of its letters is tight. -/
theorem Alike.afterImport? (h : Alike (some b) s t) :
    Option.Rel AlikeBehind (afterImport? (b :: s)) (afterImport? (b :: t)) := by
  by_cases hb : b = 0x69
  · subst hb
    -- the rest of the word behind its first letter
    have hrest : ∀ c ∈ importWord.tail, isTight c = false ∧ isSpace c = false := fun c hc =>
      isTight_of_mem_importWord (List.mem_of_mem_tail hc)
    have hstart : ∀ w, importWord <+: 0x69 :: w ↔ importWord.tail <+: w := fun w => by
      rw [importWord, List.cons_prefix_cons, and_iff_right rfl, List.tail_cons]
    by_cases hs : importWord.tail <+: s
    · obtain ⟨ht, a, ha, hbehind⟩ := h.word (by decide) hrest hs
      obtain ⟨x, rfl⟩ := hs
      obtain ⟨y, rfl⟩ := ht
      rw [List.drop_left, List.drop_left] at hbehind
      have hword : ∀ w, (0x69 : UInt8) :: (importWord.tail ++ w) = importWord ++ w := fun w => rfl
      rw [hword, hword, afterImport?_append, afterImport?_append]
      exact hbehind.afterWord?
    · have ht : ¬ importWord.tail <+: t := fun ht => hs (h.symm.word (by decide) hrest ht).1
      rw [afterImport?_eq_none fun h => hs ((hstart s).mp h),
        afterImport?_eq_none fun h => ht ((hstart t).mp h)]
      exact .none
  · have hno : ∀ w, ¬ importWord <+: b :: w := fun w hw =>
      hb (List.cons_prefix_cons.mp hw).1.symm
    rw [afterImport?_eq_none (hno s), afterImport?_eq_none (hno t)]
    exact .none

/-- The import phase is a pass that cuts the module calls. A call starts with a letter, which is
neither blank nor tight. -/
theorem pass_stripImports : Pass afterImport? stripImports where
  nil := by rw [stripImports]
  keep := by
    intro b s h
    rw [Normal.afterImport?, Option.map_eq_none_iff] at h
    rw [stripImports, h]
  skip := by
    intro s u h
    rw [Normal.afterImport?, Option.map_eq_some_iff] at h
    obtain ⟨n, hn, rfl⟩ := h
    obtain ⟨k, rfl⟩ := Nat.exists_eq_succ_of_ne_zero (importNoise?_pos hn).ne'
    cases s with
    | nil => exact absurd hn (by rw [importNoise?_nil]; simp)
    | cons b s =>
      rw [stripImports, hn, List.drop_succ_cons, List.length_drop, List.length_cons]
      exact ⟨rfl, by omega⟩
  blank := by
    intro b s hb
    refine afterImport?_eq_none fun hw => ?_
    obtain rfl := (List.cons_prefix_cons.mp hw).1
    exact absurd hb (by decide)
  tight := by
    intro b s hb
    refine afterImport?_eq_none fun hw => ?_
    obtain rfl := (List.cons_prefix_cons.mp hw).1
    exact absurd hb (by decide)
  alike := fun b s t h => h.afterImport?

/-! ## Stripping -/

/-- One round over the phases takes alike texts to alike texts. -/
theorem Alike.stripOnce (h : Alike p s t) : Alike p (stripOnce s) (stripOnce t) :=
  pass_stripImports.map_alike
    (pass_stripLineComments.map_alike (pass_stripBlockComments.map_alike h))

/-- **Stripping keeps alike texts alike.** -/
theorem Alike.strip (h : Alike p s t) : Alike p (strip s) (strip t) := by
  induction hn : s.length + t.length using Nat.strong_induction_on generalizing s t with
  | _ n ih =>
    subst hn
    by_cases hboth : Normal.stripOnce s = s ∧ Normal.stripOnce t = t
    · rwa [strip_of_clean ((stripOnce_eq_self_iff s).mp hboth.1),
        strip_of_clean ((stripOnce_eq_self_iff t).mp hboth.2)]
    · -- a round makes one of the two shorter, and neither longer
      have hlt : (Normal.stripOnce s).length + (Normal.stripOnce t).length <
          s.length + t.length := by
        have hs := (stripOnce_sublist s).length_le
        have ht := (stripOnce_sublist t).length_le
        rcases not_and_or.mp hboth with h | h
        · have := length_stripOnce_lt h
          omega
        · have := length_stripOnce_lt h
          omega
      rw [← strip_stripOnce s, ← strip_stripOnce t]
      exact ih _ hlt h.stripOnce rfl

/-- **Alike texts have one normal form.** -/
theorem Alike.normalize_eq (h : Alike none s t) : normalize s = normalize t := by
  rw [Normal.normalize_eq, Normal.normalize_eq, h.strip.layout_eq]

end SignatureLedger.Normal
