import SignatureLedger.Proofs.Declaration.Twin
import SignatureLedger.Proofs.Token.Trivia

/-!
# Places of tokens

Where a token lies follows from the text before it. A gap that ends before an opening brace is the
same whatever stands behind the brace (`Gap.readFrom_append`), so the same tokens up to a brace have
the same places in two sources that agree up to there (`Tiles.eq_front`). The same tokens behind a
place lie as far from it in every source with that rest (`Tiles.aligned`).
-/

namespace SignatureLedger

open Byte

/-! ## Scans that end early -/

namespace Bytes

variable {p : UInt8 → Bool} {s t : Bytes}

/-- A run that ends inside `s` does not depend on what follows. -/
theorem run_append (h : run p (s ++ t) < s.length) (t' : Bytes) :
    run p (s ++ t') = run p (s ++ t) := by
  have hne : (s.takeWhile p).length ≠ s.length := by
    intro heq
    rw [run, List.takeWhile_append, if_pos heq, List.length_append] at h
    omega
  rw [run, run, List.takeWhile_append, List.takeWhile_append, if_neg hne, if_neg hne]

end Bytes

/-! ## Gaps before a brace -/

namespace Gap

variable {b : UInt8} {x y y' : Bytes} {done : Gap}

/-- The text ends with an opening brace. -/
def EndsOpen (x : Bytes) : Prop := x.getLast? = some openBrace

/-- Behind its first byte an open end is still one, unless nothing is left. -/
theorem EndsOpen.tail (h : EndsOpen (b :: x)) : x = [] ∧ b = openBrace ∨ EndsOpen x := by
  cases x with
  | nil => exact .inl ⟨rfl, Option.some.inj h⟩
  | cons c x => exact .inr (by rwa [EndsOpen, List.getLast?_cons_cons] at h)

/-- So it is behind more of its bytes. -/
theorem EndsOpen.drop (h : EndsOpen x) {n : Nat} (hn : n < x.length) : EndsOpen (x.drop n) := by
  rw [EndsOpen, List.getLast?_drop, if_neg (Nat.not_le.mpr hn)]
  exact h

/-- An open end has its brace. -/
theorem EndsOpen.ne_nil (h : EndsOpen x) : x ≠ [] := by
  rintro rfl
  exact absurd h (by simp [EndsOpen])

/-- A blank does not reach over the brace. -/
theorem blank?_append (h : EndsOpen x) (y y' : Bytes) :
    blank? b (x ++ y') = blank? b (x ++ y) := by
  cases x with
  | nil => exact absurd rfl h.ne_nil
  | cons c x =>
    cases x with
    | nil =>
      obtain rfl : c = openBrace := Option.some.inj h
      have hnone : ∀ z : Bytes, blank? b (openBrace :: z) = blank? b [openBrace] := by
        intro z
        simp [blank?, openBrace]
      exact (hnone y').trans (hnone y).symm
    | cons d x => rfl

/-- Whether a piece starts is told by what stands up to the brace. -/
theorem Stops.append {x y : Bytes} (h : EndsOpen x) (hstops : Stops (x ++ y)) (y' : Bytes) :
    Stops (x ++ y') := by
  cases x with
  | nil => exact absurd rfl h.ne_nil
  | cons b x =>
  have hcomment := hstops.comment
  rw [List.cons_append, opensComment_cons] at hcomment
  rcases h.tail with ⟨rfl, rfl⟩ | hx
  · refine ⟨fun c rest heq => ?_, ?_⟩
    · obtain ⟨rfl, rfl⟩ := List.cons.inj heq
      simp [blank?, openBrace, lineFeed, isSpace]
    · rw [List.cons_append, opensComment_cons]
      exact fun hopens => absurd hopens.1 (by decide)
  · refine ⟨fun c rest heq => ?_, ?_⟩
    · obtain ⟨rfl, rfl⟩ := List.cons.inj heq
      exact (blank?_append hx y y').trans (hstops.blank b (x ++ y) rfl)
    · rw [List.cons_append, opensComment_cons]
      rwa [List.head?_append_of_ne_nil _ hx.ne_nil] at hcomment ⊢

/-- **A gap that ends before the brace.** It does not depend on what stands behind the brace. -/
theorem readFrom_append {x y : Bytes} (h : EndsOpen x)
    (hlt : (readFrom done (x ++ y)).width < done.width + x.length) (y' : Bytes) :
    readFrom done (x ++ y') = readFrom done (x ++ y) := by
  obtain ⟨ps, t, hread⟩ := exists_reads done (x ++ y)
  have hwidth := hread.width
  -- the row of pieces ends in front of `z`, which ends with the brace
  obtain ⟨z, rfl, rfl⟩ : ∃ z, x = Trivia.row ps ++ z ∧ t = z ++ y := by
    obtain ⟨z, hx⟩ : Trivia.row ps <+: x :=
      List.prefix_of_prefix_length_le ⟨t, hread.text.symm⟩ (List.prefix_append x y) (by omega)
    refine ⟨z, hx.symm, ?_⟩
    have htext := hread.text
    rw [← hx, List.append_assoc] at htext
    exact (List.append_cancel_left htext).symm
  have hz : EndsOpen z := by
    rw [List.length_append] at hlt
    have := h.drop (n := (Trivia.row ps).length) (by rw [List.length_append]; omega)
    rwa [List.drop_left] at this
  have hhead : ∀ u : Bytes, (z ++ u).head? = z.head? := fun u =>
    List.head?_append_of_ne_nil _ hz.ne_nil
  have hne : ∀ u : Bytes, z ++ u ≠ [] := fun u hnil => hz.ne_nil (List.append_eq_nil_iff.mp hnil).1
  have hfill : ∀ u, Trivia.Fill 1 (z ++ u) ps := fun u =>
    (hread.fill 1).congr ((hhead u).trans (hhead y).symm)
  -- behind the row the reader has taken `g`, whatever follows, and stops
  let g : Gap := { done with
    width := done.width + (Trivia.row ps).length
    newline := done.newline || ps.any Trivia.endsLine }
  have hrow : ∀ u, readFrom done (Trivia.row ps ++ z ++ u) = readFrom g (z ++ u) := fun u => by
    rw [List.append_assoc]
    exact readFrom_row (hfill u) (fun _ => (hfill u).not_mem_hashBang Nat.one_pos) (hne u) done
  have hstops : Stops (z ++ y) := stops_of_width_eq g (by rw [← hrow, hwidth])
  rw [hrow, hrow, readFrom_of_stops hstops, readFrom_of_stops (hstops.append hz y')]

/-- A gap that ends before the brace does not depend on what is behind it, at the start of a source
either. -/
theorem readFirst_append {x y : Bytes} (h : EndsOpen x)
    (hlt : (readFirst (x ++ y)).width < x.length) (y' : Bytes) :
    readFirst (x ++ y') = readFirst (x ++ y) := by
  have hmark : (x ++ y').take 2 = [Byte.hash, bang] ↔ (x ++ y).take 2 = [Byte.hash, bang] := by
    cases x with
    | nil => exact absurd rfl h.ne_nil
    | cons c x =>
      cases x with
      | nil =>
        obtain rfl : c = openBrace := Option.some.inj h
        simp [openBrace, Byte.hash]
      | cons d x => exact Iff.rfl
  unfold readFirst at hlt ⊢
  by_cases hfirst : (x ++ y).take 2 = [Byte.hash, bang]
  · rw [if_pos hfirst] at hlt ⊢
    rw [if_pos (hmark.mpr hfirst)]
    dsimp only at hlt ⊢
    obtain ⟨k, hk, -⟩ := readFrom_spec { width := Bytes.run (· != lineFeed) (x ++ y) }
      ((x ++ y).drop (Bytes.run (· != lineFeed) (x ++ y)))
    dsimp only at hk
    have hw : Bytes.run (· != lineFeed) (x ++ y) < x.length := by omega
    have hdrop : ∀ z : Bytes, (x ++ z).drop (Bytes.run (· != lineFeed) (x ++ y))
        = x.drop (Bytes.run (· != lineFeed) (x ++ y)) ++ z := fun z =>
      List.drop_append_of_le_length (Nat.le_of_lt hw)
    rw [Bytes.run_append hw y', hdrop]
    rw [hdrop] at hlt ⊢
    refine readFrom_append (h.drop hw) ?_ y'
    rw [List.length_drop]
    dsimp only
    omega
  · rw [if_neg hfirst] at hlt ⊢
    rw [if_neg fun hz => hfirst (hmark.mp hz)]
    exact readFrom_append h (by simpa [read] using hlt) y'

/-- Between tokens the same. -/
theorem behind_append {x y : Bytes} {pos : Nat} (h : EndsOpen x)
    (hlt : pos + (behind (x ++ y) pos).width < x.length) (y' : Bytes) :
    behind (x ++ y') pos = behind (x ++ y) pos := by
  unfold behind at hlt ⊢
  by_cases hpos : pos = 0
  · rw [if_pos hpos] at hlt ⊢
    rw [if_pos hpos]
    exact readFirst_append h (by omega) y'
  · rw [if_neg hpos] at hlt ⊢
    rw [if_neg hpos]
    have hdrop : ∀ z : Bytes, (x ++ z).drop pos = x.drop pos ++ z := fun z =>
      List.drop_append_of_le_length (by omega)
    rw [hdrop] at hlt ⊢
    rw [hdrop]
    refine readFrom_append (h.drop (by omega)) ?_ y'
    rw [List.length_drop]
    show (readFrom {} (x.drop pos ++ y)).width < 0 + _
    have : (read (x.drop pos ++ y)).width = (readFrom {} (x.drop pos ++ y)).width := rfl
    omega

end Gap

/-! ## Tokens -/

namespace Tiles

variable {x y y' : Bytes} {pos : Nat} {ts ts' : List Token}

/-- **In front of a change.** The same tokens up to a brace have the same places, whatever stands
behind it. -/
theorem eq_front (hx : Gap.EndsOpen x) (h : Tiles (x ++ y) pos ts) (h' : Tiles (x ++ y') pos ts')
    (hfaces : ts.map Token.face = ts'.map Token.face) (hend : ∀ t ∈ ts, t.span.hi ≤ x.length) :
    ts' = ts := by
  induction h generalizing ts' with
  | nil => simpa using hfaces.symm
  | @cons pos t ts ht hts ih =>
    cases h' with
    | nil => exact absurd hfaces (by simp)
    | @cons _ t' ts' ht' hts' =>
      obtain ⟨hface, hrest⟩ := List.cons.inj hfaces
      have hmoved := Token.eq_moved_of_face hface
      have hlt : t.span.lo < x.length :=
        Nat.lt_of_lt_of_le ht.lt (hend t List.mem_cons_self)
      have hlo : t'.span.lo = t.span.lo := by
        rw [ht.lo] at hlt
        rw [ht.lo, ht'.lo, Gap.behind_append hx hlt y']
      have hhi : t'.span.hi = t.span.hi := by
        rw [ht.hi, ht'.hi, hlo, hmoved, Token.lexeme_moved]
      have hspan : t'.span = t.span := by
        rw [show t'.span = ⟨t'.span.lo, t'.span.hi⟩ from rfl, hlo, hhi]
      have heq : t' = t := by rw [hmoved, hspan, Token.moved_span]
      subst heq
      rw [ih hts' hrest fun u hu => hend u (List.mem_cons_of_mem _ hu)]

/-- Where two sources have the same rest, the next token lies equally far from its start. -/
theorem aligned_lies {s s' : Bytes} {d d' i : Nat} {t t' : Token} (hd : 0 < d) (hd' : 0 < d')
    (hrest : s.drop d = s'.drop d') (ht : t.Lies s (d + i)) (ht' : t'.Lies s' (d' + i))
    (hlexeme : t'.lexeme = t.lexeme) :
    ∃ lo hi, t.span = ⟨d + lo, d + hi⟩ ∧ t'.span = ⟨d' + lo, d' + hi⟩ := by
  have hgap : Gap.behind s' (d' + i) = Gap.behind s (d + i) := by
    rw [Gap.behind, Gap.behind, if_neg (by omega), if_neg (by omega), ← List.drop_drop,
      ← List.drop_drop, hrest]
  have hlo := ht.lo
  have hlo' := ht'.lo
  have hhi := ht.hi
  have hhi' := ht'.hi
  rw [hgap] at hlo'
  rw [hlexeme] at hhi'
  refine ⟨i + (Gap.behind s (d + i)).width,
    i + (Gap.behind s (d + i)).width + t.lexeme.length, ?_, ?_⟩
  · rw [show t.span = ⟨t.span.lo, t.span.hi⟩ from rfl, hhi, hlo, Nat.add_assoc, Nat.add_assoc,
      Nat.add_assoc]
  · rw [show t'.span = ⟨t'.span.lo, t'.span.hi⟩ from rfl, hhi', hlo', Nat.add_assoc, Nat.add_assoc,
      Nat.add_assoc]

/-- **Behind a change.** The same holds of all the tokens there. By induction on the number of the
token: the gaps are the same on both sides, and so are the widths. -/
theorem aligned {s s' : Bytes} {d d' i n : Nat} {t t' : Token} (hd : 0 < d) (hd' : 0 < d')
    (hrest : s.drop d = s'.drop d') (h : Tiles s (d + i) ts) (h' : Tiles s' (d' + i) ts')
    (hfaces : ts.map Token.face = ts'.map Token.face) (ht : ts[n]? = some t)
    (ht' : ts'[n]? = some t') :
    ∃ lo hi, t.span = ⟨d + lo, d + hi⟩ ∧ t'.span = ⟨d' + lo, d' + hi⟩ := by
  induction n generalizing i ts ts' with
  | zero =>
    cases h with
    | nil => exact absurd ht (by simp)
    | cons hu hus =>
    cases h' with
    | nil => exact absurd ht' (by simp)
    | cons hu' hus' =>
    obtain rfl := Option.some.inj ht
    obtain rfl := Option.some.inj ht'
    exact aligned_lies hd hd' hrest hu hu' (congrArg (·.2.1) (List.cons.inj hfaces).1).symm
  | succ n ih =>
    cases h with
    | nil => exact absurd ht (by simp)
    | @cons _ u us hu hus =>
    cases h' with
    | nil => exact absurd ht' (by simp)
    | @cons _ u' us' hu' hus' =>
    obtain ⟨hface, hfaces⟩ := List.cons.inj hfaces
    obtain ⟨lo, hi, hspan, hspan'⟩ := aligned_lies hd hd' hrest hu hu' (congrArg (·.2.1) hface).symm
    rw [hspan] at hus
    rw [hspan'] at hus'
    exact ih hus hus' hfaces ht ht'

end Tiles

end SignatureLedger
