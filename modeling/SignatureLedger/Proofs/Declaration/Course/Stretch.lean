import SignatureLedger.Proofs.Declaration.Reaches
import SignatureLedger.Proofs.Declaration.Skimmed

/-!
# Stretches are skimmed over

Each kind of stretch that the parser skips, if all is closed in it, is one that can be skimmed over
in its place: types and groups anywhere, expressions in a value, clauses and the heads of classes in
a clause, and statements between items.
-/

namespace SignatureLedger

open Extent

variable {m : Place} {e : Extent} {t : Token} {rest ts : List Token} {n : Nat}

/-! ## Stretches -/

/-- The stretch at the front of the tokens, if all is closed in it, can be skimmed over. -/
def Skims (m : Place) (e : Extent) (ts : List Token) : Prop :=
  e.unclosed? = none → ∃ f, Skimmed m f (ts.take e.width)

theorem skims_nothing (m : Place) (ts : List Token) : Skims m ⟨0, none⟩ ts := fun _ => ⟨[], .nil⟩

/-- A stretch that is not closed need not be skimmed: it is reported. -/
theorem Skims.of_unclosed (h : e.unclosed?.isSome = true) : Skims m e ts :=
  fun hnone => absurd h (by simp [hnone])

/-- The stretch goes on behind `n` tokens. -/
theorem Skims.behind (hn : ∃ f, Skimmed m f (ts.take n)) (h : Skims m e (ts.drop n)) :
    Skims m (e.shift n) ts := by
  intro hclosed
  obtain ⟨f, hf⟩ := hn
  obtain ⟨g, hg⟩ := h hclosed
  refine ⟨f ++ g, ?_⟩
  rw [Extent.shift, List.take_add]
  exact hf.append hg

/-- The stretch goes on behind a token and `n` more. -/
theorem Skims.behind_cons (hn : ∃ f, Skimmed m f (t :: rest.take n))
    (h : Skims m e (rest.drop n)) : Skims m (e.shift (1 + n)) (t :: rest) := by
  rw [Nat.add_comm]
  exact .behind hn h

/-- A token that is passed, and a stretch behind it. -/
theorem Skims.plain (ht : m.passes t.kind = true) (h : Skims m e rest) :
    Skims m (e.shift 1) (t :: rest) := .behind ⟨[], .plain ht .nil⟩ h

/-- Two stretches, the second one taken where the first one ends. -/
theorem Skims.andThen {E : List Token → Extent} (h : Skims m e ts)
    (hE : Skims m (E (ts.drop e.width)) (ts.drop e.width)) : Skims m (e.andThen E ts) ts := by
  intro hclosed
  have hboth := closed_of_andThen hclosed
  rw [andThen_of_closed hboth.1] at hclosed ⊢
  exact Skims.behind (h hboth.1) hE hclosed

/-! ## Groups -/

/-- The search for the end of a group passes over a stretch that can be skimmed over, to a closing
bracket. -/
theorem exists_skimmed_of_groupEnd? {n k : Nat} {w : List Token} (h : groupEnd? n w = some k) :
    ∃ f inner c v, w = inner ++ c :: v ∧ c.kind.isCloser = true ∧ Skimmed .bracketed f inner
      ∧ (n = 0 → k = inner.length + 1)
      ∧ ∀ j, n = j + 1 → ∃ i, groupEnd? j v = some i ∧ k = inner.length + 1 + i := by
  match w with
  | [] => exact absurd h (by simp [groupEnd?])
  | t :: ts =>
    by_cases ho : t.kind.isOpener = true
    · rw [groupEnd?_opener ho, Option.map_eq_some_iff] at h
      obtain ⟨i, hi, rfl⟩ := h
      obtain ⟨f, inner, c, v, rfl, hc, hinner, -, hmore⟩ := exists_skimmed_of_groupEnd? hi
      obtain ⟨j, hbehind, rfl⟩ := hmore n rfl
      have hlt : v.length < (inner ++ c :: v).length + 1 := by
        rw [List.length_append, List.length_cons]
        omega
      -- the group that the bracket opens, and what comes behind it
      obtain ⟨g, inner', c', v', rfl, hc', hinner', hlast, hmore'⟩ :=
        exists_skimmed_of_groupEnd? hbehind
      refine ⟨_, t :: (inner ++ c :: inner'), c', v', by simp, hc',
        .group ho hc hinner hinner', fun hn => ?_, fun m hm => ?_⟩
      · rw [hlast hn]
        simp only [List.length_cons, List.length_append]
        omega
      · obtain ⟨k, hk, rfl⟩ := hmore' m hm
        refine ⟨k, hk, ?_⟩
        simp only [List.length_cons, List.length_append]
        omega
    by_cases hc : t.kind.isCloser = true
    · refine ⟨[], [], t, ts, rfl, hc, .nil, fun hn => ?_, fun j hj => ?_⟩
      · rw [hn, groupEnd?_lastCloser hc] at h
        exact (Option.some.inj h).symm
      · rw [hj, groupEnd?_closer hc, Option.map_eq_some_iff] at h
        obtain ⟨i, hi, rfl⟩ := h
        exact ⟨i, hi, Nat.add_comm _ _⟩
    · rw [groupEnd?_other (Bool.not_eq_true _ ▸ ho) (Bool.not_eq_true _ ▸ hc),
        Option.map_eq_some_iff] at h
      obtain ⟨i, hi, rfl⟩ := h
      obtain ⟨f, inner, c, v, rfl, hcloser, hinner, hlast, hmore⟩ := exists_skimmed_of_groupEnd? hi
      have ht : Place.bracketed.passes t.kind = true := by
        simp [Place.passes, Place.passesSemicolon, ho, hc]
      refine ⟨f, t :: inner, c, v, rfl, hcloser, .plain ht hinner, fun hn => ?_, fun m hm => ?_⟩
      · rw [hlast hn, List.length_cons]
      · obtain ⟨j, hj, rfl⟩ := hmore m hm
        exact ⟨j, hj, by rw [List.length_cons]; omega⟩
termination_by w.length

/-- A group in brackets can be skimmed over anywhere. -/
theorem exists_skimmed_group (m : Place) (ho : t.kind.isOpener = true)
    (h : groupEnd? 0 rest = some n) : ∃ f, Skimmed m f (t :: rest.take n) := by
  obtain ⟨f, inner, c, v, rfl, hc, hinner, hlast, -⟩ := exists_skimmed_of_groupEnd? h
  rw [hlast rfl, List.take_length_add_append, List.take_succ_cons, List.take_zero]
  exact ⟨_, .group ho hc hinner .nil⟩

/-- A group is skimmed as a pair of brackets. -/
theorem skims_group (m : Place) (ho : t.kind.isOpener = true) (rest : List Token) :
    Skims m ((Extent.group t rest).shift 1) (t :: rest) := by
  unfold Extent.group
  split
  · rename_i n hn
    exact .behind_cons (n := n) (e := ⟨0, none⟩) (exists_skimmed_group m ho hn) (skims_nothing m _)
  · exact .of_unclosed rfl

theorem skims_bracketed? (m : Place) (ts : List Token) : Skims m (Extent.bracketed? ts) ts := by
  cases ts with
  | nil => exact skims_nothing m _
  | cons t rest =>
    rw [Extent.bracketed?]
    split
    · exact skims_group m ‹_› rest
    · exact skims_nothing m _

theorem skims_parens? (m : Place) (ts : List Token) : Skims m (Extent.parens? ts) ts := by
  cases ts with
  | nil => exact skims_nothing m _
  | cons t rest =>
    rw [Extent.parens?]
    split
    · exact skims_group m (isOpener_of_isPunct ‹_› rfl) rest
    · exact skims_nothing m _

/-- Array suffixes are skimmed pair by pair. -/
theorem skims_arraySuffix (m : Place) (ts : List Token) : Skims m (Extent.arraySuffix ts) ts := by
  fun_induction Extent.arraySuffix ts with
  | case1 => exact skims_nothing m _
  | case2 t rest ht n hn ih =>
    have ho := isOpener_of_isPunct (Bool.and_eq_true .. ▸ ht).1 rfl
    exact .behind_cons (exists_skimmed_group m ho hn) ih
  | case3 => exact .of_unclosed rfl
  | case4 => exact skims_nothing m _

/-! ## Type parameters and arguments -/

theorem passes_of_isPunct {k : Punct} (h : t.isPunct k = true)
    (hk : m.passes (.punct k) = true) : m.passes t.kind = true := by
  simp only [Token.isPunct, beq_iff_eq] at h
  rwa [h]

theorem ne_semicolon_of_isPunct (h : ¬ t.isPunct .semicolon = true) :
    t.kind ≠ .punct .semicolon := fun hk => h (by rw [Token.isPunct, hk]; rfl)

/-- What stands between angles is skimmed, by induction on the tokens. -/
theorem skims_angle (m : Place) (start : Token) (depth : Nat) (ts : List Token) :
    Skims m (Extent.angle start depth ts) ts := by
  fun_induction Extent.angle start depth ts with
  | case1 => exact .of_unclosed rfl
  | case2 depth t rest ht ih => exact .plain (passes_of_isPunct ht rfl) ih
  | case3 depth t rest _ ht ih => exact .plain (passes_of_isPunct ht rfl) ih
  | case4 depth t rest _ _ ht _ =>
    exact Skims.plain (e := ⟨0, none⟩) (passes_of_isPunct ht rfl) (skims_nothing m _)
  | case5 depth t rest _ _ ht _ ih => exact .plain (passes_of_isPunct ht rfl) ih
  | case6 depth t rest _ _ _ ho n hn ih => exact .behind_cons (exists_skimmed_group m ho hn) ih
  | case7 => exact .of_unclosed rfl
  | case8 => exact .of_unclosed rfl
  | case9 depth t rest _ _ _ ho hstop ih =>
    simp only [Bool.or_eq_true, not_or] at hstop
    exact .plain (Place.passes_of_not ho hstop.2 (ne_semicolon_of_isPunct hstop.1)) ih

theorem skims_cons_angle (m : Place) (ht : t.isPunct .less = true) (rest : List Token) :
    Skims m ((Extent.angle t 1 rest).shift 1) (t :: rest) :=
  .plain (passes_of_isPunct ht rfl) (skims_angle m t 1 rest)

theorem skims_angle? (m : Place) (ts : List Token) : Skims m (Extent.angle? ts) ts := by
  cases ts with
  | nil => exact skims_nothing m _
  | cons t rest =>
    rw [Extent.angle?]
    split
    · exact skims_cons_angle m ‹_› rest
    · exact skims_nothing m _

/-- The less sign and what it opens. -/
theorem exists_skimmed_angle (m : Place) (ht : t.isPunct .less = true)
    (h : ¬ (Extent.angle t 1 rest).unclosed?.isSome = true) :
    ∃ f, Skimmed m f (t :: rest.take (Extent.angle t 1 rest).width) := by
  have hshift := skims_cons_angle m ht rest (by simpa [Extent.shift] using h)
  rwa [Extent.shift, Nat.add_comm, List.take_succ_cons] at hshift

/-! ## Names, words and decorators -/

theorem passes_of_isName (h : t.kind.isName = true) : m.passes t.kind = true := by
  cases hk : t.kind <;> simp_all [TokenKind.isName] <;> rfl

theorem passes_of_isWord {w : String} (h : t.isWord w = true) : m.passes t.kind = true := by
  rw [Token.kind_of_isWord h]
  rfl

/-- A path of names is skimmed. -/
theorem skims_path (m : Place) (ts : List Token) : Skims m (path ts) ts := by
  unfold path
  fun_induction pathWidth ts with
  | case1 a b ts hab ih =>
    rw [Bool.and_eq_true] at hab
    exact .behind (n := 2) (e := path ts) ⟨[], .plain (passes_of_isPunct hab.1 rfl)
      (.plain (passes_of_isName hab.2) .nil)⟩ ih
  | case2 => exact skims_nothing m _
  | case3 => exact skims_nothing m _

theorem skims_nameAt (m : Place) (ts : List Token) : Skims m (nameAt ts) ts := by
  unfold nameAt
  cases ts with
  | nil => exact skims_nothing m _
  | cons t rest =>
    by_cases ht : t.kind.isName = true
    · rw [List.head?_cons, Option.any_some, if_pos ht]
      exact .plain (e := ⟨0, none⟩) (passes_of_isName ht) (skims_nothing m _)
    · rw [List.head?_cons, Option.any_some, if_neg ht]
      exact skims_nothing m _

/-- A decorator is skimmed. -/
theorem skims_decorator (m : Place) (ts : List Token) : Skims m (Extent.decorator ts) ts := by
  cases ts with
  | nil => exact skims_nothing m _
  | cons t rest =>
    by_cases ht : t.isPunct .openParen = true
    · rw [decorator_of_openParen ht]
      exact skims_group m (isOpener_of_isPunct ht rfl) rest
    · rw [decorator_of_not_openParen ht]
      exact ((skims_nameAt m _).andThen (skims_path m _)).andThen
        ((skims_angle? m _).andThen (skims_parens? m _))

/-- Decorators are skimmed one after the other. -/
theorem skims_decorators (m : Place) (ts : List Token) : Skims m (Extent.decorators ts) ts := by
  fun_induction Extent.decorators ts with
  | case1 => exact skims_nothing m _
  | case2 t rest ht one hone => exact .of_unclosed hone
  | case3 t rest ht one hone ih =>
    obtain ⟨f, hf⟩ := skims_decorator m rest (by simpa using hone)
    exact .behind_cons ⟨f, .plain (passes_of_isPunct ht rfl) hf⟩ ih
  | case4 => exact skims_nothing m _

theorem passes_of_isOperatorBefore (h : t.isOperatorBefore rest = true) :
    m.passes t.kind = true := by
  simp only [Token.isOperatorBefore, Token.isTypeOperator, Token.isKeyword, Bool.or_eq_true,
    Bool.and_eq_true, beq_iff_eq] at h
  rcases h with ((⟨(((hw | hw) | hw) | hw) | hw, -⟩ | hk) | hk) | ⟨hw, -⟩
  all_goals first
    | exact passes_of_isWord hw
    | rw [hk]; rfl

/-- Operators of a type are skimmed. -/
theorem skims_operators (m : Place) (ts : List Token) : Skims m (operators ts) ts := by
  induction ts with
  | nil => exact skims_nothing m _
  | cons t ts ih =>
    cases ht : t.isOperatorBefore ts with
    | false =>
      rw [operators_cons_of_not ht]
      exact skims_nothing m _
    | true =>
      rw [operators_cons_of_operator ht]
      exact .plain (passes_of_isOperatorBefore ht) ih

/-- A dotted name with its arguments is skimmed. -/
theorem skims_dotted (m : Place) (last : Token) (ts : List Token) :
    Skims m (dotted last ts) ts := by
  unfold dotted
  fun_induction Parser.dottedName last ts with
  | case1 last a b ts hab n t hrest ih =>
    simp only [Bool.and_eq_true, decide_eq_true_eq] at hab
    rw [hrest] at ih
    exact .behind (n := 2) (e := ⟨n, none⟩) ⟨[], .plain (passes_of_isPunct hab.1 rfl)
      (.plain (by rw [hab.2]; rfl) .nil)⟩ ih
  | case2 => exact skims_nothing m _
  | case3 => exact skims_nothing m _

/-! ## Words -/

/-- Words can be skimmed over anywhere. -/
theorem Skimmed.of_words (h : ∀ t ∈ ts, t.kind = .ident) : Skimmed m [] ts :=
  .of_passes fun t ht => by
    rw [h t ht]
    rfl

/-! ## Values -/

/-- An expression can be skimmed over as a value. -/
theorem skims_expr (previous? : Option Token) (ts : List Token) :
    Skims .value (Extent.expr previous? ts) ts := by
  fun_induction Extent.expr previous? ts with
  | case1 => exact skims_nothing _ _
  | case2 => exact skims_nothing _ _
  | case3 previous? t rest _ ho n hn ih => exact .behind_cons (exists_skimmed_group _ ho hn) ih
  | case4 => exact .of_unclosed rfl
  | case5 previous? t rest _ _ hless params hparams => exact .of_unclosed hparams
  | case6 previous? t rest _ _ hless params hparams ih =>
    exact .behind_cons (exists_skimmed_angle _ (Bool.and_eq_true .. ▸ hless).1 hparams) ih
  | case7 previous? t rest _ _ _ hless n hn ih =>
    -- type arguments: how many tokens they are is counted, and nothing else
    obtain ⟨u, v, -, rfl, rfl, -, -⟩ := exists_of_typeArgsEnd? hn
    have hargs := Skimmed.typeArgs (Bool.and_eq_true .. ▸ hless).1 hn .nil
    rw [List.append_nil u] at hargs
    exact .behind_cons ⟨_, by rwa [List.take_left]⟩ ih
  | case8 previous? t rest hstop ho _ _ _ ih | case9 previous? t rest hstop ho _ _ ih =>
    simp only [Bool.or_eq_true, not_or] at hstop
    exact .plain (Place.passes_of_not ho hstop.1.2 (ne_semicolon_of_isPunct hstop.1.1.2)) ih

/-! ## Statements -/

/-- A statement can be skimmed over between items. -/
theorem skims_statement (previous? : Option Token) (ts : List Token) :
    Skims .items (Extent.statement previous? ts) ts := by
  fun_induction Extent.statement previous? ts with
  | case1 => exact skims_nothing _ _
  | case2 previous? t rest ht =>
    exact Skims.plain (e := ⟨0, none⟩) (passes_of_isPunct ht rfl) (skims_nothing _ _)
  | case3 => exact skims_nothing _ _
  | case4 previous? t rest _ _ ho n hn ih => exact .behind_cons (exists_skimmed_group _ ho hn) ih
  | case5 => exact .of_unclosed rfl
  | case6 previous? t rest hs hstop ho ih =>
    simp only [Bool.or_eq_true, not_or] at hstop
    exact .plain (Place.passes_of_not ho hstop.1 (ne_semicolon_of_isPunct hs)) ih

/-! ## Clauses and heads -/

/-- Of the closing brackets a clause passes over all but the brace. -/
theorem exists_skimmed_clausePart (ho : ¬ t.kind.isOpener = true)
    (hs : ¬ t.isPunct .semicolon = true) (hb : ¬ t.isPunct .closeBrace = true) :
    ∃ f, Skimmed .clause f [t] := by
  by_cases hc : t.kind.isCloser = true
  · exact ⟨_, .stray hc (Bool.not_eq_true _ ▸ hb) .nil⟩
  · exact ⟨_, .plain (Place.passes_of_not ho hc (ne_semicolon_of_isPunct hs)) .nil⟩

/-- The head of a class or interface can be skimmed over. -/
theorem skims_heritage (ts : List Token) : Skims .clause (Extent.heritage ts) ts := by
  fun_induction Extent.heritage ts with
  | case1 => exact skims_nothing _ _
  | case2 => exact skims_nothing _ _
  | case3 t rest _ hless args hargs => exact .of_unclosed hargs
  | case4 t rest _ hless args hargs ih =>
    exact .behind_cons (exists_skimmed_angle _ hless hargs) ih
  | case5 t rest _ _ ho n hn ih => exact .behind_cons (exists_skimmed_group _ ho hn) ih
  | case6 => exact .of_unclosed rfl
  | case7 t rest hstop _ ho ih =>
    simp only [Bool.or_eq_true, not_or] at hstop
    exact .behind (exists_skimmed_clausePart ho hstop.1.2 hstop.2) ih

/-- The stretch can be skimmed over as a clause, apart from a semicolon that it ends with. -/
def SkimsClause (e : Extent) (ts : List Token) : Prop :=
  e.unclosed? = none → ∃ f u v, ts.take e.width = u ++ v ∧ Skimmed .clause f u
    ∧ ∀ t ∈ v, t.isPunct .semicolon = true

/-- What is skimmed as a part of a clause is skimmed as a clause. -/
theorem Skims.clause (h : Skims .clause e ts) : SkimsClause e ts := fun hclosed =>
  (h hclosed).elim fun f hf => ⟨f, _, [], (List.append_nil _).symm, hf, by simp⟩

/-- What was passed before belongs to the clause. -/
theorem SkimsClause.behind (hn : ∃ f, Skimmed .clause f (ts.take n))
    (h : SkimsClause e (ts.drop n)) : SkimsClause (e.shift n) ts := by
  intro hclosed
  obtain ⟨f, hf⟩ := hn
  obtain ⟨g, u, v, huv, hg, hv⟩ := h hclosed
  refine ⟨f ++ g, ts.take n ++ u, v, ?_, hf.append hg, hv⟩
  rw [Extent.shift, List.take_add, huv, List.append_assoc]

theorem skimsClause_semicolon? (ts : List Token) : SkimsClause (Extent.semicolon? ts) ts := by
  cases ts with
  | nil => exact (skims_nothing _ _).clause
  | cons t rest =>
    rw [Extent.semicolon?]
    split
    · exact fun _ => ⟨[], [], [t], rfl, .nil, by simpa⟩
    · exact (skims_nothing _ _).clause

/-- A clause may end with its semicolon. -/
theorem Skims.andThen_semicolon? (h : Skims .clause e ts) :
    SkimsClause (e.andThen Extent.semicolon? ts) ts := by
  intro hclosed
  have hboth := closed_of_andThen hclosed
  rw [andThen_of_closed hboth.1] at hclosed ⊢
  exact SkimsClause.behind (h hboth.1) (skimsClause_semicolon? _) hclosed

theorem skims_attributes? (ts : List Token) : Skims .clause (Extent.attributes? ts) ts := by
  match ts with
  | [] | [_] => exact skims_nothing _ _
  | a :: b :: rest =>
    rw [Extent.attributes?]
    split
    · rename_i hab
      simp only [Bool.and_eq_true, Bool.or_eq_true] at hab
      have ha : Place.clause.passes a.kind = true := by
        rcases hab.1.1 with hk | hw
        · simp only [Token.isKeyword, beq_iff_eq] at hk
          rw [hk]
          rfl
        · exact passes_of_isWord hw
      have hgroup := (skims_group .clause (isOpener_of_isPunct hab.2 rfl) rest).plain ha
      rwa [Extent.shift, Extent.shift, ← Nat.add_assoc] at hgroup
    · exact skims_nothing _ _

/-- The clause of an import or export can be skimmed over. By induction on the scan of the clause,
with a case for the name of a module, for each kind of group and for any other token. -/
theorem skimsClause_clause (taken : Nat) (previous? : Option Token) (ts : List Token) :
    SkimsClause (Extent.clause taken previous? ts) ts := by
  fun_induction Extent.clause taken previous? ts with
  | case1 => exact (skims_nothing _ _).clause
  | case2 taken previous? t rest ht =>
    exact fun _ => ⟨[], [], [t], rfl, .nil, by simpa⟩
  | case3 => exact (skims_nothing _ _).clause
  | case4 => exact (skims_nothing _ _).clause
  | case5 taken previous? t rest _ _ _ hstring =>
    -- the name of a module, with attributes
    exact .behind ⟨[], .plain (by rw [hstring]; rfl) .nil⟩
      (skims_attributes? rest).andThen_semicolon?
  | case6 taken previous? t rest _ _ _ _ ht =>
    -- or a group in round brackets
    rw [shift_andThen t]
    exact (skims_group _ (isOpener_of_isPunct ht rfl) rest).andThen_semicolon?
  | case7 taken previous? t rest _ _ _ _ _ ho n hn ih =>
    rw [Nat.add_comm 1]
    exact .behind (exists_skimmed_group _ ho hn) ih
  | case8 => exact fun h => absurd h (by simp)
  | case9 taken previous? t rest hs hb _ _ _ ho ih =>
    exact .behind (exists_skimmed_clausePart ho hs hb) ih

end SignatureLedger
