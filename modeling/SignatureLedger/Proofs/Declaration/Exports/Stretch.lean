import SignatureLedger.Proofs.Declaration.Course.Members
import SignatureLedger.Proofs.Declaration.Exports.Accounts

/-!
# Accounts of stretches

What the parser takes without a look at single words is accounted for kind by kind: groups, lists of
type parameters, paths, decorators and array brackets by the tokens in front of them, and values and
statements by the lines that end in them.
-/

namespace SignatureLedger

open Extent

namespace Grounds

variable {u v ts rest post : List Token} {t e : Token} {n : Nat}

/-! ## Tokens that need no excuse -/

/-- A bracket, a sign or a literal is not the word `export`. -/
theorem isKeyword_of_isPunct {j : Punct} (h : t.isPunct j = true) (k : Keyword) :
    t.isKeyword k = false := by
  simp only [Token.isPunct, beq_iff_eq] at h
  simp [Token.isKeyword, h]

/-- A sign that is no closing bracket needs no excuse. -/
theorem passed_of_isPunct {j : Punct} (h : t.isPunct j = true) (hj : j.isCloser = false) :
    passed.Holds u t post := by
  refine passed_of_not ?_ (isKeyword_of_isPunct h _)
  simp only [Token.isPunct, beq_iff_eq] at h
  rw [h]
  exact hj

/-- An opening bracket is no reserved word. -/
theorem isKeyword_of_isOpener (h : t.kind.isOpener = true) (k : Keyword) :
    t.isKeyword k = false := by
  rw [Token.isKeyword, beq_eq_false_iff_ne]
  intro hk
  rw [hk] at h
  exact absurd h (by simp [TokenKind.isOpener])

/-- Nor does an opening bracket need one. -/
theorem passed_of_isOpener (h : t.kind.isOpener = true) : passed.Holds u t post :=
  passed_of_not (TokenKind.isCloser_of_isOpener h) (isKeyword_of_isOpener h _)

/-- Nor does a name that is no reserved word. -/
theorem passed_of_ident (h : t.kind = .ident) : passed.Holds u t post :=
  passed_of_not (by rw [h]; rfl) (by simp [Token.isKeyword, h])

/-- Nor does another reserved word. -/
theorem passed_of_isKeyword {k : Keyword} (h : t.isKeyword k = true) (hk : k ≠ .exportKw) :
    passed.Holds u t post := by
  simp only [Token.isKeyword, beq_iff_eq] at h
  exact passed_of_not (by rw [h]; rfl) (by simpa [Token.isKeyword, h] using hk)

/-- A name is no closing bracket. -/
theorem isCloser_of_isName (h : t.kind.isName = true) : t.kind.isCloser = false := by
  cases hk : t.kind <;> simp_all [TokenKind.isName, TokenKind.isCloser]

/-! ## Two tokens -/

/-- Two tokens are accounted for one by one. -/
theorem covers_two {g : Grounds} {a b : Token} (ha : g.Holds [] a (b :: rest))
    (hb : g.Holds [a] b rest) : g.Covers ⟨2, none⟩ (a :: b :: rest) := by
  intro _ u e post hts hlt
  match u with
  | [] =>
    obtain ⟨rfl, rfl⟩ := List.cons.inj hts
    exact ha
  | [x] =>
    obtain ⟨rfl, htail⟩ := List.cons.inj hts
    obtain ⟨rfl, rfl⟩ := List.cons.inj htail
    exact hb
  | _ :: _ :: _ => exact absurd hlt (by simp)

/-- Words need no excuse. -/
theorem covers_words (h : ∀ t ∈ ts.take n, t.kind = .ident) : passed.Covers ⟨n, none⟩ ts := by
  intro _ u e post hts hlt
  refine passed_of_ident (h e ?_)
  rw [hts, List.take_append, List.mem_append]
  right
  obtain ⟨m, hm⟩ : ∃ m, n - u.length = m + 1 := ⟨n - u.length - 1, by dsimp only at hlt; omega⟩
  rw [hm, List.take_succ_cons]
  exact List.mem_cons_self

/-! ## Groups -/

/-- What is asked only outside of all brackets holds of a group, if it holds of its first token. -/
theorem each_front_group {P : List Token → Token → List Token → Prop} {x : List Token}
    (ho : t.kind.isOpener = true) (h : groupEnd? 0 rest = some n) (ht : P x t rest)
    (hP : ∀ {u e post}, ¬ Outside u → P (x ++ u) e post) :
    Each P x ⟨1 + n, none⟩ (t :: rest) := by
  intro _ u e post hts hlt
  match u with
  | [] =>
    obtain ⟨rfl, rfl⟩ := List.cons.inj hts
    rwa [List.append_nil]
  | o :: y =>
    rw [List.cons_append] at hts
    obtain ⟨rfl, rfl⟩ := List.cons.inj hts
    have hlen : y.length + 1 < 1 + n := hlt
    exact hP (not_outside_of_groupEnd? ho h (by omega))

/-- The start of a group up to the bracket that ends it. -/
theorem covers_front_group (ho : t.kind.isOpener = true) (h : groupEnd? 0 rest = some n) :
    passed.Covers ⟨1 + n, none⟩ (t :: rest) :=
  each_front_group ho h (passed_of_isOpener ho) fun hu hout => absurd hout hu

/-- A group covers the exports in its brackets. -/
theorem covers_group (ho : t.kind.isOpener = true) (rest : List Token) :
    passed.Covers ((Extent.group t rest).shift 1) (t :: rest) := by
  unfold Extent.group
  split
  · exact covers_front_group ho ‹_›
  · exact .of_unclosed rfl

theorem covers_bracketed? (ts : List Token) : passed.Covers (Extent.bracketed? ts) ts := by
  cases ts with
  | nil => exact covers_nothing _ _
  | cons t rest =>
    rw [Extent.bracketed?]
    split
    · exact covers_group ‹_› rest
    · exact covers_nothing _ _

theorem covers_parens? (ts : List Token) : passed.Covers (Extent.parens? ts) ts := by
  cases ts with
  | nil => exact covers_nothing _ _
  | cons t rest =>
    rw [Extent.parens?]
    split
    · exact covers_group (isOpener_of_isPunct ‹_› rfl) rest
    · exact covers_nothing _ _

/-- Array suffixes cover the exports in their brackets. -/
theorem covers_arraySuffix (ts : List Token) : passed.Covers (Extent.arraySuffix ts) ts := by
  fun_induction Extent.arraySuffix ts with
  | case1 => exact covers_nothing _ _
  | case2 t rest ht n hn ih =>
    have ho := isOpener_of_isPunct (Bool.and_eq_true .. ▸ ht).1 rfl
    exact .behind_cons (covers_front_group ho hn) ih
  | case3 => exact .of_unclosed rfl
  | case4 => exact covers_nothing _ _

/-! ## Type parameters and arguments -/

/-- A token that is no closing bracket. -/
theorem closing_of_not (h : ¬ t.kind.isCloser = true) : closing.Holds u t post :=
  fun _ hc => absurd hc h

/-- Behind its less sign a list of type parameters has closing brackets only in groups. -/
theorem closing_angle (start : Token) (depth : Nat) (ts : List Token) :
    closing.Covers (Extent.angle start depth ts) ts := by
  fun_induction Extent.angle start depth ts with
  | case1 => exact .of_unclosed rfl
  | case2 depth t rest ht ih => exact .cons (passed_of_isPunct ht rfl).closing ih
  | case3 depth t rest _ ht ih => exact .cons (passed_of_isPunct ht rfl).closing ih
  | case4 depth t rest _ _ ht _ => exact Extent.each_one (passed_of_isPunct ht rfl).closing
  | case5 depth t rest _ _ ht _ ih => exact .cons (passed_of_isPunct ht rfl).closing ih
  | case6 depth t rest _ _ _ ho n hn ih =>
    have hgroup : closing.Covers ⟨1 + n, none⟩ (t :: rest) :=
      fun hc u e post hts hlt => (covers_front_group ho hn hc u e post hts hlt).closing
    exact .behind_cons hgroup ih
  | case7 => exact .of_unclosed rfl
  | case8 => exact .of_unclosed rfl
  | case9 depth t rest _ _ _ ho hstop ih =>
    simp only [Bool.or_eq_true, not_or] at hstop
    exact .cons (closing_of_not hstop.2) ih

/-- A word in a list of type parameters or arguments is excused by the list. -/
theorem covers_angle (ht : t.isPunct .less = true) (rest : List Token) :
    passed.Covers ((Extent.angle t 1 rest).shift 1) (t :: rest) := by
  intro hclosed u e post hts hlt
  match u with
  | [] =>
    obtain ⟨rfl, -⟩ := List.cons.inj hts
    exact passed_of_isPunct ht rfl
  | lt :: v =>
    rw [List.cons_append] at hts
    obtain ⟨rfl, rfl⟩ := List.cons.inj hts
    have hin : v.length < (Extent.angle t 1 (v ++ e :: post)).width := by
      rw [Extent.shift, List.length_cons] at hlt
      dsimp only at hlt
      omega
    intro hout
    by_cases hc : e.kind.isCloser = true
    · exact .inl ((closing_angle t 1 _ hclosed v e post rfl hin hout.2 hc).behind [t])
    · exact .inr ⟨Bool.not_eq_true _ ▸ hc, fun _ => .list (List.nil_append _).symm ht hclosed hin⟩

/-- Angles cover what stands between them. -/
theorem covers_angle? (ts : List Token) : passed.Covers (Extent.angle? ts) ts := by
  cases ts with
  | nil => exact covers_nothing _ _
  | cons t rest =>
    rw [Extent.angle?]
    split
    · exact covers_angle ‹_› rest
    · exact covers_nothing _ _

/-! ## Paths and decorators -/

/-- The names of a path stand behind dots. -/
theorem covers_path (ts : List Token) : passed.Covers (path ts) ts := by
  unfold path
  fun_induction pathWidth ts with
  | case1 a b ts hab ih =>
    rw [Bool.and_eq_true] at hab
    refine Covers.behind (E := path ts) (covers_two (passed_of_isPunct hab.1 rfl) ?_) ih
    exact passed_of_excuse (isCloser_of_isName hab.2) (.member ⟨a, rfl, hab.1⟩)
  | case2 => exact covers_nothing _ _
  | case3 => exact covers_nothing _ _

/-- The first name of a decorator stands behind its sign. -/
theorem covers_decoratorName (ht : t.isPunct .atSign = true) (rest : List Token) :
    passed.Covers ((nameAt rest).shift 1) (t :: rest) := by
  have hsign : passed.Holds [] t rest := passed_of_isPunct ht rfl
  cases rest with
  | nil => exact .cons hsign (covers_nothing _ _)
  | cons a rest =>
    by_cases ha : a.kind.isName = true
    · rw [nameAt, List.head?_cons, Option.any_some, if_pos ha]
      exact covers_two hsign
        (passed_of_excuse (isCloser_of_isName ha) (.decoratorName ⟨t, rfl, ht⟩))
    · rw [nameAt, List.head?_cons, Option.any_some, if_neg ha]
      exact .cons hsign (covers_nothing _ _)

/-- A decorator with its sign. -/
theorem covers_decorator (ht : t.isPunct .atSign = true) (rest : List Token) :
    passed.Covers ((Extent.decorator rest).shift 1) (t :: rest) := by
  have hsign : passed.Holds [] t rest := passed_of_isPunct ht rfl
  cases rest with
  | nil => exact .cons hsign (covers_nothing _ _)
  | cons a rest =>
    by_cases ha : a.isPunct .openParen = true
    · rw [decorator_of_openParen ha]
      exact .cons hsign (covers_group (isOpener_of_isPunct ha rfl) rest)
    · -- the name behind the sign, the path, type arguments and arguments
      rw [decorator_of_not_openParen ha, pathDecorator, shift_andThen t, pathAt, shift_andThen t]
      exact ((covers_decoratorName ht _).andThen (covers_path _)).andThen
        ((covers_angle? _).andThen (covers_parens? _))

/-- Decorators cover the exports in their brackets. -/
theorem covers_decorators (ts : List Token) : passed.Covers (Extent.decorators ts) ts := by
  fun_induction Extent.decorators ts with
  | case1 => exact covers_nothing _ _
  | case2 t rest ht one hone => exact .of_unclosed hone
  | case3 t rest ht one hone ih => exact .behind_cons ((covers_decorator ht rest).front hone) ih
  | case4 => exact covers_nothing _ _

/-- The names of a namespace are no reserved words. -/
theorem covers_dotted (last : Token) (ts : List Token) :
    passed.Covers (dotted last ts) ts := by
  unfold dotted
  fun_induction Parser.dottedName last ts with
  | case1 last a b ts hab n t hrest ih =>
    simp only [Bool.and_eq_true, decide_eq_true_eq] at hab
    rw [hrest] at ih
    exact Covers.behind (E := ⟨n, none⟩)
      (covers_two (passed_of_isPunct hab.1 rfl) (passed_of_ident hab.2)) ih
  | case2 => exact covers_nothing _ _
  | case3 => exact covers_nothing _ _

/-! ## Values and statements -/

/-- The property does not depend on what stands before the previous token. -/
def LooksBackOne (P : List Token → Token → List Token → Prop) : Prop :=
  ∀ x q u e post, P (q :: u) e post → P (x ++ q :: u) e post

section LooksBackOne

variable {P : List Token → Token → List Token → Prop} {previous? : Option Token} {E : Extent}

/-- Behind one token that is the previous one. -/
theorem LooksBackOne.cons (hP : LooksBackOne P) (ht : P previous?.toList t rest)
    (h : E.Each P [t] rest) : (E.shift 1).Each P previous?.toList (t :: rest) :=
  .behind (each_one ht) (h.lift fun hu => by
    rw [List.append_assoc]
    exact hP _ _ _ _ _ hu)

/-- Behind a token and `n` more the last one of them is the previous one. -/
theorem LooksBackOne.behind (hP : LooksBackOne P) (hn : 0 < n)
    (hfront : Each P previous?.toList ⟨1 + n, none⟩ (t :: rest))
    (h : E.Each P (rest[n - 1]?).toList (rest.drop n)) :
    (E.shift (1 + n)).Each P previous?.toList (t :: rest) := by
  refine .behind hfront ?_
  rw [Nat.add_comm, List.take_succ_cons, List.drop_succ_cons]
  by_cases hle : n ≤ rest.length
  · have hlast : rest[n - 1]? = some rest[n - 1] := List.getElem?_eq_getElem (by omega)
    have htake : rest.take n = rest.take (n - 1) ++ [rest[n - 1]] := by
      rw [List.take_append_getElem, Nat.sub_add_cancel hn]
    rw [hlast] at h
    refine h.lift fun hu => ?_
    rw [htake, ← List.cons_append, ← List.append_assoc, List.append_assoc _ [rest[n - 1]]]
    exact hP _ _ _ _ _ hu
  · -- nothing is left behind them
    rw [List.drop_of_length_le (Nat.le_of_not_le hle)]
    exact fun _ u e post hts => absurd hts (by simp)

end LooksBackOne

/-- Outside all brackets no line that ends before an `export` ends the statement. -/
def Runs (u : List Token) (e : Token) (_post : List Token) : Prop :=
  Outside u → e.isKeyword .exportKw = true → GoesOn u e

/-- Outside all brackets a token in a value is no closing bracket, and no line that ends before an
`export` ends the value. -/
def InValue (u : List Token) (e : Token) (post : List Token) : Prop :=
  Outside u → LookAhead u e post ∨ e.kind.isCloser = false ∧
    (e.isKeyword .exportKw = true → Excuse u e post ∨ GoesOn u e)

/-- A value that goes on does so with more in front. -/
theorem goesOn_append {x : List Token} {q : Token} (h : GoesOn (q :: u) e) :
    GoesOn (x ++ q :: u) e := by
  intro l hl
  refine h l ?_
  rwa [List.getLast?_append, List.getLast?_cons, Option.some_or, ← List.getLast?_cons] at hl

/-- Whether the text runs on is seen from one token before. -/
theorem looksBackOne_runs : LooksBackOne Runs :=
  fun _ _ _ _ _ h hout he => goesOn_append (h hout.of_append he)

/-- Whether one stands in a value is seen from one token before. -/
theorem looksBackOne_inValue : LooksBackOne InValue := by
  intro x q u e post h hout
  exact (h hout.of_append).imp (.behind x) fun h =>
    ⟨h.1, fun he => (h.2 he).imp (.behind x) goesOn_append⟩

/-- What is accounted for elsewhere is so in a value. -/
theorem Covers.inValue {E : Extent} {x : List Token} (h : passed.Covers E ts) :
    E.Each InValue x ts := by
  intro hclosed u e post hts hlt hout
  exact (h hclosed u e post hts hlt hout.of_append).imp (.behind _) fun h =>
    ⟨h.1, fun he => .inl ((h.2 he).behind _)⟩

/-- The previous token does not end the line. -/
theorem goesOn_of_not_ended {previous? : Option Token}
    (hline : ¬ previous?.any (·.endsLine t) = true) : GoesOn previous?.toList t := by
  intro l hl
  cases previous? with
  | none => exact absurd hl (by simp)
  | some q =>
    obtain rfl : q = l := by simpa using hl
    simpa using hline

/-- Type arguments of a value are found by looking ahead. -/
theorem inValue_typeArgs {previous? : Option Token} (ht : t.isPunct .less = true)
    (hq : previous?.any (fun q => q.kind.isName || q.isPunct .greater) = true)
    (hn : typeArgsEnd? (typeArgsLimit - 1) 1 rest = some n) :
    Each InValue previous?.toList ⟨1 + n, none⟩ (t :: rest) := by
  obtain ⟨q, rfl, hq⟩ := (Option.any_eq_true _ _).mp hq
  intro _ u e post hts hlt
  match u with
  | [] =>
    obtain ⟨rfl, -⟩ := List.cons.inj hts
    exact fun hout => (passed_of_isPunct ht rfl hout).imp_right fun h =>
      ⟨h.1, fun he => .inl (h.2 he)⟩
  | s :: v =>
    obtain ⟨rfl, rfl⟩ := List.cons.inj hts
    rw [List.length_cons] at hlt
    exact fun _ => .inl ⟨[], q, t, v, n, rfl, hq, ht, hn, .inl (by dsimp only at hlt; omega)⟩

/-- **Values.** What stands in a value outside all brackets stands on lines that do not end it. -/
theorem inValue_expr (previous? : Option Token) (ts : List Token) :
    (Extent.expr previous? ts).Each InValue previous?.toList ts := by
  fun_induction Extent.expr previous? ts with
  | case1 => exact each_nothing _ _ _
  | case2 => exact each_nothing _ _ _
  | case3 previous? t rest _ ho n hn ih =>
    exact looksBackOne_inValue.behind (groupEnd?_pos hn) (covers_front_group ho hn).inValue ih
  | case4 => exact .of_unclosed rfl
  | case5 previous? t rest _ _ hless params hparams => exact .of_unclosed hparams
  | case6 previous? t rest _ _ hless params hparams ih =>
    have hfront := (covers_angle (Bool.and_eq_true .. ▸ hless).1 rest).front hparams
    refine looksBackOne_inValue.behind (angle_pos ?_) hfront.inValue ih
    simpa using hparams
  | case7 previous? t rest _ _ _ hless n hn ih =>
    rw [Bool.and_eq_true] at hless
    obtain ⟨u, v, g, -, rfl, hlast, -⟩ := exists_of_typeArgsEnd? hn
    have hpos : 0 < u.length :=
      List.length_pos_iff.mpr fun hnil => absurd hlast (by simp [hnil])
    exact looksBackOne_inValue.behind hpos (inValue_typeArgs hless.1 hless.2 hn) ih
  | case8 previous? t rest hstop _ _ _ _ ih | case9 previous? t rest hstop _ _ _ ih =>
    simp only [Bool.or_eq_true, not_or] at hstop
    exact looksBackOne_inValue.cons (fun _ => .inr
      ⟨Bool.not_eq_true _ ▸ hstop.1.2, fun _ => .inr (goesOn_of_not_ended hstop.2)⟩) ih

/-- **Statements.** What stands in a statement outside all brackets stands on lines that do not end
it. -/
theorem runs_statement (previous? : Option Token) (ts : List Token) :
    (Extent.statement previous? ts).Each Runs previous?.toList ts := by
  fun_induction Extent.statement previous? ts with
  | case1 => exact each_nothing _ _ _
  | case2 previous? t rest ht =>
    exact each_one fun _ he => absurd he (by simp [isKeyword_of_isPunct ht])
  | case3 => exact each_nothing _ _ _
  | case4 previous? t rest _ _ ho n hn ih =>
    have hopener : Runs previous?.toList t rest :=
      fun _ he => absurd he (by simp [isKeyword_of_isOpener ho])
    have hfront := each_front_group ho hn hopener fun hu hout => absurd hout.of_append hu
    exact looksBackOne_runs.behind (groupEnd?_pos hn) hfront ih
  | case5 => exact .of_unclosed rfl
  | case6 previous? t rest hs hstop ho ih =>
    simp only [Bool.or_eq_true, not_or] at hstop
    exact looksBackOne_runs.cons (fun _ _ => goesOn_of_not_ended hstop.2) ih

end Grounds

end SignatureLedger
