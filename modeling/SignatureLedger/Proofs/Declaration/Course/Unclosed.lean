import SignatureLedger.Proofs.Declaration.StretchRules

/-!
# Brackets that are never closed

The opening token that a stretch complains about is one of the tokens that the stretch is taken from
(`Extent.Blames`). So the complaint is about a place in the source.
-/

namespace SignatureLedger

variable {e : Extent} {t : Token} {rest ts us : List Token} {n : Nat}

namespace Extent

/-- An opening token of the stretch that is never closed is one of the tokens. -/
def Blames (e : Extent) (ts : List Token) : Prop := ∀ t ∈ e.unclosed?, t ∈ ts

namespace Blames

/-- A closed stretch blames nothing. -/
theorem closed (n : Nat) (ts : List Token) : Blames ⟨n, none⟩ ts := fun _ h => absurd h (by simp)

/-- A stretch that blames one of the tokens. -/
theorem of_mem (ht : t ∈ ts) : Blames ⟨n, some t⟩ ts := fun _ h => Option.some.inj h ▸ ht

/-- What is blamed among some tokens is blamed among more of them. -/
theorem mono (h : e.Blames ts) (hsub : ts ⊆ us) : e.Blames us := fun t ht => hsub (h t ht)

theorem cons (h : e.Blames rest) (t : Token) : e.Blames (t :: rest) :=
  h.mono (List.subset_cons_self t rest)

theorem of_drop (h : e.Blames (ts.drop n)) : e.Blames ts := h.mono (List.drop_subset n ts)

/-- Either of two stretches. -/
theorem ite {a b : Extent} {p : Prop} [Decidable p] (ha : p → a.Blames ts)
    (hb : ¬ p → b.Blames ts) :
    (if p then a else b).Blames ts := by
  split
  · exact ha ‹_›
  · exact hb ‹_›

/-- Of two stretches, the one that is not closed is to blame. -/
theorem andThen {E : List Token → Extent} (h : e.Blames ts)
    (hE : (E (ts.drop e.width)).Blames (ts.drop e.width)) : (e.andThen E ts).Blames ts :=
  .ite (fun _ => h) (fun _ => hE.of_drop)

end Blames

/-! ## Brackets and angles -/

/-- A group blames its opening bracket. -/
theorem blames_group (t : Token) (rest : List Token) : (group t rest).Blames (t :: rest) := by
  unfold group
  split
  · exact .closed _ _
  · exact .of_mem List.mem_cons_self

theorem blames_bracketed? (ts : List Token) : (bracketed? ts).Blames ts := by
  cases ts with
  | nil => exact .closed _ _
  | cons t rest => exact .ite (fun _ => blames_group t rest) (fun _ => .closed _ _)

theorem blames_parens? (ts : List Token) : (parens? ts).Blames ts := by
  cases ts with
  | nil => exact .closed _ _
  | cons t rest => exact .ite (fun _ => blames_group t rest) (fun _ => .closed _ _)

theorem blames_arraySuffix (ts : List Token) : (arraySuffix ts).Blames ts := by
  fun_induction arraySuffix ts with
  | case2 t rest _ n _ ih => exact ih.of_drop.cons t
  | case3 t rest _ _ => exact .of_mem List.mem_cons_self
  | _ => exact .closed _ _

/-- The less sign that the search starts with counts as one of the tokens. -/
theorem blames_angle (start : Token) (depth : Nat) (ts : List Token) :
    (angle start depth ts).Blames (start :: ts) := by
  have hbehind : ∀ {e : Extent} {t : Token} {rest us : List Token}, us ⊆ rest →
      e.Blames (start :: us) → e.Blames (start :: t :: rest) := fun hsub h =>
    h.mono (List.cons_subset_cons start (List.subset_cons_of_subset _ hsub))
  fun_induction angle start depth ts with
  | case1 | case8 => exact .of_mem List.mem_cons_self
  | case4 => exact .closed _ _
  | case6 depth t rest _ _ _ _ n _ ih => exact hbehind (List.drop_subset n rest) ih
  | case7 => exact .of_mem (List.mem_cons_of_mem _ List.mem_cons_self)
  | _ =>
    rename_i ih
    exact hbehind (List.Subset.refl _) ih

theorem blames_angle? (ts : List Token) : (angle? ts).Blames ts := by
  cases ts with
  | nil => exact .closed _ _
  | cons t rest => exact .ite (fun _ => blames_angle t 1 rest) (fun _ => .closed _ _)

/-! ## Decorators -/

theorem blames_decorator (ts : List Token) : (decorator ts).Blames ts := by
  cases ts with
  | nil => exact .closed _ _
  | cons t rest =>
    exact .ite (fun _ => blames_group t rest)
      (fun _ => ((blames_angle? _).andThen (blames_parens? _)).of_drop)

theorem blames_decorators (ts : List Token) : (decorators ts).Blames ts := by
  fun_induction decorators ts with
  | case2 t rest _ one _ => exact (blames_decorator rest).cons t
  | case3 t rest _ one _ ih => exact ih.of_drop.cons t
  | _ => exact .closed _ _

/-! ## Expressions, statements and clauses -/

/-- An expression blames one of its brackets. -/
theorem blames_expr (previous? : Option Token) (ts : List Token) :
    (expr previous? ts).Blames ts := by
  fun_induction expr previous? ts with
  | case1 | case2 => exact .closed _ _
  | case4 => exact .of_mem List.mem_cons_self
  | case5 previous? t rest _ _ _ params _ => exact blames_angle t 1 rest
  | case3 previous? t rest _ _ n _ ih | case7 previous? t rest _ _ _ _ n _ ih =>
    exact ih.of_drop.cons t
  | case6 previous? t rest _ _ _ params _ ih => exact ih.of_drop.cons t
  | case8 previous? t rest _ _ _ _ _ ih | case9 previous? t rest _ _ _ _ ih => exact ih.cons t

/-- A statement blames one of its brackets. -/
theorem blames_statement (previous? : Option Token) (ts : List Token) :
    (statement previous? ts).Blames ts := by
  fun_induction statement previous? ts with
  | case4 previous? t rest _ _ _ n _ ih => exact ih.of_drop.cons t
  | case5 => exact .of_mem List.mem_cons_self
  | case6 previous? t rest _ _ _ ih => exact ih.cons t
  | _ => exact .closed _ _

theorem blames_semicolon? (ts : List Token) : (semicolon? ts).Blames ts := by
  cases ts with
  | nil => exact .closed _ _
  | cons t rest => exact .ite (fun _ => .closed _ _) (fun _ => .closed _ _)

theorem blames_attributes? (ts : List Token) : (attributes? ts).Blames ts := by
  match ts with
  | [] | [_] => exact .closed _ _
  | a :: b :: rest => exact .ite (fun _ => (blames_group b rest).cons a) (fun _ => .closed _ _)

/-- A clause blames one of its brackets. -/
theorem blames_clause (taken : Nat) (previous? : Option Token) (ts : List Token) :
    (clause taken previous? ts).Blames ts := by
  fun_induction clause taken previous? ts with
  | case5 taken previous? t rest =>
    exact ((blames_attributes? rest).andThen (blames_semicolon? _)).cons t
  | case6 taken previous? t rest =>
    exact .ite (fun _ => blames_group t rest) (fun _ => (blames_semicolon? _).of_drop.cons t)
  | case7 taken previous? t rest _ _ _ _ _ _ n _ ih => exact ih.of_drop.cons t
  | case8 => exact .of_mem List.mem_cons_self
  | case9 taken previous? t rest _ _ _ _ _ _ ih => exact ih.cons t
  | _ => exact .closed _ _

/-- The heritage of a class blames one of its angles or brackets. -/
theorem blames_heritage (ts : List Token) : (heritage ts).Blames ts := by
  fun_induction heritage ts with
  | case3 t rest _ _ args _ => exact blames_angle t 1 rest
  | case4 t rest _ _ args _ ih => exact ih.of_drop.cons t
  | case5 t rest _ _ _ n _ ih => exact ih.of_drop.cons t
  | case6 => exact .of_mem List.mem_cons_self
  | case7 t rest _ _ _ ih => exact ih.cons t
  | _ => exact .closed _ _

end Extent

end SignatureLedger
