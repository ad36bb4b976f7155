import SignatureLedger.Proofs.Declaration.Stretch

/-!
# Places outside all brackets

A place in a list of tokens is outside all brackets when every opening bracket before it is closed
before it (`Outside`), any closing bracket closing any opening one as in the parser's own scan. What
a group takes lies behind a bracket that is still open (`not_outside_of_groupEnd?`), and a closing
bracket outside of all others ends the group around (`groupEnd?_isSome_of_outside`).
-/

namespace SignatureLedger

/-- Every opening bracket among the tokens is closed by one of them. -/
def Outside : List Token → Prop
  | [] => True
  | t :: ts => (t.kind.isOpener = true → (groupEnd? 0 ts).isSome = true) ∧ Outside ts

/-- Whether all brackets are closed can be computed. -/
instance decidableOutside : DecidablePred Outside
  | [] => isTrue trivial
  | t :: ts =>
    have := decidableOutside ts
    inferInstanceAs
      (Decidable ((t.kind.isOpener = true → (groupEnd? 0 ts).isSome = true) ∧ Outside ts))

variable {u v w y z : List Token} {t c o : Token} {n k : Nat}

/-- Behind a place outside all brackets the brackets of the rest are closed as well. -/
theorem Outside.of_append (h : Outside (u ++ v)) : Outside v := by
  induction u with
  | nil => exact h
  | cons t ts ih => exact ih h.2

/-! ## Ends of groups -/

/-- The end of a group does not depend on the tokens behind it. -/
theorem groupEnd?_append_of_eq_some (h : groupEnd? n u = some k) (v : List Token) :
    groupEnd? n (u ++ v) = some k := by
  obtain ⟨w, c, x, rfl, -, -, hv⟩ := groupEnd?_eq_some h
  rw [List.append_assoc, List.cons_append]
  exact hv (x ++ v)

/-- The end of a group is one of the tokens. -/
theorem le_length_of_groupEnd? (h : groupEnd? n u = some k) : k ≤ u.length := by
  obtain ⟨w, c, x, rfl, -, rfl, -⟩ := groupEnd?_eq_some h
  rw [List.length_append, List.length_cons]
  omega

/-- A place inside a group is not outside all brackets. -/
theorem not_outside_of_groupEnd? (ho : o.kind.isOpener = true) (h : groupEnd? 0 (y ++ z) = some n)
    (hn : y.length < n) : ¬ Outside (o :: y) := by
  intro hout
  obtain ⟨k, hk⟩ := Option.isSome_iff_exists.mp (hout.1 ho)
  have hle := le_length_of_groupEnd? hk
  rw [groupEnd?_append_of_eq_some hk] at h
  obtain rfl := Option.some.inj h
  omega

/-- **Groups in groups.** The search for the end of an outer group goes on where an inner one ends.
-/
theorem groupEnd?_outer (n m : Nat) (w : List Token) :
    groupEnd? (n + m + 1) w =
      (groupEnd? n w).bind fun k => (groupEnd? m (w.drop k)).map (k + ·) := by
  induction w generalizing n with
  | nil => rfl
  | cons t ts ih =>
    -- the token is one more in front of the search with `j` brackets open
    have hstep : ∀ j, ((groupEnd? (j + m + 1) ts).map (· + 1))
        = ((groupEnd? j ts).map (· + 1)).bind
            fun k => (groupEnd? m ((t :: ts).drop k)).map (k + ·) := by
      intro j
      rw [ih, Option.bind_map, Option.map_bind]
      congr 1
      funext k
      simp only [Function.comp, List.drop_succ_cons, Option.map_map]
      congr 1
      funext i
      simp only [Function.comp]
      omega
    by_cases ho : t.kind.isOpener = true
    · rw [groupEnd?_opener ho, groupEnd?_opener ho, ← hstep (n + 1)]
      congr 2
      omega
    by_cases hc : t.kind.isCloser = true
    · cases n with
      | zero =>
        rw [groupEnd?_lastCloser hc, Option.bind_some, Nat.zero_add, groupEnd?_closer hc]
        congr 1
        funext i
        exact Nat.add_comm i 1
      | succ n =>
        rw [Nat.add_right_comm n 1 m, groupEnd?_closer hc, groupEnd?_closer hc, ← hstep n]
    · rw [Bool.not_eq_true] at ho hc
      rw [groupEnd?_other ho hc, groupEnd?_other ho hc, ← hstep n]

/-- A closing bracket outside all other brackets ends the group around. By recursion on the tokens
before it, where a whole group is passed at once. -/
theorem groupEnd?_isSome_of_outside {v : List Token} (hv : Outside v) (hc : c.kind.isCloser = true)
    (w : List Token) : (groupEnd? 0 (v ++ c :: w)).isSome = true := by
  match v with
  | [] => rw [List.nil_append, groupEnd?_lastCloser hc]; rfl
  | t :: ts =>
    rw [List.cons_append]
    by_cases ho : t.kind.isOpener = true
    · -- behind the group that the token opens the search goes on
      obtain ⟨k, hk⟩ := Option.isSome_iff_exists.mp (hv.1 ho)
      have hle := le_length_of_groupEnd? hk
      have hlt : (ts.drop k).length < (t :: ts).length := by
        rw [List.length_drop, List.length_cons]
        omega
      have hdrop : Outside (ts.drop k) := by
        have := hv.2
        rw [← List.take_append_drop k ts] at this
        exact this.of_append
      have hrest := groupEnd?_isSome_of_outside hdrop hc w
      have houter := groupEnd?_outer 0 0 (ts ++ c :: w)
      rw [groupEnd?_append_of_eq_some hk, Option.bind_some,
        List.drop_append_of_le_length hle] at houter
      rw [groupEnd?_opener ho, houter]
      simpa using hrest
    by_cases hcloser : t.kind.isCloser = true
    · rw [groupEnd?_lastCloser hcloser]
      rfl
    · rw [groupEnd?_other (Bool.not_eq_true _ ▸ ho) (Bool.not_eq_true _ ▸ hcloser)]
      have hrest := groupEnd?_isSome_of_outside hv.2 hc w
      simpa using hrest
termination_by v.length

/-- The bracket that ends a group stands outside all brackets in the group. By induction on the
tokens of the group, with the number of brackets that are open. -/
theorem outside_of_groupEnd? {n : Nat} (h : groupEnd? n (y ++ z) = some (y.length + 1)) :
    Outside y := by
  induction y generalizing n with
  | nil => trivial
  | cons t ts ih =>
    rw [List.cons_append, List.length_cons] at h
    have hstep : ∀ j, (groupEnd? j (ts ++ z)).map (· + 1) = some (ts.length + 1 + 1) →
        groupEnd? j (ts ++ z) = some (ts.length + 1) := by
      intro j hj
      obtain ⟨k, hk, heq⟩ := Option.map_eq_some_iff.mp hj
      rw [hk]
      congr 1
      omega
    by_cases ho : t.kind.isOpener = true
    · rw [groupEnd?_opener ho] at h
      have houter := hstep _ h
      refine ⟨fun _ => ?_, ih houter⟩
      -- the group that the token opens ends before the one around does
      rw [show n + 1 = 0 + n + 1 by omega, groupEnd?_outer] at houter
      obtain ⟨k, hk, hrest⟩ := Option.bind_eq_some_iff.mp houter
      obtain ⟨i, hi, heq⟩ := Option.map_eq_some_iff.mp hrest
      obtain ⟨x, c, x', hx, -, rfl, hv⟩ := groupEnd?_eq_some hk
      have hpos : 0 < i := by
        obtain ⟨_, _, _, -, -, rfl, -⟩ := groupEnd?_eq_some hi
        omega
      have hts : ts = x ++ c :: (ts.drop (x.length + 1)) := by
        have htake := congrArg (List.take (x.length + 1)) hx
        rw [List.take_append_of_le_length (by omega), List.take_length_add_append] at htake
        rw [← List.take_append_drop (x.length + 1) ts, htake]
        simp
      rw [hts, hv]
      rfl
    · refine ⟨fun h => absurd h ho, ?_⟩
      by_cases hc : t.kind.isCloser = true
      · cases n with
        | zero =>
          rw [groupEnd?_lastCloser hc, Option.some.injEq] at h
          omega
        | succ n =>
          rw [groupEnd?_closer hc] at h
          exact ih (hstep _ h)
      · rw [groupEnd?_other (Bool.not_eq_true _ ▸ ho) (Bool.not_eq_true _ ▸ hc)] at h
        exact ih (hstep _ h)

/-! ## Brackets by their shapes -/

namespace Nesting

/-- How many brackets are open, whatever their shapes. -/
def total (n : Nesting) : Nat := n.parens + n.brackets + n.braces

/-- An opening bracket adds one to the brackets that are open. -/
theorem total_of_opener (n : Nesting) (h : t.kind.isOpener = true) :
    (n.step t).total = n.total + 1 := by
  unfold step total
  cases hkind : t.kind with
  | punct p =>
    rw [hkind] at h
    cases p <;> first | exact absurd h (by decide) | (dsimp only; omega)
  | _ => simp [hkind, TokenKind.isOpener] at h

/-- A closing bracket takes at most one from them. -/
theorem total_of_closer (n : Nesting) (h : t.kind.isCloser = true) :
    n.total ≤ (n.step t).total + 1 := by
  unfold step total
  cases hkind : t.kind with
  | punct p =>
    rw [hkind] at h
    cases p <;> first | exact absurd h (by decide) | (dsimp only; omega)
  | _ => simp [hkind, TokenKind.isCloser] at h

/-- Any other token leaves them. -/
theorem step_of_other (n : Nesting) (ho : t.kind.isOpener = false) (hc : t.kind.isCloser = false) :
    n.step t = n := by
  unfold step
  split <;> simp_all [TokenKind.isOpener, TokenKind.isCloser, Punct.isOpener, Punct.isCloser]

/-- Where no closing bracket ends the group around, some bracket is open by its shape. -/
theorem total_pos (h : groupEnd? k u = none) (n : Nesting) (hn : k < n.total) :
    0 < (u.foldl step n).total := by
  induction u generalizing k n with
  | nil => exact Nat.lt_of_le_of_lt (Nat.zero_le k) hn
  | cons t ts ih =>
    rw [List.foldl_cons]
    by_cases ho : t.kind.isOpener = true
    · rw [groupEnd?_opener ho, Option.map_eq_none_iff] at h
      exact ih h _ (by rw [total_of_opener n ho]; omega)
    by_cases hc : t.kind.isCloser = true
    · cases k with
      | zero =>
        rw [groupEnd?_lastCloser hc] at h
        exact absurd h (by simp)
      | succ k =>
        rw [groupEnd?_closer hc, Option.map_eq_none_iff] at h
        have := total_of_closer n hc
        exact ih h _ (by omega)
    · rw [Bool.not_eq_true] at ho hc
      rw [groupEnd?_other ho hc, Option.map_eq_none_iff] at h
      rw [step_of_other n ho hc]
      exact ih h n hn

end Nesting

/-- A place outside the brackets of each shape is outside all brackets, whichever bracket closes
which. -/
theorem outside_of_isFlat {n : Nesting} (h : (u.foldl Nesting.step n).isFlat = true) :
    Outside u := by
  induction u generalizing n with
  | nil => trivial
  | cons t ts ih =>
    rw [List.foldl_cons] at h
    refine ⟨fun ho => ?_, ih h⟩
    cases hg : groupEnd? 0 ts with
    | some k => rfl
    | none =>
      have hopen : 0 < (n.step t).total := by
        rw [n.total_of_opener ho]
        exact Nat.succ_pos _
      have hpos := Nesting.total_pos hg (n.step t) hopen
      simp only [Nesting.isFlat, Bool.and_eq_true, beq_iff_eq] at h
      simp [Nesting.total, h] at hpos

end SignatureLedger
