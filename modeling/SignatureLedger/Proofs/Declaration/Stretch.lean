import SignatureLedger.Proofs.Declaration.Nested

/-!
# Stretches of tokens

What is true of every stretch that the parser skips, whatever kind it is: one stretch behind another
(`andThen_of_closed`), where a group ends (`groupEnd?_eq_some`), and that a stretch which is closed
has a token that closes it (`angle_pos`).
-/

namespace SignatureLedger

/-- A token in front does not change the last one. -/
theorem getLast?_cons_of_getLast? {u : List Token} {l : Token} (t : Token)
    (h : u.getLast? = some l) : (t :: u).getLast? = some l := by
  rw [List.getLast?_cons, h, Option.getD_some]

/-! ## One stretch behind another -/

/-- Behind a stretch in which all is closed comes the next one. -/
theorem andThen_of_closed {e : Extent} (h : e.unclosed? = none) (E : List Token → Extent)
    (w : List Token) : e.andThen E w = (E (w.drop e.width)).shift e.width := by
  rw [Extent.andThen, h]
  rfl

/-- If all is closed in both stretches, it is so in each of them. -/
theorem closed_of_andThen {e : Extent} {E : List Token → Extent} {w : List Token}
    (h : (e.andThen E w).unclosed? = none) :
    e.unclosed? = none ∧ (E (w.drop e.width)).unclosed? = none := by
  cases he : e.unclosed? with
  | none =>
    rw [andThen_of_closed he] at h
    exact ⟨rfl, h⟩
  | some t =>
    rw [Extent.andThen, he] at h
    exact absurd h (by simp [he])

/-- A token in front of two stretches is one in front of the first of them. -/
theorem shift_andThen (t : Token) (e : Extent) (E : List Token → Extent) (rest : List Token) :
    (e.andThen E rest).shift 1 = (e.shift 1).andThen E (t :: rest) := by
  unfold Extent.andThen Extent.shift
  dsimp only
  split
  · rfl
  · rw [Nat.add_assoc, Nat.add_comm 1 e.width, List.drop_succ_cons]

/-! ## Groups -/

/-- A group ends with the closing bracket that is found, whatever comes behind it. -/
theorem groupEnd?_eq_some {w : List Token} {n k : Nat} (h : groupEnd? n w = some k) :
    ∃ u c v, w = u ++ c :: v ∧ c.kind.isCloser = true ∧ k = u.length + 1
      ∧ ∀ v', groupEnd? n (u ++ c :: v') = some k := by
  induction w generalizing n k with
  | nil => simp [groupEnd?] at h
  | cons t ts ih =>
    -- the token is taken, and the search goes on with `m` brackets open
    have hstep : ∀ m, (∀ us, groupEnd? n (t :: us) = (groupEnd? m us).map (· + 1)) →
        ∃ u c v, t :: ts = u ++ c :: v ∧ c.kind.isCloser = true ∧ k = u.length + 1
          ∧ ∀ v', groupEnd? n (u ++ c :: v') = some k := by
      intro m hm
      rw [hm, Option.map_eq_some_iff] at h
      obtain ⟨j, hj, rfl⟩ := h
      obtain ⟨u, c, v, rfl, hc, rfl, hv⟩ := ih hj
      refine ⟨t :: u, c, v, rfl, hc, rfl, fun v' => ?_⟩
      rw [List.cons_append, hm, hv, Option.map_some]
    by_cases ho : t.kind.isOpener = true
    · exact hstep (n + 1) (groupEnd?_opener ho n)
    · by_cases hc : t.kind.isCloser = true
      · cases n with
        | zero =>
          rw [groupEnd?_lastCloser hc] at h
          obtain rfl := Option.some.inj h
          exact ⟨[], t, ts, rfl, hc, rfl, groupEnd?_lastCloser hc⟩
        | succ n => exact hstep n (groupEnd?_closer hc n)
      · rw [Bool.not_eq_true] at ho hc
        exact hstep n (groupEnd?_other ho hc n)

/-- A group that ends has a token that ends it. -/
theorem groupEnd?_pos {ts : List Token} {n k : Nat} (h : groupEnd? k ts = some n) : 0 < n := by
  obtain ⟨u, c, v, -, -, rfl, -⟩ := groupEnd?_eq_some h
  exact Nat.succ_pos _

/-- The brackets that open a group are opening brackets. -/
theorem isOpener_of_isPunct {t : Token} {k : Punct} (h : t.isPunct k = true)
    (hk : k.isOpener = true) :
    t.kind.isOpener = true := by
  simp only [Token.isPunct, beq_iff_eq] at h
  rw [h]
  exact hk

/-- A group in brackets, if one stands at the front. -/
def Extent.bracketed? : List Token → Extent
  | [] => ⟨0, none⟩
  | t :: rest => if t.kind.isOpener then (group t rest).shift 1 else ⟨0, none⟩

/-- Taking a group is taking the stretch that it is. -/
theorem Parser.takeGroup_eq (p : Parser) : p.takeGroup = p.take (Extent.bracketed? p.ahead) := by
  unfold takeGroup
  cases p.ahead with
  | nil => rfl
  | cons t rest =>
    dsimp only [Extent.bracketed?]
    split <;> rfl

/-! ## Type parameters and arguments -/

/-- A list of type parameters or arguments that is closed has the greater sign that closes it. -/
theorem angle_pos {start : Token} {depth : Nat} {ts : List Token}
    (h : (Extent.angle start depth ts).unclosed? = none) :
    0 < (Extent.angle start depth ts).width := by
  fun_induction Extent.angle start depth ts with
  | case1 | case7 | case8 => exact absurd h (by simp)
  | case4 => exact Nat.one_pos
  | case6 => exact Nat.lt_add_right _ (Nat.lt_add_right _ Nat.one_pos)
  | _ => exact Nat.lt_add_right _ Nat.one_pos

end SignatureLedger
