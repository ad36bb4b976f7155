import SignatureLedger.Proofs.Config.Written

/-!
# Integers are read exactly

The reader of an integer is a fold: each byte of the row of digits is one step on the accumulator
(`digitStep`), and a step that would carry it beyond the largest number is not made. So at every
place of every row, also of one that is refused further on, the accumulator is the number that the
digits up to there stand for (`toNat_of_foldlM_digitStep`), and a text is read exactly if it is the
numeral of a number in range (`integer?_exact`).
-/

namespace SignatureLedger.Config

open Byte

/-! ## Numerals -/

/-- Groups of digits with an underscore between neighbours: every part between underscores is a
digit or more. -/
def IsGrouped (s : Bytes) : Prop :=
  ∀ g ∈ s.splitOn underscore, g ≠ [] ∧ ∀ b ∈ g, isDigit b = true

instance (s : Bytes) : Decidable (IsGrouped s) :=
  decidable_of_iff ((s.splitOn underscore).all fun g => !g.isEmpty && g.all isDigit)
    (by simp [IsGrouped])

/-- The number that the digits stand for, without the underscores. -/
def groupedValue (s : Bytes) : Nat := Bytes.digitsValue (s.filter (· != underscore))

/-- The texts of an integer: groups of digits with an optional sign in front. -/
inductive Numeral : Bytes → Int → Prop
  | unsigned {s : Bytes} (h : IsGrouped s) : Numeral s (groupedValue s)
  | plus {s : Bytes} (h : IsGrouped s) : Numeral (plus :: s) (groupedValue s)
  | minus {s : Bytes} (h : IsGrouped s) : Numeral (minus :: s) (-groupedValue s)

/-- The text goes on as groups of digits do, behind a digit or at another place. -/
def GroupedFrom : Bool → Bytes → Prop
  | afterDigit, [] => afterDigit = true
  | afterDigit, b :: s =>
    if b = underscore then afterDigit = true ∧ GroupedFrom false s
    else isDigit b = true ∧ GroupedFrom true s

/-- Behind a digit the first part may be empty: it is the rest of a group. -/
theorem groupedFrom_iff {afterDigit : Bool} {s g : Bytes} {gs : List Bytes}
    (h : s.splitOn underscore = g :: gs) :
    GroupedFrom afterDigit s ↔ (afterDigit = true ∨ g ≠ []) ∧ (∀ b ∈ g, isDigit b = true) ∧
      ∀ g' ∈ gs, g' ≠ [] ∧ ∀ b ∈ g', isDigit b = true := by
  induction s generalizing afterDigit g gs with
  | nil =>
    obtain ⟨rfl, rfl⟩ := List.cons.inj h
    simp [GroupedFrom]
  | cons b s ih =>
    obtain ⟨g', gs', hs⟩ := List.exists_cons_of_ne_nil (Bytes.splitOn_ne_nil underscore s)
    by_cases hb : b = underscore
    · rw [hb, Bytes.splitOn_cons_self, hs] at h
      obtain ⟨rfl, rfl⟩ := List.cons.inj h
      rw [GroupedFrom, if_pos hb, ih hs, List.forall_mem_cons]
      simp [and_assoc]
    · rw [Bytes.splitOn_cons_of_ne hb hs] at h
      obtain ⟨rfl, rfl⟩ := List.cons.inj h
      rw [GroupedFrom, if_neg hb, ih hs, List.forall_mem_cons]
      simp [and_assoc]

/-- Groups that start with a digit are the groups between underscores. -/
theorem groupedFrom_false_iff {s : Bytes} : GroupedFrom false s ↔ IsGrouped s := by
  obtain ⟨g, gs, hs⟩ := List.exists_cons_of_ne_nil (Bytes.splitOn_ne_nil underscore s)
  rw [groupedFrom_iff hs, IsGrouped, hs, List.forall_mem_cons]
  simp [and_assoc]

/-! ## Steps -/

/-- One step of the reader: from the accumulator, and whether a digit was read last, over one byte.
-/
def digitStep (st : UInt64 × Bool) (b : UInt8) : Option (UInt64 × Bool) :=
  if b = underscore ∧ st.2 then some (st.1, false)
  else if !isDigit b then none
  else
    let d := (b - zero).toUInt64
    if (largest - d) / 10 < st.1 then none else some (10 * st.1 + d, true)

variable {v w : UInt64} {a d : Bool} {b : UInt8} {s t : Bytes}

/-- A digit in 64 bits is its value, at most nine. -/
theorem toNat_digit (hb : isDigit b = true) :
    (b - zero).toUInt64.toNat = digitValue b ∧ digitValue b ≤ 9 := by
  have hdigit : 0x30 ≤ b.toNat ∧ b.toNat ≤ 0x39 := by
    simpa [isDigit, UInt8.le_iff_toNat_le] using hb
  have hzero : zero ≤ b := UInt8.le_iff_toNat_le.mpr hdigit.1
  refine ⟨?_, Nat.sub_le_iff_le_add.mpr hdigit.2⟩
  rw [UInt8.toNat_toUInt64, UInt8.toNat_sub_of_le _ _ hzero]
  rfl

/-- The test before a step lets through exactly the steps that stay in range, and none of those
wraps. -/
theorem digitStep_of_isDigit (hb : isDigit b = true) :
    digitStep (v, a) b = some (w, d) ↔
      d = true ∧ w.toNat = 10 * v.toNat + digitValue b ∧ w.toNat ≤ 2 ^ 63 - 1 := by
  obtain ⟨hd, hnine⟩ := toNat_digit hb
  have hunderscore : b ≠ underscore := by
    rintro rfl
    exact absurd hb (by decide)
  have hdle : (b - zero).toUInt64 ≤ largest := by
    rw [UInt64.le_iff_toNat_le, hd]
    exact hnine.trans (by decide)
  have hlargest : largest.toNat = 2 ^ 63 - 1 := rfl
  have hfits : (largest - (b - zero).toUInt64) / 10 < v ↔
      ¬ 10 * v.toNat + digitValue b ≤ 2 ^ 63 - 1 := by
    simp only [UInt64.lt_iff_toNat_lt, UInt64.toNat_div, UInt64.toNat_sub_of_le _ _ hdle, hd,
      UInt64.reduceToNat]
    omega
  rw [digitStep, if_neg (fun h => hunderscore h.1), hb]
  dsimp only
  rw [if_neg (by simp)]
  by_cases hle : 10 * v.toNat + digitValue b ≤ 2 ^ 63 - 1
  · have hv : (10 * v + (b - zero).toUInt64).toNat = 10 * v.toNat + digitValue b := by
      simp only [UInt64.toNat_add, UInt64.toNat_mul, hd, UInt64.reduceToNat]
      omega
    rw [if_neg (mt hfits.mp (not_not_intro hle)), Option.some_inj, Prod.mk.injEq,
      ← UInt64.toNat_inj, hv]
    constructor
    · rintro ⟨hw, rfl⟩
      exact ⟨rfl, hw.symm, hw ▸ hle⟩
    · rintro ⟨rfl, hw, -⟩
      exact ⟨hw.symm, rfl⟩
  · rw [if_pos (hfits.mpr hle)]
    simp only [reduceCtorEq, false_iff]
    rintro ⟨-, hw, hwle⟩
    exact hle (hw ▸ hwle)

/-- What one step does. -/
theorem digitStep_eq_some_iff : digitStep (v, a) b = some (w, d) ↔
    (b = underscore ∧ a = true ∧ w = v ∧ d = false) ∨ (isDigit b = true ∧ d = true ∧
      w.toNat = 10 * v.toNat + digitValue b ∧ w.toNat ≤ 2 ^ 63 - 1) := by
  by_cases hb : isDigit b = true
  · have hunderscore : b ≠ underscore := by
      rintro rfl
      exact absurd hb (by decide)
    rw [digitStep_of_isDigit hb]
    simp [hb, hunderscore]
  · rw [digitStep]
    by_cases hskip : b = underscore ∧ a = true
    · rw [if_pos hskip, Option.some_inj, Prod.mk.injEq]
      constructor
      · rintro ⟨rfl, rfl⟩
        exact .inl ⟨hskip.1, hskip.2, rfl, rfl⟩
      · rintro (⟨-, -, rfl, rfl⟩ | ⟨hdigit, -⟩)
        · exact ⟨rfl, rfl⟩
        · exact absurd hdigit hb
    · rw [if_neg hskip, if_pos (by simpa using hb)]
      simp only [reduceCtorEq, hb, false_iff]
      tauto

/-! ## Rows -/

/-- A number up to the greatest positive one survives in 64 bits. -/
theorem toNat_ofNat {n : Nat} (hn : n ≤ 2 ^ 63 - 1) : (UInt64.ofNat n).toNat = n :=
  UInt64.toNat_ofNat_of_lt' (show n < 2 ^ 64 by omega)

/-- The reader is the fold of its step, and the row has to end behind a digit. -/
theorem magnitudeFrom_eq (v : UInt64) (a : Bool) (s : Bytes) :
    magnitudeFrom v a s =
      (s.foldlM digitStep (v, a)).bind fun st => if st.2 then some st.1 else none := by
  induction s generalizing v a with
  | nil => rfl
  | cons b s ih =>
    rw [magnitudeFrom, List.foldlM_cons, digitStep]
    dsimp only
    split_ifs with hskip hdigit hlarge
    · exact ih v false
    · rfl
    · rfl
    · exact ih _ true

/-- What comes behind `t` is read from where `t` has led to. -/
theorem magnitudeFrom_append (v : UInt64) (a : Bool) (t s : Bytes) :
    magnitudeFrom v a (t ++ s) =
      (t.foldlM digitStep (v, a)).bind fun st => magnitudeFrom st.1 st.2 s := by
  rw [magnitudeFrom_eq, List.foldlM_append]
  cases t.foldlM digitStep (v, a) with
  | none => rfl
  | some st => exact (magnitudeFrom_eq st.1 st.2 s).symm

/-- A byte other than the underscore counts as the next digit. -/
theorem valueFrom_filter_cons (n : Nat) (hb : b ≠ underscore) :
    valueFrom n ((b :: s).filter (· != underscore)) =
      valueFrom (10 * n + digitValue b) (s.filter (· != underscore)) := by
  rw [List.filter_cons, if_pos (bne_iff_ne.mpr hb), valueFrom, List.foldl_cons]

/-- An underscore does not count. -/
theorem valueFrom_filter_underscore (n : Nat) :
    valueFrom n ((underscore :: s).filter (· != underscore)) =
      valueFrom n (s.filter (· != underscore)) := by
  rw [List.filter_cons_of_neg (by simp)]

/-- **The accumulator never wraps.** Wherever the reader has come to, its accumulator is the number
that the digits behind it stand for. -/
theorem toNat_of_foldlM_digitStep (hv : v.toNat ≤ 2 ^ 63 - 1)
    (h : s.foldlM digitStep (v, a) = some (w, d)) :
    w.toNat = valueFrom v.toNat (s.filter (· != underscore)) ∧ w.toNat ≤ 2 ^ 63 - 1 := by
  induction s generalizing v a with
  | nil =>
    obtain ⟨rfl, -⟩ := Prod.mk.inj (Option.some.inj h)
    exact ⟨rfl, hv⟩
  | cons b s ih =>
    rw [List.foldlM_cons, Option.bind_eq_bind, Option.bind_eq_some_iff] at h
    obtain ⟨⟨u, c⟩, hstep, h⟩ := h
    rcases digitStep_eq_some_iff.mp hstep with ⟨rfl, -, rfl, -⟩ | ⟨hb, -, hu, hle⟩
    · rw [valueFrom_filter_underscore]
      exact ih hv h
    · have hne : b ≠ underscore := by
        rintro rfl
        exact absurd hb (by decide)
      rw [valueFrom_filter_cons _ hne, ← hu]
      exact ih hle h

/-- Grouped digits of a number in range are read to their end, and nothing else is. -/
theorem foldlM_digitStep_eq_some_iff (hv : v.toNat ≤ 2 ^ 63 - 1) :
    s.foldlM digitStep (v, a) = some (w, true) ↔
      GroupedFrom a s ∧ w.toNat = valueFrom v.toNat (s.filter (· != underscore)) ∧
        w.toNat ≤ 2 ^ 63 - 1 := by
  induction s generalizing v a with
  | nil =>
    show some (v, a) = some (w, true) ↔ a = true ∧ w.toNat = v.toNat ∧ w.toNat ≤ 2 ^ 63 - 1
    rw [Option.some_inj, Prod.mk.injEq, ← UInt64.toNat_inj]
    constructor
    · rintro ⟨heq, ha⟩
      exact ⟨ha, heq.symm, heq ▸ hv⟩
    · rintro ⟨ha, heq, -⟩
      exact ⟨heq.symm, ha⟩
  | cons b s ih =>
    rw [List.foldlM_cons, Option.bind_eq_bind, Option.bind_eq_some_iff, GroupedFrom]
    by_cases hb : b = underscore
    · subst hb
      rw [if_pos rfl, valueFrom_filter_underscore]
      constructor
      · rintro ⟨⟨u, c⟩, hstep, h⟩
        rcases digitStep_eq_some_iff.mp hstep with ⟨-, ha, rfl, rfl⟩ | ⟨hdigit, -⟩
        · obtain ⟨hs, hw⟩ := (ih hv).mp h
          exact ⟨⟨ha, hs⟩, hw⟩
        · exact absurd hdigit (by decide)
      · rintro ⟨⟨ha, hs⟩, hw⟩
        exact ⟨(v, false), digitStep_eq_some_iff.mpr (.inl ⟨rfl, ha, rfl, rfl⟩),
          (ih hv).mpr ⟨hs, hw⟩⟩
    · rw [if_neg hb, valueFrom_filter_cons _ hb]
      constructor
      · rintro ⟨⟨u, c⟩, hstep, h⟩
        rcases digitStep_eq_some_iff.mp hstep with ⟨hunderscore, -⟩ | ⟨hdigit, rfl, hu, hle⟩
        · exact absurd hunderscore hb
        · obtain ⟨hs, hw⟩ := (ih hle).mp h
          exact ⟨⟨hdigit, hs⟩, hu ▸ hw⟩
      · rintro ⟨⟨hdigit, hs⟩, hw, hle⟩
        -- the number only grows, so that this step is in range as well
        have hnext : 10 * v.toNat + digitValue b ≤ 2 ^ 63 - 1 :=
          (le_valueFrom _ _).trans (hw ▸ hle)
        have hofNat : (UInt64.ofNat (10 * v.toNat + digitValue b)).toNat =
            10 * v.toNat + digitValue b := toNat_ofNat (by omega)
        have hstep : digitStep (v, a) b =
            some (UInt64.ofNat (10 * v.toNat + digitValue b), true) :=
          digitStep_eq_some_iff.mpr (.inr ⟨hdigit, rfl, hofNat, hofNat.trans_le hnext⟩)
        exact ⟨_, hstep, (ih (hofNat.trans_le hnext)).mpr ⟨hs, hofNat.symm ▸ hw, hle⟩⟩

/-- A row is read exactly if it is grouped and its number is in range. -/
theorem magnitudeFrom_eq_some_iff : magnitudeFrom 0 false s = some w ↔
    IsGrouped s ∧ w.toNat = groupedValue s ∧ groupedValue s ≤ 2 ^ 63 - 1 := by
  have hrow : magnitudeFrom 0 false s = some w ↔
      s.foldlM digitStep (0, false) = some (w, true) := by
    rw [magnitudeFrom_eq, Option.bind_eq_some_iff]
    simp
  rw [hrow, foldlM_digitStep_eq_some_iff (by decide), groupedFrom_false_iff]
  refine and_congr_right fun _ => ?_
  show w.toNat = groupedValue s ∧ w.toNat ≤ 2 ^ 63 - 1 ↔ _
  exact and_congr_right fun hw => hw ▸ Iff.rfl

/-! ## Signs -/

/-- The text behind its sign, if it has one. -/
def unsignedPart : Bytes → Bytes
  | [] => []
  | b :: s => if b = minus ∨ b = plus then s else b :: s

/-- A row of digits with the sign that the text has. -/
theorem integer?_eq (x : Bytes) :
    integer? x = (magnitudeFrom 0 false (unsignedPart x)).map fun v =>
      if x.head? = some minus then -v.toInt64 else v.toInt64 := by
  cases x with
  | nil => rfl
  | cons b s =>
    rw [integer?, unsignedPart, List.head?_cons]
    by_cases hm : b = minus
    · simp [hm]
    · by_cases hp : b = plus
      · simp [hp, show plus ≠ minus by decide]
      · simp [hm, hp]

/-- Up to the greatest positive number the sign bit stays clear. -/
theorem toInt_toInt64 (h : v.toNat ≤ 2 ^ 63 - 1) : v.toInt64.toInt = v.toNat := by
  rw [← Int64.toInt_toBitVec, UInt64.toBitVec_toInt64, BitVec.toInt_eq_toNat_of_lt]
  · rfl
  · rw [UInt64.toNat_toBitVec]
    omega

/-- The negation of such a number is exact. -/
theorem toInt_neg_toInt64 (h : v.toNat ≤ 2 ^ 63 - 1) : (-v.toInt64).toInt = -v.toNat := by
  rw [Int64.toInt_neg, toInt_toInt64 h, Int.bmod_eq_of_le]
  · omega
  · omega

/-- The number of a text: that of its digits, with its sign. -/
def signedValue (x : Bytes) : Int :=
  if x.head? = some minus then -groupedValue (unsignedPart x) else groupedValue (unsignedPart x)

/-- A numeral is a sign with groups of digits, and names the number of its digits and its sign. -/
theorem numeral_iff {x : Bytes} {n : Int} :
    Numeral x n ↔ IsGrouped (unsignedPart x) ∧ n = signedValue x := by
  constructor
  · intro h
    cases h with
    | @unsigned s h =>
      -- a sign is no digit, so grouped digits have none
      have hself : unsignedPart x = x ∧ x.head? ≠ some minus := by
        cases x with
        | nil => exact ⟨rfl, by simp⟩
        | cons b s =>
          obtain ⟨g, gs, hs⟩ := List.exists_cons_of_ne_nil (Bytes.splitOn_ne_nil underscore s)
          have hb : b ≠ minus ∧ b ≠ plus := by
            rw [← groupedFrom_false_iff, GroupedFrom] at h
            constructor
            all_goals
              rintro rfl
              rw [if_neg (by decide)] at h
              exact absurd h.1 (by decide)
          exact ⟨by rw [unsignedPart, if_neg (by tauto)], by simpa using hb.1⟩
      rw [signedValue, if_neg hself.2, hself.1]
      exact ⟨h, rfl⟩
    | @plus s h => exact ⟨h, rfl⟩
    | @minus s h => exact ⟨h, rfl⟩
  · rintro ⟨h, rfl⟩
    cases x with
    | nil => exact .unsigned h
    | cons b s =>
      by_cases hm : b = Byte.minus
      · subst hm
        exact .minus h
      · by_cases hp : b = Byte.plus
        · subst hp
          exact .plus h
        · rw [unsignedPart, if_neg (by tauto)] at h
          rw [signedValue, if_neg (by simpa using hm), unsignedPart, if_neg (by tauto)]
          exact .unsigned h

/-- The sign does not change how far a number is from zero. -/
theorem natAbs_signedValue (x : Bytes) :
    (signedValue x).natAbs = groupedValue (unsignedPart x) := by
  rw [signedValue]
  split <;> omega

/-- An accumulator in range becomes the signed number. -/
theorem toInt_signed {x : Bytes} {v : UInt64} (hv : v.toNat = groupedValue (unsignedPart x))
    (hle : v.toNat ≤ 2 ^ 63 - 1) :
    (if x.head? = some minus then -v.toInt64 else v.toInt64).toInt = signedValue x := by
  rw [signedValue, ← hv]
  split
  · exact toInt_neg_toInt64 hle
  · exact toInt_toInt64 hle

/-- A text is read as an integer exactly if it is a numeral of that integer in range. -/
theorem integer?_eq_some_iff {x : Bytes} {n : Int64} :
    integer? x = some n ↔ Numeral x n.toInt ∧ n.toInt.natAbs ≤ 2 ^ 63 - 1 := by
  rw [integer?_eq, Option.map_eq_some_iff, numeral_iff]
  constructor
  · rintro ⟨v, hv, rfl⟩
    obtain ⟨hs, hnat, hle⟩ := magnitudeFrom_eq_some_iff.mp hv
    rw [toInt_signed hnat (hnat.trans_le hle), natAbs_signedValue]
    exact ⟨⟨hs, rfl⟩, hle⟩
  · rintro ⟨⟨hs, hn⟩, hle⟩
    rw [hn, natAbs_signedValue] at hle
    have hnat : (UInt64.ofNat (groupedValue (unsignedPart x))).toNat =
        groupedValue (unsignedPart x) := toNat_ofNat (by omega)
    refine ⟨_, magnitudeFrom_eq_some_iff.mpr ⟨hs, hnat, hle⟩, Int64.toInt_inj.mp ?_⟩
    rw [toInt_signed hnat (hnat.trans_le hle), hn]

/-- **Integers are read exactly.** A text is read as an integer exactly if it is a numeral of that
integer and the integer is in range, that is, its digits stand for at most `2 ^ 63 - 1`. And no
accumulator of the reader ever wraps: at each place of the digits of any text the reader has either
refused the text, or it goes on from an accumulator that is the number of the digits before that
place. -/
theorem integer?_exact (x : Bytes) :
    (∀ n : Int64, integer? x = some n ↔ Numeral x n.toInt ∧ n.toInt.natAbs ≤ 2 ^ 63 - 1) ∧
    ((integer? x).isSome = true ↔ ∃ n, Numeral x n ∧ n.natAbs ≤ 2 ^ 63 - 1) ∧
    ∀ t s, unsignedPart x = t ++ s →
      match t.foldlM digitStep (0, false) with
      | none => integer? x = none
      | some (v, afterDigit) =>
        magnitudeFrom 0 false (unsignedPart x) = magnitudeFrom v afterDigit s ∧
          v.toNat = groupedValue t ∧ v.toNat ≤ 2 ^ 63 - 1 := by
  refine ⟨fun n => integer?_eq_some_iff, ?_, fun t s hx => ?_⟩
  · rw [Option.isSome_iff_exists]
    constructor
    · rintro ⟨n, hn⟩
      exact ⟨_, integer?_eq_some_iff.mp hn⟩
    · rintro ⟨n, hn, hle⟩
      have hofInt : (Int64.ofInt n).toInt = n := Int64.toInt_ofInt_of_le (by omega) (by omega)
      exact ⟨Int64.ofInt n, integer?_eq_some_iff.mpr (hofInt.symm ▸ ⟨hn, hle⟩)⟩
  · have happend := magnitudeFrom_append 0 false t s
    cases ht : t.foldlM digitStep (0, false) with
    | none =>
      rw [ht, ← hx] at happend
      rw [integer?_eq, happend]
      rfl
    | some st =>
      obtain ⟨v, afterDigit⟩ := st
      rw [ht, ← hx] at happend
      exact ⟨happend, toNat_of_foldlM_digitStep (by decide) ht⟩

/-- A numeral with a sign, an underscore and many digits is read exactly, also up to any of its
places. -/
theorem integer?_exact_sample :
    Numeral (bytes "-9_223372036854775807") (-0x7FFFFFFFFFFFFFFF) ∧
    unsignedPart (bytes "-9_223372036854775807") = bytes "9_22" ++ bytes "3372036854775807" ∧
    ∃ v d, (bytes "9_22").foldlM digitStep (0, false) = some (v, d) ∧
      magnitudeFrom v d (bytes "3372036854775807") = some largest ∧ v.toNat = 922 := by
  obtain ⟨hvalue, -, hplace⟩ := integer?_exact (bytes "-9_223372036854775807")
  have hparts : unsignedPart (bytes "-9_223372036854775807") =
      bytes "9_22" ++ bytes "3372036854775807" := by decide +kernel
  have hplace := hplace _ _ hparts
  have hread : (bytes "9_22").foldlM digitStep (0, false) = some (922, true) := by decide +kernel
  rw [hread] at hplace
  exact ⟨((hvalue (-0x7FFFFFFFFFFFFFFF)).mp (by decide +kernel)).1, hparts, 922, true,
    hread, hplace.1 ▸ by decide +kernel, rfl⟩

/-- The first number beyond the largest one is refused with its last digit; the other text is no
numeral. -/
example : IsGrouped (bytes "9223372036854775808") ∧ integer? (bytes "9223372036854775808") = none ∧
    ¬ IsGrouped (bytes "1__0") ∧ integer? (bytes "1__0") = none := by
  decide +kernel

end SignatureLedger.Config
