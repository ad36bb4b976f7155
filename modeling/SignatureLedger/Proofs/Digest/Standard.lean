import SignatureLedger.Sha256
import Mathlib.Data.Nat.Digits.Lemmas
import Mathlib.Data.Nat.NthRoot.Defs

/-!
# The secure hash standard

SHA-256 as FIPS 180-4 states it: the constants are taken from roots of primes, the schedule is a
recurrence over the words of a block, and a message is padded as a whole before its blocks are
folded. The compression function that runs is the one of the standard (`words_compress`).
-/

namespace SignatureLedger.Sha256

namespace Standard

/-! ## Functions and constants -/

/-- The words of the standard have 32 bits. -/
abbrev Word := BitVec 32

/-- The function `Ch`: each bit of `x` chooses between `y` and `z`. -/
def ch (x y z : Word) : Word := (x &&& y) ^^^ (~~~x &&& z)

/-- The function `Maj`: each bit is that of the majority. -/
def maj (x y z : Word) : Word := (x &&& y) ^^^ (x &&& z) ^^^ (y &&& z)

/-- The function `Σ₀` of the rounds. -/
def bigSigma0 (x : Word) : Word := x.rotateRight 2 ^^^ x.rotateRight 13 ^^^ x.rotateRight 22

/-- The function `Σ₁` of the rounds. -/
def bigSigma1 (x : Word) : Word := x.rotateRight 6 ^^^ x.rotateRight 11 ^^^ x.rotateRight 25

/-- The function `σ₀` of the message schedule. -/
def smallSigma0 (x : Word) : Word := x.rotateRight 7 ^^^ x.rotateRight 18 ^^^ x >>> 3

/-- The function `σ₁` of the message schedule. -/
def smallSigma1 (x : Word) : Word := x.rotateRight 17 ^^^ x.rotateRight 19 ^^^ x >>> 10

/-- The first 64 primes. -/
def primes : List Nat :=
  [2, 3, 5, 7, 11, 13, 17, 19, 23, 29, 31, 37, 41, 43, 47, 53, 59, 61, 67, 71, 73, 79, 83, 89, 97,
    101, 103, 107, 109, 113, 127, 131, 137, 139, 149, 151, 157, 163, 167, 173, 179, 181, 191, 193,
    197, 199, 211, 223, 227, 229, 233, 239, 241, 251, 257, 263, 269, 271, 277, 281, 283, 293, 307,
    311]

/-- The first 32 bits of the fractional part of the `k`-th root of `p`. -/
def rootBits (k p : Nat) : Word := BitVec.ofNat 32 (Nat.nthRoot k (p * 2 ^ (32 * k)))

/-- The constant of round `t`, from a cube root. -/
def constant (t : Nat) : Word := rootBits 3 (primes.getD t 0)

/-- A hash value, and the working variables of a round. -/
structure Hash where
  a : Word
  b : Word
  c : Word
  d : Word
  e : Word
  f : Word
  g : Word
  h : Word
deriving DecidableEq, Repr

/-- The initial hash value, from the square roots of the first eight primes. -/
def initial : Hash :=
  ⟨rootBits 2 2, rootBits 2 3, rootBits 2 5, rootBits 2 7,
    rootBits 2 11, rootBits 2 13, rootBits 2 17, rootBits 2 19⟩

/-! ## Padding and parsing -/

/-- There is always a number of zeros that fills up the last block. -/
theorem exists_zeros (n : Nat) : ∃ k, (n + 1 + k) % 64 = 56 := ⟨(119 - n % 64) % 64, by omega⟩

/-- The least number of zero bytes that leaves eight bytes of the last block. -/
def zeros (n : Nat) : Nat := Nat.find (exists_zeros n)

/-- A number in eight bytes, the highest first. -/
def lengthField (n : Nat) : Bytes := ((Nat.digits 256 n).reverse.map UInt8.ofNat).leftpad 8 0

/-- What is put behind a message of `n` bytes: a one bit, zeros, and the length in bits. -/
def padding (n : Nat) : Bytes := 0x80 :: List.replicate (zeros n) 0 ++ lengthField (8 * n)

/-- The blocks of 64 bytes. -/
def blocks (s : Bytes) : List Bytes :=
  (List.range (s.length / 64)).map fun i => (s.drop (64 * i)).take 64

/-- Word `t` of a block. -/
def blockWord (block : Bytes) (t : Nat) : Word :=
  let byte (i : Nat) : BitVec 8 := (block.getD (4 * t + i) 0).toBitVec
  byte 0 ++ byte 1 ++ byte 2 ++ byte 3

/-! ## The digest -/

/-- Word `t` of the message schedule. -/
def scheduleWord (block : Bytes) (t : Nat) : Word :=
  if t < 16 then blockWord block t
  else
    smallSigma1 (scheduleWord block (t - 2)) + scheduleWord block (t - 7)
      + smallSigma0 (scheduleWord block (t - 15)) + scheduleWord block (t - 16)
termination_by t

/-- Round `t` on the working variables. -/
def round (block : Bytes) (v : Hash) (t : Nat) : Hash :=
  let t₁ := v.h + bigSigma1 v.e + ch v.e v.f v.g + constant t + scheduleWord block t
  let t₂ := bigSigma0 v.a + maj v.a v.b v.c
  ⟨t₁ + t₂, v.a, v.b, v.c, v.d + t₁, v.e, v.f, v.g⟩

/-- The next hash value. -/
def compress (h : Hash) (block : Bytes) : Hash :=
  let v := (List.range 64).foldl (round block) h
  ⟨v.a + h.a, v.b + h.b, v.c + h.c, v.d + h.d, v.e + h.e, v.f + h.f, v.g + h.g, v.h + h.h⟩

/-- The hash value behind the full blocks of a text. -/
def fold (s : Bytes) : Hash := (blocks s).foldl compress initial

/-- The hash value of a message. -/
def digest (message : Bytes) : Hash := fold (message ++ padding message.length)

/-- A word as eight lower-case hexadecimal digits. -/
def hexWord (w : Word) : Bytes :=
  (List.range 8).map fun i => (bytes "0123456789abcdef").getD (w.toNat / 16 ^ (7 - i) % 16) 0

/-- The hash value of a message as 64 hexadecimal digits. -/
def hexDigest (message : Bytes) : Bytes :=
  let v := digest message
  [v.a, v.b, v.c, v.d, v.e, v.f, v.g, v.h].flatMap hexWord

/-! ## Lengths and blocks -/

/-- The number of zeros is the least that fills up the last block. -/
theorem zeros_eq {n k : Nat} (h : (n + 1 + k) % 64 = 56) (hlt : k < 64) : zeros n = k := by
  rw [zeros, Nat.find_eq_iff]
  refine ⟨h, fun j hj hmod => ?_⟩
  omega

/-- The bytes of the length field, one by one. They are the digits to the base 256, filled up to
eight with zeros, with the highest one first. -/
theorem lengthField_eq {n : Nat} (h : n < 2 ^ 64) :
    lengthField n = [7, 6, 5, 4, 3, 2, 1, 0].map fun i => UInt8.ofNat (n / 256 ^ i % 256) := by
  have hlen : (Nat.digits 256 n).length ≤ 8 := Nat.digits_length_le_iff (by omega) _ |>.mpr h
  have hpad : Nat.digits 256 n ++ List.replicate (8 - (Nat.digits 256 n).length) 0 =
      (List.range 8).map fun i => n / 256 ^ i % 256 := by
    apply List.ext_getElem
    · rw [List.length_append, List.length_replicate, List.length_map, List.length_range]
      omega
    · intro i hi hi'
      rw [List.getElem_map, List.getElem_range, ← Nat.getD_digits n i (by omega),
        List.getElem_append]
      split
      · rename_i hlt
        rw [List.getD_eq_getElem?_getD, List.getElem?_eq_getElem hlt, Option.getD_some]
      · rename_i hge
        rw [List.getElem_replicate, List.getD_eq_getElem?_getD,
          List.getElem?_eq_none (by omega), Option.getD_none]
  have hreverse : lengthField n =
      ((Nat.digits 256 n ++ List.replicate (8 - (Nat.digits 256 n).length) 0).map
        UInt8.ofNat).reverse := by
    simp [lengthField, List.leftpad]
  rw [hreverse, hpad, List.map_map]
  rfl

/-- Sixty-four bytes are one block. -/
theorem blocks_of_length {b : Bytes} (h : b.length = 64) : blocks b = [b] := by
  rw [blocks, h]
  show [(b.drop 0).take 64] = [b]
  rw [List.drop_zero, List.take_of_length_le (by omega)]

/-- Full blocks in front stay as they are. -/
theorem blocks_append {u : Bytes} (h : 64 ∣ u.length) (s : Bytes) :
    blocks (u ++ s) = blocks u ++ blocks s := by
  obtain ⟨k, hk⟩ := h
  have hlen : (u ++ s).length / 64 = k + s.length / 64 := by
    rw [List.length_append, hk]
    omega
  rw [blocks, blocks, blocks, hlen, hk, Nat.mul_div_cancel_left k (by omega), List.range_add,
    List.map_append, List.map_map]
  congr 1
  · refine List.map_congr_left fun i hi => ?_
    have hi : i < k := List.mem_range.mp hi
    rw [List.drop_append_of_le_length (by omega),
      List.take_append_of_le_length (by rw [List.length_drop]; omega)]
  · refine List.map_congr_left fun i _ => ?_
    show ((u ++ s).drop (64 * (k + i))).take 64 = _
    rw [Nat.mul_add, ← hk, ← List.drop_drop, List.drop_left]

/-- A block at the end is compressed last. -/
theorem fold_append {u block : Bytes} (hu : 64 ∣ u.length) (hblock : block.length = 64) :
    fold (u ++ block) = compress (fold u) block := by
  rw [fold, blocks_append hu, blocks_of_length hblock, List.foldl_concat]
  rfl

end Standard

/-! ## Words -/

/-- The value of a state as the standard has it. -/
def State.value (s : State) : Standard.Hash :=
  ⟨s.a.toBitVec, s.b.toBitVec, s.c.toBitVec, s.d.toBitVec,
    s.e.toBitVec, s.f.toBitVec, s.g.toBitVec, s.h.toBitVec⟩

/-- The initial state has the initial value. -/
theorem value_initial : State.initial.value = Standard.initial := by decide +kernel

/-- The table of constants holds those of the standard. -/
theorem map_roundConstants :
    roundConstants.map UInt32.toBitVec = (List.range 64).map Standard.constant := by
  decide +kernel

/-- Four bytes shifted into a word are the four bytes side by side. -/
theorem toBitVec_shifted (p q r s : UInt8) :
    ((p.toUInt32 <<< 24) ||| (q.toUInt32 <<< 16) ||| (r.toUInt32 <<< 8) ||| s.toUInt32).toBitVec =
      p.toBitVec ++ q.toBitVec ++ r.toBitVec ++ s.toBitVec := by
  apply BitVec.eq_of_toNat_eq
  have hp := p.toNat_lt
  have hq := q.toNat_lt
  have hr := r.toNat_lt
  rw [UInt32.toNat_toBitVec]
  simp only [UInt32.toNat_or, UInt32.toNat_shiftLeft, UInt8.toNat_toUInt32, BitVec.toNat_append,
    Nat.shiftLeft_or_distrib, ← Nat.shiftLeft_add, UInt8.toNat_toBitVec]
  have hsmall : ∀ {b k : Nat}, b < 256 → k ≤ 24 → b <<< k % 2 ^ 32 = b <<< k := by
    intro b k hb hk
    apply Nat.mod_eq_of_lt
    calc b <<< k = b * 2 ^ k := Nat.shiftLeft_eq b k
      _ < 2 ^ 8 * 2 ^ k := Nat.mul_lt_mul_of_pos_right hb (Nat.two_pow_pos k)
      _ = 2 ^ (8 + k) := (Nat.pow_add 2 8 k).symm
      _ ≤ 2 ^ 32 := Nat.pow_le_pow_right (by omega) (by omega)
  show p.toNat <<< 24 % 2 ^ 32 ||| q.toNat <<< 16 % 2 ^ 32 ||| r.toNat <<< 8 % 2 ^ 32 ||| s.toNat = _
  rw [hsmall hp (by omega), hsmall hq (by omega), hsmall hr (by omega)]

/-- The words of a text are those of the standard, each from four bytes. -/
theorem map_words (s : Bytes) :
    (words s).map UInt32.toBitVec = (List.range (s.length / 4)).map (Standard.blockWord s) := by
  induction s using words.induct with
  | case1 p q r s rest ih =>
    have hlen : (p :: q :: r :: s :: rest).length / 4 = rest.length / 4 + 1 := by
      simp only [List.length_cons]
      omega
    rw [words, List.map_cons, ih, hlen, List.range_succ_eq_map, List.map_cons, List.map_map,
      toBitVec_shifted]
    rfl
  | case2 s h =>
    have hlen : s.length / 4 = 0 := by
      match s, h with
      | [], _ | [_], _ | [_, _], _ | [_, _, _], _ => simp
      | p :: q :: r :: s :: rest, h => exact absurd rfl (h p q r s rest)
    rw [hlen, words]
    · rfl
    · exact h

/-! ## Compression -/

/-- The schedule is extended by the recurrence. By induction on the number of words that are still
to come; the list holds the latest one first, so that the recurrence looks at fixed places. -/
theorem map_extend {block : Bytes} {ws : List UInt32} {k : Nat} (n : Nat) (hk : 16 ≤ k)
    (h : ws.map UInt32.toBitVec = ((List.range k).map (Standard.scheduleWord block)).reverse) :
    (extend n ws).map UInt32.toBitVec =
      ((List.range (k + n)).map (Standard.scheduleWord block)).reverse := by
  induction n generalizing k ws with
  | zero => exact h
  | succ n ih =>
    have hget : ∀ i < k, (ws.getD i 0).toBitVec = Standard.scheduleWord block (k - (i + 1)) := by
      intro i hi
      have hi' : (ws.map UInt32.toBitVec)[i]? =
          some (Standard.scheduleWord block (k - (i + 1))) := by
        rw [h, List.getElem?_reverse (by simpa using hi), List.length_map, List.length_range,
          List.getElem?_map, List.getElem?_range (by omega), Option.map_some, Nat.sub_sub,
          Nat.add_comm 1]
      obtain ⟨w, hw, hword⟩ := Option.map_eq_some_iff.mp (List.getElem?_map ▸ hi')
      rw [List.getD_eq_getElem?_getD, hw, Option.getD_some, hword]
    rw [extend, ← Nat.succ_add_eq_add_succ]
    refine ih (by omega) ?_
    rw [List.map_cons, h, List.range_succ, List.map_append, List.reverse_append, List.map_singleton,
      List.reverse_singleton, List.singleton_append]
    congr 1
    have h₂ := hget 1 (by omega)
    have h₇ := hget 6 (by omega)
    have h₁₅ := hget 14 (by omega)
    have h₁₆ := hget 15 (by omega)
    rw [Standard.scheduleWord, if_neg (by omega), ← h₂, ← h₇, ← h₁₅, ← h₁₆]
    rfl

/-- **The schedule is the one of the standard.** -/
theorem map_schedule {block : Bytes} (h : block.length = 64) :
    (schedule block).map UInt32.toBitVec =
      (List.range 64).map (Standard.scheduleWord block) := by
  have hwords : (words block).reverse.map UInt32.toBitVec =
      ((List.range 16).map (Standard.scheduleWord block)).reverse := by
    rw [List.map_reverse, map_words, h]
    refine congrArg List.reverse (List.map_congr_left fun t ht => ?_)
    rw [Standard.scheduleWord, if_pos (List.mem_range.mp ht)]
  rw [schedule, List.map_reverse, map_extend 48 (by omega) hwords, List.reverse_reverse]

/-- One round gives the value of the round of the standard. -/
theorem value_round (s : State) (k w : UInt32) (block : Bytes) (t : Nat)
    (hk : k.toBitVec = Standard.constant t) (hw : w.toBitVec = Standard.scheduleWord block t) :
    (s.round k w).value = Standard.round block s.value t := by
  rw [Standard.round, ← hk, ← hw]
  rfl

/-- The rounds one after the other. -/
theorem value_foldl_round (block : Bytes) (s : State) (ts : List Nat) (ks ws : List UInt32)
    (hk : ks.map UInt32.toBitVec = ts.map Standard.constant)
    (hw : ws.map UInt32.toBitVec = ts.map (Standard.scheduleWord block)) :
    ((ks.zip ws).foldl (fun t kw => t.round kw.1 kw.2) s).value =
      ts.foldl (Standard.round block) s.value := by
  induction ts generalizing s ks ws with
  | nil =>
    rw [List.map_nil, List.map_eq_nil_iff] at hk
    rw [hk]
    rfl
  | cons t ts ih =>
    obtain ⟨k, ks, rfl, hkt, hk⟩ := List.map_eq_cons_iff.mp hk
    obtain ⟨w, ws, rfl, hwt, hw⟩ := List.map_eq_cons_iff.mp hw
    rw [List.zip_cons_cons, List.foldl_cons, List.foldl_cons, ih _ ks ws hk hw,
      value_round s k w block t hkt hwt]

/-- **The compression function is the one of the standard.** -/
theorem value_compress (s : State) {block : Bytes} (h : block.length = 64) :
    (compress s block).value = Standard.compress s.value block := by
  rw [Standard.compress, ← value_foldl_round block s _ _ _ map_roundConstants (map_schedule h)]
  simp only [compress, State.add, State.value, UInt32.toBitVec_add, BitVec.add_comm]

end SignatureLedger.Sha256
