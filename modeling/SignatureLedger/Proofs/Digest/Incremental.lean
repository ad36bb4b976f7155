import SignatureLedger.Proofs.Digest.Standard

/-!
# Digests that are fed piece by piece

A digest that has taken a message in has folded the full blocks of the message and holds the rest
(`Digest.Holds`). One more piece keeps this true of the longer message, whatever the sizes of the
pieces are, and closing the message then gives the digest of the standard. A whole run of calls
gives one such digest for every message it finishes (`finished_eq_map_hexDigest`).
-/

namespace SignatureLedger.Sha256

variable {d : Digest} {m : Bytes}

/-! ## Taking bytes in -/

namespace Digest

/-- The state has the full blocks of the message, and the rest of it waits. -/
def Folded (d : Digest) (m : Bytes) : Prop :=
  ∃ u, m = u ++ d.pending ∧ 64 ∣ u.length ∧ d.state.value = Standard.fold u

/-- Compressing one block more extends the fold by that block. -/
theorem value_compress_of_fold {s : State} {u block : Bytes} (hs : s.value = Standard.fold u)
    (hu : 64 ∣ u.length) (hblock : block.length = 64) :
    (compress s block).value = Standard.fold (u ++ block) := by
  rw [value_compress s hblock, hs, Standard.fold_append hu hblock]

/-- Filling up the pending bytes adds them to what was folded. -/
theorem Folded.fill {data : Bytes} (h : d.Folded m) (hroom : d.pending.length + data.length ≤ 64) :
    (d.fill data hroom).Folded (m ++ data) := by
  obtain ⟨u, rfl, hu, hstate⟩ := h
  unfold Digest.fill
  split
  · rename_i hfull
    have hblock : (d.pending ++ data).length = 64 := by rw [List.length_append, hfull]
    refine ⟨u ++ (d.pending ++ data), ?_, ?_, value_compress_of_fold hstate hu hblock⟩
    · rw [List.append_nil, List.append_assoc]
    · rw [List.length_append, hblock]
      omega
  · exact ⟨u, List.append_assoc .., hu, hstate⟩

/-- **Every path through a piece keeps the message.** A block may come from the piece at once, or
from what waits together with the front of the piece. -/
theorem Folded.absorb {data : Bytes} (h : d.Folded m) : (d.absorb data).Folded (m ++ data) := by
  induction d, data using Digest.absorb.induct generalizing m with
  | case1 d =>
    rw [Digest.absorb, dif_pos rfl, List.append_nil]
    exact h
  | case2 d data hne hfull ih =>
    obtain ⟨u, rfl, hu, hstate⟩ := h
    rw [Digest.absorb, dif_neg hne, dif_pos hfull]
    have hblock : Folded { d with state := compress d.state (data.take 64) }
        (u ++ data.take 64) := by
      refine ⟨u ++ data.take 64, ?_, ?_, value_compress_of_fold hstate hu hfull.2⟩
      · show _ = u ++ data.take 64 ++ d.pending
        rw [hfull.1, List.append_nil]
      · rw [List.length_append, hfull.2]
        omega
    have hdone := ih hblock
    rwa [List.append_assoc, List.take_append_drop, ← List.append_nil u, ← hfull.1] at hdone
  | case3 d data hne hfull ih =>
    rw [Digest.absorb, dif_neg hne, dif_neg hfull]
    have hdone := ih (h.fill _)
    rwa [List.append_assoc, List.take_append_drop] at hdone

/-- Filling up the pending bytes counts them. -/
theorem total_fill {data : Bytes} (hroom : d.pending.length + data.length ≤ 64) :
    (d.fill data hroom).total = d.total := by
  unfold Digest.fill
  split <;> rfl

/-- Absorbing data counts all of it. -/
theorem total_absorb (data : Bytes) : (d.absorb data).total = d.total := by
  induction d, data using Digest.absorb.induct with
  | case1 d => rw [Digest.absorb, dif_pos rfl]
  | case2 d data hne hfull ih => rw [Digest.absorb, dif_neg hne, dif_pos hfull, ih]
  | case3 d data hne hfull ih =>
    rw [Digest.absorb, dif_neg hne, dif_neg hfull]
    exact ih.trans (total_fill _)

/-- The digest has taken in the message. -/
structure Holds (d : Digest) (m : Bytes) : Prop where
  folded : d.Folded m
  total : d.total = m.length.toUInt64

/-- At the start nothing was taken. -/
theorem holds_initial : Holds {} [] where
  folded := ⟨[], rfl, dvd_zero 64, value_initial⟩
  total := rfl

/-- One update takes its data behind what was taken before. -/
theorem Holds.update (h : d.Holds m) (data : Bytes) : (d.update data).Holds (m ++ data) where
  folded := by
    obtain ⟨u, hm, hu, hstate⟩ := h.folded
    exact Folded.absorb ⟨u, hm, hu, hstate⟩
  total := by
    rw [Digest.update, total_absorb]
    show d.total + _ = _
    rw [h.total, List.length_append]
    exact (UInt64.ofNat_add _ _).symm

/-! ## Closing the message -/

/-- The length in eight bytes, while it is below 2^64. -/
theorem bigEndian_eq {n : UInt64} {k : Nat} (h : n.toNat = k) :
    bigEndian n = Standard.lengthField k := by
  have hbyte : ∀ i : Nat, i < 8 →
      (n >>> UInt64.ofNat (8 * i)).toUInt8 = UInt8.ofNat (k / 256 ^ i % 256) := by
    intro i hi
    apply UInt8.toNat_inj.mp
    have hshift : (UInt64.ofNat (8 * i)).toNat % 64 = 8 * i := by
      rw [UInt64.toNat_ofNat']
      omega
    have hpow : 256 ^ i = 2 ^ (8 * i) := by rw [Nat.pow_mul]
    rw [UInt64.toNat_toUInt8, UInt64.toNat_shiftRight, hshift, h, Nat.shiftRight_eq_div_pow, hpow]
    simp
  have hshifts : ([56, 48, 40, 32, 24, 16, 8, 0] : List UInt64) =
      [7, 6, 5, 4, 3, 2, 1, 0].map fun i => UInt64.ofNat (8 * i) := by decide
  rw [bigEndian, Standard.lengthField_eq (h ▸ n.toNat_lt), hshifts, List.map_map]
  refine List.map_congr_left fun i hi => hbyte i ?_
  have hall : ∀ j ∈ [7, 6, 5, 4, 3, 2, 1, 0], j < 8 := by decide
  exact hall i hi

/-- The count of bits is right as long as it fits in 64 bits. -/
theorem Holds.bits (h : d.Holds m) (hlen : m.length < 2 ^ 61) :
    (d.total * 8).toNat = 8 * m.length := by
  have hsmall : m.length * 8 < 2 ^ 64 := by omega
  rw [h.total, UInt64.toNat_mul]
  show (m.length % 2 ^ 64) * 8 % 2 ^ 64 = _
  omega

theorem length_bigEndian (n : UInt64) : (bigEndian n).length = 8 := rfl

/-- **Closing gives the hash value of the standard**, with one block for the padding or with two. -/
theorem Holds.closed (h : d.Holds m) (hlen : m.length < 2 ^ 61) :
    d.closed.value = Standard.digest m := by
  obtain ⟨u, hm, hu, hstate⟩ := h.folded
  have hshort := d.short
  have hfield : bigEndian (d.total * 8) = Standard.lengthField (8 * m.length) :=
    bigEndian_eq (h.bits hlen)
  have hended : d.ended.length = d.pending.length + 1 := List.length_append
  have hmod : m.length % 64 = d.pending.length := by
    rw [hm, List.length_append]
    omega
  -- the padded message, from the last full block on
  have hpadded : m ++ Standard.padding m.length =
      u ++ (d.ended ++ List.replicate (Standard.zeros m.length) 0 ++ bigEndian (d.total * 8)) := by
    rw [Standard.padding, ← hfield, Digest.ended]
    nth_rewrite 1 [hm]
    simp only [List.append_assoc, List.cons_append, List.nil_append]
  rw [Standard.digest, hpadded]
  unfold Digest.closed
  dsimp only
  split
  · rename_i hfull
    have hzeros : Standard.zeros m.length = (64 - d.ended.length) + 56 :=
      Standard.zeros_eq (by omega) (by omega)
    have hfirst : (d.ended ++ List.replicate (64 - d.ended.length) 0).length = 64 := by
      rw [List.length_append, List.length_replicate]
      omega
    have hsecond : (List.replicate 56 0 ++ bigEndian (d.total * 8)).length = 64 := by
      rw [List.length_append, List.length_replicate, length_bigEndian]
    have hboth : 64 ∣ (u ++ (d.ended ++ List.replicate (64 - d.ended.length) 0)).length := by
      rw [List.length_append, hfirst]
      omega
    rw [value_compress_of_fold (value_compress_of_fold hstate hu hfirst) hboth hsecond, hzeros,
      List.replicate_add]
    simp only [List.append_assoc]
  · rename_i hroom
    have hzeros : Standard.zeros m.length = 56 - d.ended.length :=
      Standard.zeros_eq (by omega) (by omega)
    have hlast : (d.ended ++ List.replicate (56 - d.ended.length) 0 ++
        bigEndian (d.total * 8)).length = 64 := by
      rw [List.length_append, List.length_append, List.length_replicate, length_bigEndian]
      omega
    rw [value_compress_of_fold hstate hu hlast, hzeros]

/-- A digit of a word, taken by a shift or by a division. -/
theorem hexDigit_shifted (w : UInt32) {i : Nat} (hi : i < 8) :
    Byte.hexDigit ((w >>> UInt32.ofNat (4 * (7 - i))) &&& 0xF).toUInt8 =
      (bytes "0123456789abcdef").getD (w.toNat / 16 ^ (7 - i) % 16) 0 := by
  have hdigit : ∀ k < 16, Byte.hexDigit (UInt8.ofNat k) = (bytes "0123456789abcdef").getD k 0 := by
    decide
  rw [← hdigit _ (Nat.mod_lt _ (by omega))]
  congr 1
  apply UInt8.toNat_inj.mp
  have hshift : (UInt32.ofNat (4 * (7 - i))).toNat % 32 = 4 * (7 - i) := by
    rw [UInt32.toNat_ofNat']
    omega
  have hpow : 16 ^ (7 - i) = 2 ^ (4 * (7 - i)) := by rw [Nat.pow_mul]
  rw [UInt32.toNat_toUInt8, UInt32.toNat_and, UInt32.toNat_shiftRight, hshift, hpow,
    ← Nat.shiftRight_eq_div_pow, UInt8.toNat_ofNat']
  show (_ &&& (2 ^ 4 - 1)) % 256 = _
  rw [Nat.and_two_pow_sub_one_eq_mod]

/-- A word is written with the digits of the standard. -/
theorem hexWord_eq (w : UInt32) : hexWord w = Standard.hexWord w.toBitVec := by
  have hshifts : ([28, 24, 20, 16, 12, 8, 4, 0] : List UInt32) =
      (List.range 8).map fun i => UInt32.ofNat (4 * (7 - i)) := by decide
  rw [hexWord, Standard.hexWord, hshifts, List.map_map]
  exact List.map_congr_left fun i hi => hexDigit_shifted w (List.mem_range.mp hi)

/-- At the end the digest is that of all that was taken. -/
theorem Holds.finish (h : d.Holds m) (hlen : m.length < 2 ^ 61) :
    d.finish = Standard.hexDigest m := by
  rw [Standard.hexDigest, ← h.closed hlen, Digest.finish, funext hexWord_eq, State.toList]
  rfl

end Digest

/-! ## Runs -/

/-- What a digest can be asked. -/
inductive Call
  | update (data : Bytes)
  | finish
  | reset
deriving DecidableEq, Repr

/-- What the finishes of a run return. -/
def finished : Digest → List Call → List Bytes
  | _, [] => []
  | d, .update data :: calls => finished (d.update data) calls
  | d, .finish :: calls => d.finish :: finished d.finished calls
  | _, .reset :: calls => finished {} calls

/-- The messages of a run that goes on behind `m`: what came in since the last reset, at every
finish. -/
def messages : Bytes → List Call → List Bytes
  | _, [] => []
  | m, .update data :: calls => messages (m ++ data) calls
  | m, .finish :: calls => m :: messages m calls
  | _, .reset :: calls => messages [] calls

/-- Only a reset follows a finish. -/
def ResetsFinished (calls : List Call) : Prop :=
  calls.IsChain fun a b => a = .finish → b = .reset

/-- A run that goes on behind a message. -/
theorem finished_of_holds {calls : List Call} (h : d.Holds m) (hreset : ResetsFinished calls)
    (hlen : ∀ x ∈ messages m calls, x.length < 2 ^ 61) :
    finished d calls = (messages m calls).map Standard.hexDigest := by
  induction calls generalizing d m with
  | nil => rfl
  | cons call calls ih =>
    have htail : ResetsFinished calls := hreset.tail
    cases call with
    | update data => exact ih (h.update data) htail hlen
    | reset => exact ih Digest.holds_initial htail hlen
    | finish =>
      -- what is left behind the finish is thrown away by the reset
      have hsame : finished d.finished calls = finished d calls := by
        cases calls with
        | nil => rfl
        | cons next calls =>
          obtain rfl : next = .reset := (List.isChain_cons_cons.mp hreset).1 rfl
          rfl
      have hm : m.length < 2 ^ 61 := hlen m List.mem_cons_self
      show d.finish :: finished d.finished calls = Standard.hexDigest m :: _
      rw [hsame, h.finish hm, ih h htail fun x hx => hlen x (List.mem_cons_of_mem m hx)]

/-- **A run gives the digests of the standard**: for every message that it finishes, the pieces that
came in since the last reset, however they were cut. -/
theorem finished_eq_map_hexDigest (calls : List Call) (hreset : ResetsFinished calls)
    (hlen : ∀ x ∈ messages [] calls, x.length < 2 ^ 61) :
    finished {} calls = (messages [] calls).map Standard.hexDigest :=
  finished_of_holds Digest.holds_initial hreset hlen

/-- Two messages, the first in three pieces that fill its block and more, the second empty. -/
theorem finished_eq_map_hexDigest_pieces :
    ResetsFinished [.update (bytes "ab"), .update [], .update (List.replicate 130 0x63), .finish,
        .reset, .finish] ∧
      finished {} [.update (bytes "ab"), .update [], .update (List.replicate 130 0x63), .finish,
        .reset, .finish] =
        [Standard.hexDigest (bytes "ab" ++ [] ++ List.replicate 130 0x63), Standard.hexDigest []] := by
  have hreset : ResetsFinished [.update (bytes "ab"), .update [],
      .update (List.replicate 130 0x63), .finish, .reset, .finish] := by
    unfold ResetsFinished
    decide
  refine ⟨hreset, finished_eq_map_hexDigest _ hreset ?_⟩
  decide +kernel

/-- The digest of a whole message is the one of the standard. -/
theorem hex_eq_hexDigest (hlen : m.length < 2 ^ 61) : hex m = Standard.hexDigest m :=
  (Digest.holds_initial.update m).finish hlen

example : Standard.hexDigest (bytes "abc") =
    bytes "ba7816bf8f01cfea414140de5dae2223b00361a396177a9cb410ff61f20015ad" := by
  rw [← hex_eq_hexDigest (by decide)]
  decide +kernel

end SignatureLedger.Sha256
