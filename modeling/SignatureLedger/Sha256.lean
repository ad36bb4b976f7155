import SignatureLedger.Text.Bytes

/-!
# SHA-256

The compression function on blocks of 64 bytes, and a digest that is fed piece by piece: it folds
full blocks at once, tops up a block that waits for more, and closes the message with its length.
-/

namespace SignatureLedger.Sha256

/-- The first 32 bits of the fractional parts of the cube roots of the first 64 primes. -/
def roundConstants : List UInt32 :=
  [0x428a2f98, 0x71374491, 0xb5c0fbcf, 0xe9b5dba5, 0x3956c25b, 0x59f111f1, 0x923f82a4, 0xab1c5ed5,
    0xd807aa98, 0x12835b01, 0x243185be, 0x550c7dc3, 0x72be5d74, 0x80deb1fe, 0x9bdc06a7, 0xc19bf174,
    0xe49b69c1, 0xefbe4786, 0x0fc19dc6, 0x240ca1cc, 0x2de92c6f, 0x4a7484aa, 0x5cb0a9dc, 0x76f988da,
    0x983e5152, 0xa831c66d, 0xb00327c8, 0xbf597fc7, 0xc6e00bf3, 0xd5a79147, 0x06ca6351, 0x14292967,
    0x27b70a85, 0x2e1b2138, 0x4d2c6dfc, 0x53380d13, 0x650a7354, 0x766a0abb, 0x81c2c92e, 0x92722c85,
    0xa2bfe8a1, 0xa81a664b, 0xc24b8b70, 0xc76c51a3, 0xd192e819, 0xd6990624, 0xf40e3585, 0x106aa070,
    0x19a4c116, 0x1e376c08, 0x2748774c, 0x34b0bcb5, 0x391c0cb3, 0x4ed8aa4a, 0x5b9cca4f, 0x682e6ff3,
    0x748f82ee, 0x78a5636f, 0x84c87814, 0x8cc70208, 0x90befffa, 0xa4506ceb, 0xbef9a3f7, 0xc67178f2]

/-! ## The six functions -/

/-- The bits of a word, rotated to the right. -/
def rotateRight (x n : UInt32) : UInt32 := (x >>> n) ||| (x <<< (32 - n))

/-- Each bit of `x` chooses between the bits of `y` and `z`. -/
def choose (x y z : UInt32) : UInt32 := (x &&& y) ^^^ (~~~x &&& z)

/-- The bit that two of the three words have. -/
def majority (x y z : UInt32) : UInt32 := (x &&& y) ^^^ (x &&& z) ^^^ (y &&& z)

/-- The function `Σ₀` of a round. -/
def bigSigma0 (x : UInt32) : UInt32 := rotateRight x 2 ^^^ rotateRight x 13 ^^^ rotateRight x 22

/-- The function `Σ₁` of a round. -/
def bigSigma1 (x : UInt32) : UInt32 := rotateRight x 6 ^^^ rotateRight x 11 ^^^ rotateRight x 25

/-- The function `σ₀` of the schedule. -/
def smallSigma0 (x : UInt32) : UInt32 := rotateRight x 7 ^^^ rotateRight x 18 ^^^ (x >>> 3)

/-- The function `σ₁` of the schedule. -/
def smallSigma1 (x : UInt32) : UInt32 := rotateRight x 17 ^^^ rotateRight x 19 ^^^ (x >>> 10)

/-! ## Compression -/

/-- The eight working words. -/
structure State where
  a : UInt32
  b : UInt32
  c : UInt32
  d : UInt32
  e : UInt32
  f : UInt32
  g : UInt32
  h : UInt32
deriving DecidableEq, Repr

namespace State

/-- The first 32 bits of the fractional parts of the square roots of the first eight primes. -/
def initial : State :=
  ⟨0x6a09e667, 0xbb67ae85, 0x3c6ef372, 0xa54ff53a, 0x510e527f, 0x9b05688c, 0x1f83d9ab, 0x5be0cd19⟩

/-- The words of the state in their order. -/
def toList (s : State) : List UInt32 := [s.a, s.b, s.c, s.d, s.e, s.f, s.g, s.h]

/-- Wordwise sum modulo 2^32. -/
def add (s t : State) : State :=
  ⟨s.a + t.a, s.b + t.b, s.c + t.c, s.d + t.d, s.e + t.e, s.f + t.f, s.g + t.g, s.h + t.h⟩

/-- One round with its constant and its word of the schedule. -/
def round (s : State) (k w : UInt32) : State :=
  let t₁ := s.h + bigSigma1 s.e + choose s.e s.f s.g + k + w
  let t₂ := bigSigma0 s.a + majority s.a s.b s.c
  ⟨t₁ + t₂, s.a, s.b, s.c, s.d + t₁, s.e, s.f, s.g⟩

end State

/-- Four bytes each as one big-endian word. -/
def words : Bytes → List UInt32
  | p :: q :: r :: s :: rest =>
    ((p.toUInt32 <<< 24) ||| (q.toUInt32 <<< 16) ||| (r.toUInt32 <<< 8) ||| s.toUInt32)
      :: words rest
  | _ => []

/-- The schedule extended by `n` words; the words so far are given with the last one first. -/
def extend : Nat → List UInt32 → List UInt32
  | 0, ws => ws
  | n + 1, ws =>
    let w := smallSigma1 (ws.getD 1 0) + ws.getD 6 0 + smallSigma0 (ws.getD 14 0) + ws.getD 15 0
    extend n (w :: ws)

/-- The 64 words of a block. -/
def schedule (block : Bytes) : List UInt32 := (extend 48 (words block).reverse).reverse

/-- Folds one block of 64 bytes into a state. -/
def compress (s : State) (block : Bytes) : State :=
  s.add ((roundConstants.zip (schedule block)).foldl (fun t kw => t.round kw.1 kw.2) s)

/-- A 64-bit number as eight bytes, the highest first. -/
def bigEndian (n : UInt64) : Bytes :=
  ([56, 48, 40, 32, 24, 16, 8, 0] : List UInt64).map fun s => (n >>> s).toUInt8

/-- The eight lower-case hexadecimal digits of a word. -/
def hexWord (w : UInt32) : Bytes :=
  ([28, 24, 20, 16, 12, 8, 4, 0] : List UInt32).map fun s =>
    Byte.hexDigit ((w >>> s) &&& 0xF).toUInt8

/-! ## Digests -/

/-- A digest in the making. -/
structure Digest where
  state : State := .initial
  /-- The bytes that wait for their block to be full. -/
  pending : Bytes := []
  /-- The number of bytes so far, modulo 2^64. -/
  total : UInt64 := 0
  short : pending.length < 64 := by decide
deriving DecidableEq, Repr

namespace Digest

/-- Puts bytes behind those that wait, and folds the block once it is full. -/
def fill (d : Digest) (data : Bytes) (h : d.pending.length + data.length ≤ 64) : Digest :=
  if hfull : d.pending.length + data.length = 64 then
    { d with state := compress d.state (d.pending ++ data), pending := [], short := by decide }
  else
    { d with
      pending := d.pending ++ data
      short := by rw [List.length_append]; omega }

/-- The number of bytes that the block that waits has room for. -/
def room (d : Digest) : Nat := 64 - d.pending.length

/-- There is always room for a byte in the block that is being filled. -/
theorem room_pos (d : Digest) : 0 < d.room := Nat.sub_pos_of_lt d.short

/-- What is taken of the data fits into the block. -/
theorem length_take_room_le (d : Digest) (data : Bytes) :
    d.pending.length + (data.take d.room).length ≤ 64 := by
  have := d.short
  rw [List.length_take, room]
  omega

/-- Takes bytes in: full blocks at once while nothing waits, else as many as there is room for. -/
def absorb (d : Digest) (data : Bytes) : Digest :=
  if _hdone : data = [] then d
  else if _hfull : d.pending = [] ∧ (data.take 64).length = 64 then
    absorb { d with state := compress d.state (data.take 64) } (data.drop 64)
  else absorb (d.fill (data.take d.room) (d.length_take_room_le data)) (data.drop d.room)
termination_by data.length
decreasing_by
  all_goals
    have := d.room_pos
    have := List.length_pos_iff.mpr _hdone
    rw [List.length_drop]
    omega

/-- Takes more data into the digest. -/
def update (d : Digest) (data : Bytes) : Digest :=
  { d with total := d.total + data.length.toUInt64 }.absorb data

/-- The bytes that wait and a byte with its highest bit set, which ends the message. -/
def ended (d : Digest) : Bytes := d.pending ++ [0x80]

/-- The state once zeros and the length in bits fill the last block, or one block more where the
last one has no room for the length. -/
def closed (d : Digest) : State :=
  let length := bigEndian (d.total * 8)
  if 56 < d.ended.length then
    let full := compress d.state (d.ended ++ List.replicate (64 - d.ended.length) 0)
    compress full (List.replicate 56 0 ++ length)
  else compress d.state (d.ended ++ List.replicate (56 - d.ended.length) 0 ++ length)

/-- The digest as 64 hexadecimal digits. -/
def finish (d : Digest) : Bytes := d.closed.toList.flatMap hexWord

/-- What is left behind a finished message, until it is reset. -/
def finished (d : Digest) : Digest := { d with state := d.closed, pending := [], short := by decide }

end Digest

/-- The digest of a whole message. -/
def hex (message : Bytes) : Bytes := (({} : Digest).update message).finish

end SignatureLedger.Sha256
