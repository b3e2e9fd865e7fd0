import BlockIndex.Bytes

/-!
# SHA-256

The digest that names blocks and transactions.  A message is padded to whole blocks of 64 bytes;
each block is read as sixteen words, highest byte first, and mixed into a state of eight words by
64 rounds.  The words after the sixteenth come from a sliding window over the last sixteen.

* `digest`  the 32 bytes of a message's digest.

Main statement: `length_digest`.  Nothing else about the function is used elsewhere.
-/

namespace BlockIndex.Sha256

/-- Eight words: the working state and the digest. -/
structure State where
  a : UInt32
  b : UInt32
  c : UInt32
  d : UInt32
  e : UInt32
  f : UInt32
  g : UInt32
  h : UInt32
  deriving DecidableEq, Repr

/-- The state before the first block. -/
def State.initial : State :=
  ⟨0x6a09e667, 0xbb67ae85, 0x3c6ef372, 0xa54ff53a, 0x510e527f, 0x9b05688c, 0x1f83d9ab, 0x5be0cd19⟩

/-- The word added in each round. -/
def roundConstants : List UInt32 :=
  [0x428a2f98, 0x71374491, 0xb5c0fbcf, 0xe9b5dba5, 0x3956c25b, 0x59f111f1, 0x923f82a4, 0xab1c5ed5,
   0xd807aa98, 0x12835b01, 0x243185be, 0x550c7dc3, 0x72be5d74, 0x80deb1fe, 0x9bdc06a7, 0xc19bf174,
   0xe49b69c1, 0xefbe4786, 0x0fc19dc6, 0x240ca1cc, 0x2de92c6f, 0x4a7484aa, 0x5cb0a9dc, 0x76f988da,
   0x983e5152, 0xa831c66d, 0xb00327c8, 0xbf597fc7, 0xc6e00bf3, 0xd5a79147, 0x06ca6351, 0x14292967,
   0x27b70a85, 0x2e1b2138, 0x4d2c6dfc, 0x53380d13, 0x650a7354, 0x766a0abb, 0x81c2c92e, 0x92722c85,
   0xa2bfe8a1, 0xa81a664b, 0xc24b8b70, 0xc76c51a3, 0xd192e819, 0xd6990624, 0xf40e3585, 0x106aa070,
   0x19a4c116, 0x1e376c08, 0x2748774c, 0x34b0bcb5, 0x391c0cb3, 0x4ed8aa4a, 0x5b9cca4f, 0x682e6ff3,
   0x748f82ee, 0x78a5636f, 0x84c87814, 0x8cc70208, 0x90befffa, 0xa4506ceb, 0xbef9a3f7, 0xc67178f2]

/-- A word turned right by `n` places. -/
def rotate (x n : UInt32) : UInt32 := (x >>> n) ||| (x <<< (32 - n))

/-- One round with the message word `w` and the constant `k`. -/
def State.round (s : State) (k w : UInt32) : State :=
  let s1 := rotate s.e 6 ^^^ rotate s.e 11 ^^^ rotate s.e 25
  let choice := (s.e &&& s.f) ^^^ ((~~~ s.e) &&& s.g)
  let t1 := s.h + s1 + choice + k + w
  let s0 := rotate s.a 2 ^^^ rotate s.a 13 ^^^ rotate s.a 22
  let majority := (s.a &&& s.b) ^^^ (s.a &&& s.c) ^^^ (s.b &&& s.c)
  ⟨t1 + (s0 + majority), s.a, s.b, s.c, s.d + t1, s.e, s.f, s.g⟩

/-- The word that follows a window of sixteen. -/
def nextWord (window : List UInt32) : UInt32 :=
  let at' := fun i => window.getD i 0
  let x := at' 1
  let y := at' 14
  let s0 := rotate x 7 ^^^ rotate x 18 ^^^ (x >>> 3)
  let s1 := rotate y 17 ^^^ rotate y 19 ^^^ (y >>> 10)
  at' 0 + s0 + at' 9 + s1

/-- The rounds for the remaining constants; the window holds the words not yet used. -/
def State.rounds (s : State) : List UInt32 → List UInt32 → State
  | [], _ => s
  | k :: ks, window => (s.round k (window.headD 0)).rounds ks (window.tail ++ [nextWord window])

/-- Word by word sum of two states. -/
def State.add (s t : State) : State :=
  ⟨s.a + t.a, s.b + t.b, s.c + t.c, s.d + t.d, s.e + t.e, s.f + t.f, s.g + t.g, s.h + t.h⟩

/-- A word written highest byte first. -/
def bigEndian (w : UInt32) : Bytes :=
  [(w >>> 24).toUInt8, (w >>> 16).toUInt8, (w >>> 8).toUInt8, w.toUInt8]

/-- The words of a byte string, four bytes each, highest byte first. -/
def words : Bytes → List UInt32
  | a :: b :: c :: d :: rest =>
    ((a.toUInt32 <<< 24) ||| (b.toUInt32 <<< 16) ||| (c.toUInt32 <<< 8) ||| d.toUInt32) :: words rest
  | _ => []

/-- The state after one block, given as its sixteen words. -/
def State.block (s : State) (window : List UInt32) : State :=
  s.add (s.rounds roundConstants window)

/-- The state after `n` blocks of 64 bytes. -/
def State.blocks (s : State) : Nat → Bytes → State
  | 0, _ => s
  | n + 1, bytes => (s.block (words (bytes.take 64))).blocks n (bytes.drop 64)

/-- The message with a one bit, zeros up to eight bytes short of a whole block, and the message's
length in bits. -/
def pad (message : Bytes) : Bytes :=
  let length := message.length
  let zeros := (119 - length % 64) % 64
  message ++ (0x80 :: List.replicate zeros 0) ++ (LittleEndian.encode 8 (8 * length)).reverse

/-- The 32 bytes of a state. -/
def State.bytes (s : State) : Bytes :=
  bigEndian s.a ++ bigEndian s.b ++ bigEndian s.c ++ bigEndian s.d ++ bigEndian s.e ++ bigEndian s.f
    ++ bigEndian s.g ++ bigEndian s.h

/-- The digest of a message. -/
def digest (message : Bytes) : Bytes :=
  let padded := pad message
  (State.initial.blocks (padded.length / 64) padded).bytes

@[simp] theorem length_digest (message : Bytes) : (digest message).length = 32 := rfl

end BlockIndex.Sha256
