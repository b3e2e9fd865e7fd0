import BlockIndex.Hash

/-!
# Block headers

The 80 bytes that open a block: six fields, numbers lowest byte first.  A block's identity is the
hash of these bytes.

* `Header.decode`, `Header.ofBytes?`  reading;
* `Header.encode`                     writing;
* `Header.hash`                       the block's hash.

Main statements: `Header.encode_decode`, `Header.decode_encode`.
-/

namespace BlockIndex

/-- A block header. -/
structure Header where
  version : UInt32
  prevHash : Hash
  merkleRoot : Hash
  /-- Seconds since 1970. -/
  timestamp : UInt32
  /-- The difficulty target in short form, carried and never checked. -/
  bits : UInt32
  nonce : UInt32
  deriving DecidableEq, Repr, Inhabited

namespace Header

/-- The number of bytes of a header. -/
def size : Nat := 80

/-- The header written by 80 bytes. -/
def decode (raw : Bytes) (h : raw.length = size) : Header where
  version := word32 (raw.take 4)
  prevHash := ⟨(raw.drop 4).take 32, by simp [h, size]⟩
  merkleRoot := ⟨(raw.drop 36).take 32, by simp [h, size]⟩
  timestamp := word32 ((raw.drop 68).take 4)
  bits := word32 ((raw.drop 72).take 4)
  nonce := word32 ((raw.drop 76).take 4)

/-- The header written by a byte string, if its size is right. -/
def ofBytes? (raw : Bytes) : Option Header :=
  if h : raw.length = size then some (decode raw h) else none

/-- The 80 bytes that write a header. -/
def encode (header : Header) : Bytes :=
  bytes32 header.version ++ header.prevHash.bytes ++ header.merkleRoot.bytes
    ++ bytes32 header.timestamp ++ bytes32 header.bits ++ bytes32 header.nonce

/-- The hash of the block. -/
def hash (header : Header) : Hash := Hash.doubleSha256 header.encode

/-- Whether the block has no parent and roots a chain. -/
def isGenesis (header : Header) : Bool := header.prevHash.isZero

/-! ## Reading and writing undo each other -/

@[simp] theorem length_encode (header : Header) : header.encode.length = size := by
  simp [encode, size, Hash.length_eq]

theorem encode_decode (raw : Bytes) (h : raw.length = size) : (decode raw h).encode = raw := by
  have word : ∀ n, n + 4 ≤ size → bytes32 (word32 ((raw.drop n).take 4)) = (raw.drop n).take 4 := by
    intro n hn
    apply bytes32_word32
    simp only [List.length_take, List.length_drop, h]
    omega
  have first : bytes32 (word32 (raw.take 4)) = raw.take 4 := by simpa using word 0 (by decide)
  have last : (raw.drop 76).take 4 = raw.drop 76 := by
    apply List.take_of_length_le
    simp [h, size]
  simp only [encode, decode, first, word 68 (by decide), word 72 (by decide), word 76 (by decide)]
  rw [last]
  have split : ∀ n k, raw.drop n = (raw.drop n).take k ++ raw.drop (n + k) := by
    intro n k
    rw [← List.drop_drop]
    exact (List.take_append_drop k (raw.drop n)).symm
  have whole : raw = raw.take 4 ++ raw.drop 4 := (List.take_append_drop 4 raw).symm
  simp only [List.append_assoc]
  rw [← split 72 4, ← split 68 4, ← split 36 32, ← split 4 32, ← whole]

theorem decode_encode (header : Header) :
    decode header.encode (length_encode header) = header := by
  have word : ∀ (w : UInt32) (n : Nat), 4 ≤ n → (bytes32 w).drop n = [] := fun w n hn =>
    List.drop_eq_nil_of_le (by simpa using hn)
  have short : ∀ (h : Hash) (n : Nat), 32 ≤ n → h.bytes.drop n = [] := fun h n hn =>
    List.drop_eq_nil_of_le (by simpa [h.length_eq] using hn)
  have whole : ∀ (w : UInt32), (bytes32 w).take 4 = bytes32 w := fun w =>
    List.take_of_length_le (by simp)
  cases header
  simp only [decode, encode, Header.mk.injEq]
  refine ⟨?_, Hash.ext ?_, Hash.ext ?_, ?_, ?_, ?_⟩ <;>
    simp [List.drop_append, Hash.length_eq, word, short, whole]

@[simp] theorem ofBytes?_encode (header : Header) : ofBytes? header.encode = some header := by
  simp [ofBytes?, decode_encode]

theorem ofBytes?_eq_some_iff {raw : Bytes} {header : Header} :
    ofBytes? raw = some header ↔ header.encode = raw := by
  constructor
  · intro h
    unfold ofBytes? at h
    split at h
    · next hsize =>
      rw [← Option.some.inj h]
      exact encode_decode raw hsize
    · simp at h
  · rintro rfl
    exact ofBytes?_encode header

end Header

end BlockIndex
