/-!
# Byte strings

Block files, headers and transactions are byte strings.  A byte string is a list of bytes, so
that a reader is a recursion on the list and every offset is a length.

* `hasAtLeast n l`   whether `l` has `n` members, looking at no more than `n` of them;
* `splitFront n bs`  the first `n` bytes and the rest, if there are that many;
* `LittleEndian`     numbers written lowest byte first, at a fixed width.

Main statements: `hasAtLeast_iff`, `splitFront_eq_some_iff`, `LittleEndian.decode_encode`,
`LittleEndian.encode_decode`.
-/

namespace BlockIndex

/-- A string of bytes. -/
abbrev Bytes := List UInt8

/-! ## Splitting at a length -/

/-- Whether a list has at least `n` members. -/
def hasAtLeast {α : Type} : Nat → List α → Bool
  | 0, _ => true
  | _ + 1, [] => false
  | n + 1, _ :: rest => hasAtLeast n rest

theorem hasAtLeast_iff {α : Type} (n : Nat) (l : List α) :
    hasAtLeast n l = true ↔ n ≤ l.length := by
  induction n generalizing l with
  | zero => simp [hasAtLeast]
  | succ n ih =>
    cases l with
    | nil => simp [hasAtLeast]
    | cons a rest => simp [hasAtLeast, ih]

/-- The first `n` bytes and what follows them, or `none` if there are fewer than `n`. -/
def splitFront (n : Nat) (bs : Bytes) : Option (Bytes × Bytes) :=
  if hasAtLeast n bs then some (bs.take n, bs.drop n) else none

theorem splitFront_eq_some_iff {n : Nat} {bs front rest : Bytes} :
    splitFront n bs = some (front, rest) ↔ bs = front ++ rest ∧ front.length = n := by
  unfold splitFront
  constructor
  · intro h
    split at h
    · next hn =>
      rw [hasAtLeast_iff] at hn
      simp only [Option.some.injEq, Prod.mk.injEq] at h
      obtain ⟨rfl, rfl⟩ := h
      exact ⟨(List.take_append_drop n bs).symm, by simp [hn]⟩
    · simp at h
  · rintro ⟨rfl, rfl⟩
    rw [if_pos ((hasAtLeast_iff _ _).2 (by simp))]
    simp

theorem splitFront_eq_none_iff {n : Nat} {bs : Bytes} :
    splitFront n bs = none ↔ bs.length < n := by
  unfold splitFront
  rw [ite_eq_right_iff, hasAtLeast_iff]
  simp

theorem splitFront_drop {n p : Nat} {bs : Bytes} (h : p + n ≤ bs.length) :
    splitFront n (bs.drop p) = some ((bs.drop p).take n, bs.drop (p + n)) := by
  rw [splitFront_eq_some_iff, ← List.drop_drop, List.take_append_drop, List.length_take,
    List.length_drop]
  exact ⟨rfl, by omega⟩

/-! ## Numbers, lowest byte first -/

namespace LittleEndian

/-- The number written by `bytes`, lowest byte first. -/
def decode : Bytes → Nat
  | [] => 0
  | b :: rest => b.toNat + 256 * decode rest

/-- The lowest `width` bytes of `n`, lowest first. -/
def encode : Nat → Nat → Bytes
  | 0, _ => []
  | width + 1, n => UInt8.ofNat n :: encode width (n / 256)

@[simp] theorem length_encode (width n : Nat) : (encode width n).length = width := by
  induction width generalizing n with
  | zero => rfl
  | succ width ih => simp [encode, ih]

/-- The first number that `width` bytes cannot write. -/
def limit : Nat → Nat
  | 0 => 1
  | width + 1 => 256 * limit width

theorem limit_four : limit 4 = 0x1_0000_0000 := rfl

theorem limit_eight : limit 8 = 0x1_0000_0000_0000_0000 := rfl

theorem decode_lt (bs : Bytes) : decode bs < limit bs.length := by
  induction bs with
  | nil => simp [decode, limit]
  | cons b rest ih =>
    have hb : b.toNat < 256 := b.toNat_lt
    simp only [decode, List.length_cons, limit]
    omega

theorem decode_encode (width n : Nat) : decode (encode width n) = n % limit width := by
  induction width generalizing n with
  | zero => simp [encode, decode, limit, Nat.mod_one]
  | succ width ih =>
    simp only [encode, decode, ih, UInt8.toNat_ofNat', limit]
    rw [Nat.mod_mul]

theorem encode_decode (bs : Bytes) : encode bs.length (decode bs) = bs := by
  induction bs with
  | nil => rfl
  | cons b rest ih =>
    have hb : b.toNat < 256 := b.toNat_lt
    have hdiv : (b.toNat + 256 * decode rest) / 256 = decode rest := by omega
    have hmod : UInt8.ofNat (b.toNat + 256 * decode rest) = b := by
      apply UInt8.toNat_inj.1
      rw [UInt8.toNat_ofNat']
      omega
    simp only [List.length_cons, decode, encode, hdiv, hmod, ih]

end LittleEndian

/-- The 32-bit word written by `bytes`, lowest byte first. -/
def word32 (bytes : Bytes) : UInt32 := UInt32.ofNat (LittleEndian.decode bytes)

/-- The 64-bit word written by `bytes`, lowest byte first. -/
def word64 (bytes : Bytes) : UInt64 := UInt64.ofNat (LittleEndian.decode bytes)

/-- The four bytes of a 32-bit word, lowest first. -/
def bytes32 (word : UInt32) : Bytes := LittleEndian.encode 4 word.toNat

/-- The eight bytes of a 64-bit word, lowest first. -/
def bytes64 (word : UInt64) : Bytes := LittleEndian.encode 8 word.toNat

@[simp] theorem length_bytes32 (word : UInt32) : (bytes32 word).length = 4 :=
  LittleEndian.length_encode 4 _

@[simp] theorem length_bytes64 (word : UInt64) : (bytes64 word).length = 8 :=
  LittleEndian.length_encode 8 _

@[simp] theorem word32_bytes32 (word : UInt32) : word32 (bytes32 word) = word := by
  have h := word.toNat_lt
  apply UInt32.toNat_inj.1
  simp only [word32, bytes32, LittleEndian.decode_encode, LittleEndian.limit_four, UInt32.toNat_ofNat']
  omega

@[simp] theorem word64_bytes64 (word : UInt64) : word64 (bytes64 word) = word := by
  have h := word.toNat_lt
  apply UInt64.toNat_inj.1
  simp only [word64, bytes64, LittleEndian.decode_encode, LittleEndian.limit_eight, UInt64.toNat_ofNat']
  omega

theorem bytes32_word32 {bs : Bytes} (h : bs.length = 4) : bytes32 (word32 bs) = bs := by
  have hlt := LittleEndian.decode_lt bs
  rw [h, LittleEndian.limit_four] at hlt
  have hnat : (word32 bs).toNat = LittleEndian.decode bs := by
    simp only [word32, UInt32.toNat_ofNat']
    omega
  rw [bytes32, hnat, ← h, LittleEndian.encode_decode]

theorem bytes64_word64 {bs : Bytes} (h : bs.length = 8) : bytes64 (word64 bs) = bs := by
  have hlt := LittleEndian.decode_lt bs
  rw [h, LittleEndian.limit_eight] at hlt
  have hnat : (word64 bs).toNat = LittleEndian.decode bs := by
    simp only [word64, UInt64.toNat_ofNat']
    omega
  rw [bytes64, hnat, ← h, LittleEndian.encode_decode]

end BlockIndex
