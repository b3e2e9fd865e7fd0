import BlockIndex.Hex
import BlockIndex.Sha256

/-!
# Hashes

A hash is 32 bytes, the double SHA-256 digest of what it names.  It is kept in the order in which
it is written to files and shown in the reverse order.

* `Hash.doubleSha256`  the hash of a byte string;
* `Hash.toHex`         the 64 digits that show a hash;
* `Hash.ofHex`         the hash that a text shows, less one leading base mark.

Main statement: `Hash.ofHex_toHex`.
-/

namespace BlockIndex

/-- 32 bytes, in the order in which files hold them. -/
structure Hash where
  bytes : Bytes
  length_eq : bytes.length = 32
  deriving DecidableEq

/-- Why a text is not a hash. -/
inductive HashFault where
  /-- The text is not base 16. -/
  | hex (text : String) (fault : Hex.Fault)
  /-- The text writes some other number of bytes than 32. -/
  | wrongSize (text : String)
  /-- A reason given in words. -/
  | other (reason : String)
  deriving DecidableEq, Repr

/-- What is said of a fault. -/
def HashFault.message : HashFault → String
  | .hex text fault => text ++ ": " ++ fault.message
  | .wrongSize text => text ++ ": expected 32 bytes"
  | .other reason => reason

namespace Hash

@[ext] theorem ext {a b : Hash} (h : a.bytes = b.bytes) : a = b := by
  cases a
  cases b
  simp_all

/-- The hash of these bytes, if there are 32. -/
def ofBytes? (bytes : Bytes) : Option Hash :=
  if h : bytes.length = 32 then some ⟨bytes, h⟩ else none

@[simp] theorem ofBytes?_bytes (hash : Hash) : ofBytes? hash.bytes = some hash := by
  simp [ofBytes?, hash.length_eq]

/-- The hash of zeros only: the parent of a first block. -/
def zero : Hash := ⟨List.replicate 32 0, List.length_replicate⟩

instance : Inhabited Hash := ⟨zero⟩

/-- Whether every byte is zero. -/
def isZero (hash : Hash) : Bool := hash = zero

/-- The digest of the digest of a byte string. -/
def doubleSha256 (data : Bytes) : Hash :=
  ⟨Sha256.digest (Sha256.digest data), Sha256.length_digest _⟩

/-- The order of the bytes as files hold them, the first deciding most. -/
def compare (a b : Hash) : Ordering := go a.bytes b.bytes
where
  /-- The order of two byte strings, the first byte deciding most. -/
  go : Bytes → Bytes → Ordering
    | [], [] => .eq
    | [], _ :: _ => .lt
    | _ :: _, [] => .gt
    | x :: xs, y :: ys => if x < y then .lt else if y < x then .gt else go xs ys

/-! ## Shown form -/

/-- The base-16 digits that show a hash: its bytes in reverse. -/
def toHex (hash : Hash) : String := Hex.encode hash.bytes.reverse

instance : ToString Hash := ⟨toHex⟩

/-- The characters of a text less one leading base mark. -/
def dropMark : List Char → List Char
  | '0' :: 'x' :: rest => rest
  | cs => cs

/-- The hash that a text shows: 64 digits of either case, after a base mark or none. -/
def ofHex (s : String) : Except HashFault Hash :=
  let digits := dropMark s.toList
  match Hex.decodeChars digits with
  | .error fault => .error (.hex (String.ofList digits) fault)
  | .ok bytes =>
    match ofBytes? bytes.reverse with
    | some hash => .ok hash
    | none => .error (.wrongSize (String.ofList digits))

/-- A hash with a word that says what it is. -/
def labelled (hash : Hash) : String := "BlockHash(" ++ hash.toHex ++ ")"

instance : Repr Hash := ⟨fun hash _ => hash.labelled⟩

theorem dropMark_encodeChars (bytes : Bytes) :
    dropMark (Hex.encodeChars bytes) = Hex.encodeChars bytes := by
  cases bytes with
  | nil => rfl
  | cons b rest =>
    have hb : b.toNat < 256 := b.toNat_lt
    have hx : Hex.digitChar (b.toNat % 16) ≠ 'x' := by
      have all : ∀ m : Fin 16, Hex.digitChar m.val ≠ 'x' := by decide
      exact all ⟨b.toNat % 16, by omega⟩
    simp only [Hex.encodeChars]
    unfold dropMark
    split
    · next heq => simp_all
    · rfl

theorem ofHex_toHex (hash : Hash) : ofHex hash.toHex = .ok hash := by
  have hread : Hex.decodeChars (Hex.encodeChars hash.bytes.reverse) = .ok hash.bytes.reverse := by
    have h := Hex.decode_encode hash.bytes.reverse
    simpa [Hex.decode, Hex.encode] using h
  simp [ofHex, toHex, Hex.encode, dropMark_encodeChars, hread]

end Hash

end BlockIndex
