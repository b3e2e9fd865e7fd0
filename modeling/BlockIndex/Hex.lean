import BlockIndex.Bytes
import BlockIndex.Text.Quoted

/-!
# Base 16

Bytes as base-16 text, high digit first.  Reading takes digits of either case; writing gives lower
case.  A text with an odd number of bytes is refused before its characters are looked at, and
otherwise the first byte that is no digit is reported with its index.

Main statement: `decode_encode`.
-/

namespace BlockIndex.Hex

/-- Why a text is not base 16. -/
inductive Fault where
  /-- The text has an odd number of bytes. -/
  | oddLength
  /-- The byte at `index` is no digit. -/
  | badDigit (byte : UInt8) (index : Nat)
  deriving DecidableEq, Repr

/-- What is said of a fault; a byte is shown as the character of that number. -/
def Fault.message : Fault → String
  | .oddLength => "Odd number of digits"
  | .badDigit byte index =>
    "Invalid character " ++ Text.quotedChar (Char.ofNat byte.toNat) ++ " at position "
      ++ toString index

/-- The digit that writes a value below 16. -/
def digitChar (n : Nat) : Char :=
  if n < 10 then Char.ofNat ('0'.toNat + n) else Char.ofNat ('a'.toNat + (n - 10))

/-- The value of a digit of either case. -/
def digitValue? (c : Char) : Option Nat :=
  if '0' ≤ c ∧ c ≤ '9' then some (c.toNat - '0'.toNat)
  else if 'a' ≤ c ∧ c ≤ 'f' then some (c.toNat - 'a'.toNat + 10)
  else if 'A' ≤ c ∧ c ≤ 'F' then some (c.toNat - 'A'.toNat + 10)
  else none

/-! ## Writing -/

/-- The digits of a byte string. -/
def encodeChars : Bytes → List Char
  | [] => []
  | b :: rest => digitChar (b.toNat / 16) :: digitChar (b.toNat % 16) :: encodeChars rest

/-- A byte string in lower-case base 16. -/
def encode (bytes : Bytes) : String := String.ofList (encodeChars bytes)

/-! ## Reading -/

/-- The value of the digit at `index`, or the fault of the first byte of what stands there. -/
def digitAt (index : Nat) (c : Char) : Except Fault Nat :=
  match digitValue? c with
  | some n => .ok n
  | none => .error (.badDigit ((String.utf8EncodeChar c).headD 0) index)

/-- Pairs of digits from `index` on.  Every character before a fault is a digit, so the index of a
character is the index of its first byte. -/
def decodeFrom : Nat → List Char → Except Fault Bytes
  | _, [] => .ok []
  | index, [c] =>
    match digitAt index c with
    | .error e => .error e
    | .ok _ => .error .oddLength
  | index, high :: low :: rest =>
    match digitAt index high with
    | .error e => .error e
    | .ok h =>
      match digitAt (index + 1) low with
      | .error e => .error e
      | .ok l =>
        match decodeFrom (index + 2) rest with
        | .error e => .error e
        | .ok bytes => .ok (UInt8.ofNat (16 * h + l) :: bytes)

/-- The length of a text in bytes. -/
def utf8Length : List Char → Nat
  | [] => 0
  | c :: rest => c.utf8Size + utf8Length rest

/-- The bytes that a text writes in base 16. -/
def decodeChars (cs : List Char) : Except Fault Bytes :=
  if utf8Length cs % 2 = 1 then .error .oddLength else decodeFrom 0 cs

/-- The bytes that a text writes in base 16. -/
def decode (s : String) : Except Fault Bytes := decodeChars s.toList

/-! ## Reading what was written -/

theorem digitValue?_digitChar {n : Nat} (h : n < 16) : digitValue? (digitChar n) = some n := by
  have all : ∀ m : Fin 16, digitValue? (digitChar m.val) = some m.val := by decide
  exact all ⟨n, h⟩

theorem utf8Size_digitChar {n : Nat} (h : n < 16) : (digitChar n).utf8Size = 1 := by
  have all : ∀ m : Fin 16, (digitChar m.val).utf8Size = 1 := by decide
  exact all ⟨n, h⟩

theorem decodeFrom_encodeChars (index : Nat) (bytes : Bytes) :
    decodeFrom index (encodeChars bytes) = .ok bytes := by
  induction bytes generalizing index with
  | nil => rfl
  | cons b rest ih =>
    have hb : b.toNat < 256 := b.toNat_lt
    have hbyte : UInt8.ofNat (16 * (b.toNat / 16) + b.toNat % 16) = b := by
      rw [Nat.div_add_mod]
      exact UInt8.ofNat_toNat
    simp only [encodeChars, decodeFrom, digitAt, digitValue?_digitChar (show b.toNat / 16 < 16 by omega),
      digitValue?_digitChar (show b.toNat % 16 < 16 by omega), ih, hbyte]

theorem utf8Length_encodeChars (bytes : Bytes) :
    utf8Length (encodeChars bytes) = 2 * bytes.length := by
  induction bytes with
  | nil => rfl
  | cons b rest ih =>
    have hb : b.toNat < 256 := b.toNat_lt
    simp only [encodeChars, utf8Length, ih, List.length_cons,
      utf8Size_digitChar (show b.toNat / 16 < 16 by omega),
      utf8Size_digitChar (show b.toNat % 16 < 16 by omega)]
    omega

theorem decode_encode (bytes : Bytes) : decode (encode bytes) = .ok bytes := by
  have hlength := utf8Length_encodeChars bytes
  unfold decode encode decodeChars
  rw [String.toList_ofList, hlength, if_neg (by omega)]
  exact decodeFrom_encodeChars 0 bytes

end BlockIndex.Hex
