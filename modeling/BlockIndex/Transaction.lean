import BlockIndex.CompactSize
import BlockIndex.Hash

/-!
# Transactions

What a block holds after its header.  A transaction is written in one of two forms:

    version | inputs | outputs | lock time
    version | 0 | 1 | inputs | outputs | witnesses | lock time

Its id is the hash of the first form, its witness id the hash of the form in which it is written.

* `TransactionBody`             what a transaction says, without what is computed from its bytes;
* `TransactionBody.encode`      the bytes that write it;
* `Transaction`                 a body with its ids and sizes;
* `TransactionBody.identified`  the transaction that a body makes.
-/

namespace BlockIndex

/-- An input: the output it spends and the data that allows it. -/
structure TransactionInput where
  prevTxid : Hash
  prevIndex : UInt32
  script : Bytes
  sequence : UInt32
  /-- Witness items, none in the form without witnesses. -/
  witness : List Bytes
  deriving DecidableEq, Repr

/-- An output: an amount and the condition for spending it. -/
structure TransactionOutput where
  amount : UInt64
  script : Bytes
  deriving DecidableEq, Repr

/-- What a transaction says. -/
structure TransactionBody where
  version : UInt32
  /-- Whether it is written in the form with witnesses. -/
  segwit : Bool
  inputs : List TransactionInput
  outputs : List TransactionOutput
  lockTime : UInt32
  deriving DecidableEq, Repr

/-- A transaction with its ids and sizes. -/
structure Transaction extends TransactionBody where
  txid : Hash
  /-- Equal to `txid` in the form without witnesses. -/
  wtxid : Hash
  /-- The number of bytes that write it. -/
  size : UInt32
  /-- A quarter of three times the size without witnesses and once the whole, rounded up. -/
  vsize : UInt32
  deriving DecidableEq, Repr

/-- The output number that inputs of new coins name. -/
def coinbaseIndex : UInt32 := 0xFFFFFFFF

/-- Whether the input makes new coins. -/
def TransactionInput.isCoinbase (input : TransactionInput) : Bool :=
  input.prevTxid.isZero && input.prevIndex == coinbaseIndex

/-- Whether the transaction's only input makes new coins. -/
def TransactionBody.isCoinbase (body : TransactionBody) : Bool :=
  match body.inputs with
  | [input] => input.isCoinbase
  | _ => false

/-- The greatest amount that a total can show. -/
def maxTotal : Nat := 0xffff_ffff_ffff_ffff

/-- The sum of the output amounts, or the greatest total if that is less. -/
def TransactionBody.outputTotal (body : TransactionBody) : Nat :=
  body.outputs.foldl (fun total output => min (total + output.amount.toNat) maxTotal) 0

/-! ## Sizes -/

/-- A quarter of a word, rounded up. -/
def quarterUp (word : UInt32) : UInt32 := if word % 4 > 0 then word / 4 + 1 else word / 4

theorem toNat_quarterUp (word : UInt32) : (quarterUp word).toNat = (word.toNat + 3) / 4 := by
  have hword : word.toNat < 2 ^ 32 := word.toNat_lt
  have hgt : word % 4 > 0 ↔ 0 < word.toNat % 4 := UInt32.lt_iff_toNat_lt
  have hquarter : (word / 4).toNat = word.toNat / 4 := UInt32.toNat_div word 4
  unfold quarterUp
  split
  · next hup =>
    rw [hgt] at hup
    have hone : (word / 4 + 1).toNat = (word.toNat / 4 + 1) % 2 ^ 32 := by
      rw [UInt32.toNat_add, hquarter]
      rfl
    omega
  · next hwhole =>
    rw [hgt] at hwhole
    omega

/-- The virtual size of a transaction of `size` bytes, `legacySize` of them without witnesses. -/
def virtualSize (segwit : Bool) (legacySize size : UInt32) : UInt32 :=
  if segwit then quarterUp (3 * legacySize + size) else size

/-- The sum is taken in a word, so it starts over at `2 ^ 32`. -/
theorem toNat_virtualSize_true (legacySize size : Nat) :
    (virtualSize true (UInt32.ofNat legacySize) (UInt32.ofNat size)).toNat
      = ((3 * legacySize + size) % 0x1_0000_0000 + 3) / 4 := by
  have hsum : (3 * UInt32.ofNat legacySize + UInt32.ofNat size).toNat
      = (3 * legacySize + size) % 0x1_0000_0000 := by
    simp only [UInt32.toNat_add, UInt32.toNat_mul, UInt32.toNat_ofNat, UInt32.toNat_ofNat']
    omega
  rw [virtualSize, if_pos rfl, toNat_quarterUp, hsum]

/-- Below `2 ^ 30` the sum fits in a word, and both forms have one formula. -/
theorem toNat_virtualSize {segwit : Bool} {legacySize size : Nat} (hsize : size < 0x4000_0000)
    (hle : legacySize ≤ size) (hlegacy : segwit = false → legacySize = size) :
    (virtualSize segwit (UInt32.ofNat legacySize) (UInt32.ofNat size)).toNat
      = (3 * legacySize + size + 3) / 4 := by
  cases segwit with
  | true =>
    rw [toNat_virtualSize_true]
    omega
  | false =>
    have hsame := hlegacy rfl
    rw [virtualSize, if_neg Bool.false_ne_true, UInt32.toNat_ofNat']
    omega

/-! ## Written form -/

/-- A script or witness item after its length. -/
def encodeItem (item : Bytes) : Bytes := CompactSize.encode item.length ++ item

/-- An input without its witness. -/
def TransactionInput.encode (input : TransactionInput) : Bytes :=
  input.prevTxid.bytes ++ bytes32 input.prevIndex ++ encodeItem input.script
    ++ bytes32 input.sequence

/-- The witness items of an input after their number. -/
def TransactionInput.encodeWitness (input : TransactionInput) : Bytes :=
  CompactSize.encode input.witness.length ++ input.witness.flatMap encodeItem

/-- An output. -/
def TransactionOutput.encode (output : TransactionOutput) : Bytes :=
  bytes64 output.amount ++ encodeItem output.script

namespace TransactionBody

/-- Inputs and outputs, each after their number. -/
def encodeTransfers (body : TransactionBody) : Bytes :=
  CompactSize.encode body.inputs.length ++ body.inputs.flatMap TransactionInput.encode
    ++ CompactSize.encode body.outputs.length ++ body.outputs.flatMap TransactionOutput.encode

/-- The form without witnesses. -/
def encodeLegacy (body : TransactionBody) : Bytes :=
  bytes32 body.version ++ body.encodeTransfers ++ bytes32 body.lockTime

/-- The form in which the transaction is written. -/
def encode (body : TransactionBody) : Bytes :=
  if body.segwit then
    bytes32 body.version ++ [0, 1] ++ body.encodeTransfers
      ++ body.inputs.flatMap TransactionInput.encodeWitness ++ bytes32 body.lockTime
  else body.encodeLegacy

/-- The transaction that a body makes when its lengths are written in their shortest form. -/
def identified (body : TransactionBody) : Transaction where
  toTransactionBody := body
  txid := Hash.doubleSha256 body.encodeLegacy
  wtxid := Hash.doubleSha256 body.encode
  size := UInt32.ofNat body.encode.length
  vsize := virtualSize body.segwit (UInt32.ofNat body.encodeLegacy.length)
    (UInt32.ofNat body.encode.length)

end TransactionBody

/-- Block data: the number of transactions and the transactions. -/
def encodeTransactions (bodies : List TransactionBody) : Bytes :=
  CompactSize.encode bodies.length ++ bodies.flatMap TransactionBody.encode

end BlockIndex
