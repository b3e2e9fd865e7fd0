import BlockIndex.Record
import BlockIndex.Transaction.Decoder

/-!
# Blocks

What a walk hands to its caller: the block, with its payload if payloads are loaded, and a view of
the facts that stand in its header and record.
-/

namespace BlockIndex

/-- A block at its height. -/
structure Block where
  height : Nat
  hash : Hash
  header : Header
  fileId : Nat
  offset : Nat
  /-- The header and the transactions, or nothing if payloads are not loaded. -/
  payload : Bytes
  deriving DecidableEq, Repr

namespace Block

/-- The payload after the header. -/
def transactionBytes (block : Block) : Bytes := block.payload.drop Header.size

/-- The number of transactions, if the payload is loaded and long enough to say it. -/
def transactionCount (block : Block) : Option Nat :=
  (CompactSize.decode? block.transactionBytes).map (·.1)

/-- The transactions. -/
def transactions (block : Block) : Except Error (List Transaction) :=
  decodeTransactions block.transactionBytes

end Block

/-- What is known of a block without its transactions. -/
structure HeaderView where
  height : Nat
  /-- The length that the record declares. -/
  length : Nat
  hash : Hash
  header : Header
  /-- The number of transactions, if the bytes after the header say one. -/
  transactionCount : Option Nat
  deriving DecidableEq, Repr

/-- The view of a record at a height. -/
def HeaderView.ofRecord (record : Record) (height : Nat) (count : Option Nat) : HeaderView :=
  ⟨height, record.length, record.hash, record.header, count⟩

end BlockIndex
