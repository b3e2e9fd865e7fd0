import BlockIndex.Cursor
import BlockIndex.Header

/-!
# Records

A record is one block as it stands in a block file: the network's magic, the declared length of the
payload, and the payload, which opens with the header.  A scan keeps the header, the length and the
position.
-/

namespace BlockIndex

/-- One block found in a block file. -/
structure Record where
  hash : Hash
  header : Header
  /-- Declared length of the payload: the header and the transactions. -/
  length : Nat
  /-- The number in the file's name. -/
  fileId : Nat
  /-- Where the record's magic stands in the file. -/
  offset : Nat
  deriving DecidableEq, Repr, Inhabited

namespace Record

/-- The number of bytes before a payload: magic and declared length. -/
def prefixSize : Nat := 8

/-- The record of a header found at a position; its hash is the header's. -/
def ofHeader (header : Header) (length fileId offset : Nat) : Record :=
  ⟨header.hash, header, length, fileId, offset⟩

/-- The hash of the block's parent. -/
def parentHash (record : Record) : Hash := record.header.prevHash

/-- Whether the block roots a chain. -/
def isGenesis (record : Record) : Bool := record.header.isGenesis

/-- Where the record stands. -/
def position (record : Record) : Cursor := ⟨record.fileId, record.offset⟩

/-- Where the payload begins. -/
def payloadOffset (record : Record) : Nat := record.offset + prefixSize

/-- The first offset after the record. -/
def endOffset (record : Record) : Nat := record.payloadOffset + record.length

end Record

end BlockIndex
