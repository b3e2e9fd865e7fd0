import BlockIndex.Block
import BlockIndex.BlockFile.Discovery

/-!
# Reading single records

Reads of records whose position is known.  A reader keeps the two files opened last, so a file
stays readable through it after its name is removed.

* `Reader.recordAt`          the magic, length and header at an offset;
* `Reader.payload`           a record's payload, checked against its header;
* `Reader.transactionCount`  the count that follows a record's header.

Each answers beside the reader as it is afterwards, also when it fails.
-/

namespace BlockIndex

/-- The paths of block files, and what is kept open, the one opened first in front. -/
structure Reader where
  files : BlockFiles
  magic : UInt32
  /-- Ids of block files, and the nodes that their paths led to. -/
  opened : List (Nat × NodeNumber)
  deriving DecidableEq, Repr

namespace Reader

/-- How many files are kept open. -/
def maxOpen : Nat := 2

/-- A reader that has opened nothing. -/
def ofFiles (files : BlockFiles) (magic : UInt32) : Reader := ⟨files, magic, []⟩

/-- The files kept open after one more is opened. -/
def keep (opened : List (Nat × NodeNumber)) (fileId : Nat) (id : NodeNumber) :
    List (Nat × NodeNumber) :=
  (if opened.length = maxOpen then opened.drop 1 else opened) ++ [(fileId, id)]

/-- The path of a block file and what it leads to, which is opened unless it is kept open.  A
directory that has taken the file's name can be opened too. -/
def target (r : Reader) (v : Volume) (fileId : Nat) : Except Error (Path × NodeNumber) × Reader :=
  match r.files.get? fileId with
  | none => (.error (.corruptRecord fileId 0 .fileGone), r)
  | some file =>
    match r.opened.find? fun o => o.1 = fileId with
    | some o => (.ok (file.path, o.2), r)
    | none =>
      match v.find file.path with
      | .error problem => (.error (.file file.path (.problem problem)), r)
      | .ok id => (.ok (file.path, id), { r with opened := keep r.opened fileId id })

/-- Just `count` bytes of a block file. -/
def readAt (r : Reader) (v : Volume) (fileId offset count : Nat) : Except Error Bytes × Reader :=
  match r.target v fileId with
  | (.error e, r) => (.error e, r)
  | (.ok (path, id), r) =>
    match v.readExact id offset count with
    | .ok bytes => (.ok bytes, r)
    | .error .unexpectedEof => (.error (.corruptRecord fileId offset .pastEnd), r)
    | .error problem => (.error (.file path (.problem problem)), r)

/-- The record whose magic, length and header are in `raw`. -/
def parseRecord (magic : UInt32) (fileId offset : Nat) (raw : Bytes) : Except Error Record :=
  let found := word32 (raw.take 4)
  if found ≠ magic then .error (.corruptRecord fileId offset (.wrongMagic magic found))
  else
    match Header.ofBytes? (raw.drop Record.prefixSize) with
    | some header =>
      .ok (Record.ofHeader header (LittleEndian.decode ((raw.drop 4).take 4)) fileId offset)
    | none => .error (.corruptRecord fileId offset .pastEnd)

/-- Reads the magic, length and header at an offset. -/
def recordAt (r : Reader) (v : Volume) (fileId offset : Nat) : Except Error Record × Reader :=
  match r.readAt v fileId offset (Record.prefixSize + Header.size) with
  | (.error e, r) => (.error e, r)
  | (.ok raw, r) => (parseRecord r.magic fileId offset raw, r)

/-- Reads a record's payload, which must still start with its header. -/
def payload (r : Reader) (v : Volume) (record : Record) : Except Error Bytes × Reader :=
  match r.readAt v record.fileId record.payloadOffset record.length with
  | (.error e, r) => (.error e, r)
  | (.ok payload, r) =>
    if payload.take Header.size = record.header.encode then (.ok payload, r)
    else (.error (.corruptRecord record.fileId record.offset (.changed record.hash)), r)

/-- The most bytes that a count takes. -/
def maxCountSize : Nat := 9

/-- Reads the number of transactions that follows a record's header. -/
def transactionCount (r : Reader) (v : Volume) (record : Record) :
    Except Error (Option Nat) × Reader :=
  let available := min (record.length - Header.size) maxCountSize
  match r.readAt v record.fileId (record.payloadOffset + Header.size) available with
  | (.error e, r) => (.error e, r)
  | (.ok bytes, r) => (.ok ((CompactSize.decode? bytes).map (·.1)), r)

end Reader

end BlockIndex
