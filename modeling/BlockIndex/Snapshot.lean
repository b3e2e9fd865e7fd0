import BlockIndex.FileMap
import BlockIndex.Record

/-!
# Index snapshots

Everything that the index cache knows: where each linked block lies and at which height, how far
the block files have been scanned, what they looked like then, and the records that still wait for
a parent.

* `Entry`        a linked block, its position and its height;
* `Fingerprint`  what a block file looked like when it was last scanned;
* `ScanState`    what a run writes besides entries;
* `Snapshot`     all of it, with the two ways of forgetting: `dropOrphans` and `truncate`.

Forgetting a record always moves the cursor back to it, so that a scan finds it again.
-/

namespace BlockIndex

/-- A linked block: its identity, position and height. -/
structure Entry where
  hash : Hash
  height : Nat
  fileId : Nat
  offset : Nat
  /-- The length that the record declares. -/
  length : Nat
  header : Header
  deriving DecidableEq, Repr, Inhabited

namespace Entry

/-- The entry of a record at a height. -/
def ofRecord (record : Record) (height : Nat) : Entry :=
  ⟨record.hash, height, record.fileId, record.offset, record.length, record.header⟩

/-- The record of which the entry was made. -/
def toRecord (entry : Entry) : Record :=
  ⟨entry.hash, entry.header, entry.length, entry.fileId, entry.offset⟩

/-- Where the record stands. -/
def position (entry : Entry) : Cursor := ⟨entry.fileId, entry.offset⟩

@[simp] theorem toRecord_ofRecord (record : Record) (height : Nat) :
    (ofRecord record height).toRecord = record := rfl

@[simp] theorem ofRecord_toRecord (entry : Entry) : ofRecord entry.toRecord entry.height = entry :=
  rfl

end Entry

/-- What a block file looked like when it was last scanned. -/
structure Fingerprint where
  len : Nat
  /-- Modification time in nanoseconds since 1970, if it is known and can be written. -/
  modified : Option Int
  /-- Every record before this offset was read. -/
  scannedTo : Nat
  deriving DecidableEq, Repr, Inhabited

/-- Whether a file of this length and modification time is unchanged.  A file whose time is not
known never is. -/
def Fingerprint.matchesFile (fp : Fingerprint) (len : Nat) (modified : Option Int) : Bool :=
  fp.len = len && fp.modified.isSome && fp.modified = modified

/-- How far a scan has come: what a run writes besides entries. -/
structure ScanState where
  cursor : Cursor
  tip : Option Hash
  files : FileMap Fingerprint
  /-- Records before the cursor whose parent has not been seen. -/
  orphans : List Record
  deriving DecidableEq, Repr

/-- The state before any scan. -/
def ScanState.initial : ScanState := ⟨Cursor.start, none, FileMap.empty, []⟩

/-- Everything that an index cache knows. -/
structure Snapshot where
  /-- Linked blocks in the order in which they were stored, parents before children. -/
  entries : List Entry
  cursor : Cursor
  /-- The best tip when the state was last written. -/
  tip : Option Hash
  files : FileMap Fingerprint
  /-- Records that wait for a parent, by position. -/
  orphans : List Record
  deriving DecidableEq, Repr

namespace Snapshot

/-- The snapshot of a cache that was never written. -/
def empty : Snapshot := ⟨[], Cursor.start, none, FileMap.empty, []⟩

instance : Inhabited Snapshot := ⟨empty⟩

/-- Whether there are no entries. -/
def isEmpty (snapshot : Snapshot) : Bool := snapshot.entries.isEmpty

/-- The greatest height among the entries. -/
def maxHeight (snapshot : Snapshot) : Option Nat :=
  snapshot.entries.foldl
    (fun best entry => some (match best with | none => entry.height | some h => max h entry.height))
    none

/-- The entries whose records lie in a file. -/
def entriesIn (snapshot : Snapshot) (fileId : Nat) : List Entry :=
  snapshot.entries.filter fun entry => entry.fileId = fileId

/-- The snapshot with the progress of a scan written over it. -/
def apply (snapshot : Snapshot) (state : ScanState) : Snapshot :=
  { entries := snapshot.entries
    cursor := state.cursor
    tip := state.tip
    files := state.files
    orphans := state.orphans }

/-- Forgets the orphans chosen by `drop`, moving the cursor back to the earliest of them. -/
def dropOrphans (snapshot : Snapshot) (drop : Record → Bool) : Snapshot :=
  { snapshot with
    cursor := snapshot.cursor.rewindToAll ((snapshot.orphans.filter drop).map Record.position)
    orphans := snapshot.orphans.filter fun record => !drop record }

/-- How many orphans `drop` chooses. -/
def countOrphans (snapshot : Snapshot) (drop : Record → Bool) : Nat :=
  (snapshot.orphans.filter drop).length

/-- Forgets the entries at `height` and above, moving the cursor back to the earliest of them.  The
tip goes with its entry. -/
def truncate (snapshot : Snapshot) (height : Nat) : Snapshot :=
  let kept := snapshot.entries.filter fun entry => entry.height < height
  let dropped := snapshot.entries.filter fun entry => height ≤ entry.height
  { snapshot with
    entries := kept
    cursor := snapshot.cursor.rewindToAll (dropped.map Entry.position)
    tip := snapshot.tip.filter fun tip => kept.any fun entry => entry.hash = tip }

/-- How many entries lie at `height` and above. -/
def countFrom (snapshot : Snapshot) (height : Nat) : Nat :=
  (snapshot.entries.filter fun entry => height ≤ entry.height).length

end Snapshot

end BlockIndex
