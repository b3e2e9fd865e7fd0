import BlockIndex.BlockFile.Reader

/-!
# Stale records

A snapshot may speak of block files as they no longer are.  Before it is used it is compared with
the files: of a file that looks as it did, the first and the last entry are read again; of any
other, every entry and orphan; of a file that is gone or has shrunk, nothing need be read.

* `Reader.onDisk`         whether a record still stands at its position;
* `Condition`             how a file compares with what is known of it;
* `Snapshot.staleHeight`  the lowest height at which the snapshot and the files disagree, and the
                          snapshot without the orphans that are stale.

Each answers beside the reader as it is afterwards.
-/

namespace BlockIndex

/-! ## Records -/

namespace Reader

/-- Whether a record still stands at its position, with the same hash and length. -/
def onDisk (r : Reader) (v : Volume) (record : Record) : Except Error Bool × Reader :=
  match r.recordAt v record.fileId record.offset with
  | (.ok found, r) => (.ok (found.hash = record.hash && found.length = record.length), r)
  | (.error (.corruptRecord ..), r) => (.ok false, r)
  | (.error e, r) => (.error e, r)

/-- Whether all of some records stand at their positions.  Nothing is read after the first that does
not. -/
def allOnDisk (r : Reader) (v : Volume) : List Record → Except Error Bool × Reader
  | [] => (.ok true, r)
  | record :: rest =>
    match r.onDisk v record with
    | (.ok true, r) => r.allOnDisk v rest
    | (.ok false, r) => (.ok false, r)
    | (.error e, r) => (.error e, r)

/-- Those whose records no longer stand at their positions. -/
def moved {α : Type} (r : Reader) (v : Volume) (record : α → Record) :
    List α → Except Error (List α) × Reader
  | [] => (.ok [], r)
  | a :: rest =>
    match r.onDisk v (record a) with
    | (.error e, r) => (.error e, r)
    | (.ok found, r) =>
      match r.moved v record rest with
      | (.error e, r) => (.error e, r)
      | (.ok others, r) => (.ok (if found then others else a :: others), r)

end Reader

/-! ## Entries -/

namespace Entry

/-- The entry that stands first in its file, the first of equals. -/
def earliest? : List Entry → Option Entry
  | [] => none
  | e :: rest =>
    match earliest? rest with
    | none => some e
    | some f => if f.offset < e.offset then some f else some e

/-- The entry that stands last in its file, the last of equals. -/
def latest? : List Entry → Option Entry
  | [] => none
  | e :: rest =>
    match latest? rest with
    | none => some e
    | some f => if f.offset < e.offset then some e else some f

/-- The lowest height among entries. -/
def lowestHeight? : List Entry → Option Nat
  | [] => none
  | e :: rest =>
    match lowestHeight? rest with
    | none => some e.height
    | some height => some (min e.height height)

end Entry

/-- The lower of two heights that may be missing. -/
def lower : Option Nat → Option Nat → Option Nat
  | none, b => b
  | a, none => a
  | some a, some b => some (min a b)

/-! ## Files -/

/-- How a block file compares with what is known of it. -/
inductive Condition where
  /-- There is no such file, or it is shorter than it was. -/
  | gone
  /-- Its length and its time are what they were. -/
  | unchanged
  /-- It may hold anything. -/
  | changed
  deriving DecidableEq, Repr

namespace Snapshot

/-- The condition of a file. -/
def condition (snapshot : Snapshot) (files : BlockFiles) (fileId : Nat) : Condition :=
  match files.get? fileId, snapshot.files.get? fileId with
  | none, _ => .gone
  | some _, none => .changed
  | some file, some fp =>
    if file.len < fp.len then .gone
    else if fp.matchesFile file.len file.modified then .unchanged
    else .changed

/-- A file is gone: all its entries are stale, and its orphans are forgotten. -/
def dropFile (snapshot : Snapshot) (fileId : Nat) : Option Nat × Snapshot :=
  (Entry.lowestHeight? (snapshot.entriesIn fileId), snapshot.dropOrphans fun o => o.fileId = fileId)

/-- Reads the first and the last entry of a file again.  If either moved, all entries of the file
are stale. -/
def spotCheck (snapshot : Snapshot) (r : Reader) (v : Volume) (fileId : Nat) :
    Except Error (Option Nat) × Reader :=
  let entries := snapshot.entriesIn fileId
  let ends := (Entry.earliest? entries).toList ++ (Entry.latest? entries).toList
  match r.allOnDisk v (ends.map Entry.toRecord) with
  | (.error e, r) => (.error e, r)
  | (.ok true, r) => (.ok none, r)
  | (.ok false, r) => (.ok (Entry.lowestHeight? entries), r)

/-- Reads all entries and orphans of a file again.  Entries that moved are stale, orphans that moved
are forgotten. -/
def fullCheck (snapshot : Snapshot) (r : Reader) (v : Volume) (fileId : Nat) :
    Except Error (Option Nat × Snapshot) × Reader :=
  match r.moved v Entry.toRecord (snapshot.entriesIn fileId) with
  | (.error e, r) => (.error e, r)
  | (.ok stale, r) =>
    match r.moved v id (snapshot.orphans.filter fun o => o.fileId = fileId) with
    | (.error e, r) => (.error e, r)
    | (.ok lost, r) =>
      let kept := snapshot.dropOrphans fun o => lost.any fun l => l.hash = o.hash
      (.ok (Entry.lowestHeight? stale, kept), r)

/-- Compares what is known of one file with the file. -/
def checkFile (snapshot : Snapshot) (r : Reader) (v : Volume) (files : BlockFiles) (fileId : Nat) :
    Except Error (Option Nat × Snapshot) × Reader :=
  match snapshot.condition files fileId with
  | .gone => (.ok (snapshot.dropFile fileId), r)
  | .changed => snapshot.fullCheck r v fileId
  | .unchanged =>
    match snapshot.spotCheck r v fileId with
    | (.error e, r) => (.error e, r)
    | (.ok height, r) => (.ok (height, snapshot), r)

/-- Compares what is known of some files with the files. -/
def checkFiles (snapshot : Snapshot) (r : Reader) (v : Volume) (files : BlockFiles) :
    List Nat → Except Error (Option Nat × Snapshot) × Reader
  | [] => (.ok (none, snapshot), r)
  | fileId :: rest =>
    match snapshot.checkFile r v files fileId with
    | (.error e, r) => (.error e, r)
    | (.ok (height, snapshot), r) =>
      match snapshot.checkFiles r v files rest with
      | (.error e, r) => (.error e, r)
      | (.ok (other, snapshot), r) => (.ok (lower height other, snapshot), r)

/-- The ids of the files in which a snapshot has entries or orphans, ascending. -/
def mentionedFiles (snapshot : Snapshot) : List Nat :=
  (FileMap.ofList ((snapshot.entries.map fun e => (e.fileId, ()))
    ++ snapshot.orphans.map fun o => (o.fileId, ()))).ids

/-- The lowest height at which a snapshot and the files disagree, and the snapshot without its stale
orphans. -/
def staleHeight (snapshot : Snapshot) (r : Reader) (v : Volume) (files : BlockFiles) :
    Except Error (Option Nat × Snapshot) × Reader :=
  snapshot.checkFiles r v files snapshot.mentionedFiles

end Snapshot

end BlockIndex
