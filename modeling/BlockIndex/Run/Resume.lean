import BlockIndex.Chain.Assembler
import BlockIndex.Run.Stale
import BlockIndex.Store

/-!
# Resuming

How a run goes on from a snapshot that was checked: entries from the lowest stale height on are
forgotten, the cursor moves back over every file that changed below it, orphans at or after the
cursor are left for the scan to find, and the rest is replayed.  A snapshot that cannot be replayed
is given up, and its store with it.

* `Snapshot.usable`     what of a checked snapshot can be used;
* `Assembler.absorb`    adds a record and says which entries are to be stored;
* `Resumed.ofSnapshot`  the replay;
* `resume`              all of it.
-/

namespace BlockIndex

/-! ## The cursor -/

namespace Snapshot

/-- From where on a file has to be scanned again, if it has to: a file that is new or has shrunk
from its beginning, any other that changed from where it was scanned to. -/
def rescanFrom? (snapshot : Snapshot) (file : BlockFile) : Option Nat :=
  match snapshot.files.get? file.id with
  | none => some 0
  | some fp =>
    if file.len < fp.len then some 0
    else if fp.matchesFile file.len file.modified then none
    else some fp.scannedTo

/-- The positions before the cursor from which files have to be scanned again. -/
def changedBelow (snapshot : Snapshot) (files : BlockFiles) : List Cursor :=
  (files.values.filter fun file => file.id ≤ snapshot.cursor.fileId).filterMap fun file =>
    (snapshot.rescanFrom? file).map (Cursor.mk file.id)

/-- The beginning of the cursor's file, if the file ends before the cursor. -/
def cutBelow (snapshot : Snapshot) (files : BlockFiles) : List Cursor :=
  match files.get? snapshot.cursor.fileId with
  | none => []
  | some file => if file.len < snapshot.cursor.offset then [⟨file.id, 0⟩] else []

/-- The snapshot with its cursor moved back over the files that changed. -/
def rewound (snapshot : Snapshot) (files : BlockFiles) : Snapshot :=
  { snapshot with
    cursor := snapshot.cursor.rewindToAll (snapshot.changedBelow files ++ snapshot.cutBelow files) }

/-- The snapshot with those orphans only that a scan does not come upon. -/
def withOrphansBelow (snapshot : Snapshot) : Snapshot :=
  { snapshot with
    orphans := snapshot.orphans.filter fun orphan => orphan.position < snapshot.cursor }

/-- What of a snapshot can be used: nothing from a stale height on, and the cursor before every
file that changed. -/
def usable (snapshot : Snapshot) (files : BlockFiles) (stale : Option Nat) : Snapshot :=
  let kept := match stale with
    | none => snapshot
    | some height => snapshot.truncate height
  (kept.rewound files).withOrphansBelow

end Snapshot

/-! ## The replay -/

namespace Assembler

/-- Adds a record.  The entries that link with it are to be stored. -/
def absorb (a : Assembler) (record : Record) : List Edit × Assembler :=
  match a.insert record with
  | (.linked ids, a) => ((a.entriesOf ids).map Edit.append, a)
  | (_, a) => ([], a)

/-- Adds records in order. -/
def absorbAll (a : Assembler) : List Record → List Edit × Assembler
  | [] => ([], a)
  | record :: rest =>
    let first := a.absorb record
    let others := first.2.absorbAll rest
    (first.1 ++ others.1, others.2)

end Assembler

/-- Where a scan starts from. -/
structure Resumed where
  /-- What was replayed; empty if the snapshot was given up. -/
  snapshot : Snapshot
  assembler : Assembler
  /-- What the replay changes in the store. -/
  edits : List Edit
  deriving DecidableEq, Repr

/-- Replays a snapshot, or gives it up. -/
def Resumed.ofSnapshot (snapshot : Snapshot) : Resumed :=
  match Assembler.empty.seed snapshot.entries snapshot.tip with
  | (.ok (), a) =>
    let replayed := a.absorbAll snapshot.orphans
    ⟨snapshot, replayed.2, replayed.1⟩
  | (.error _, _) => ⟨Snapshot.empty, Assembler.empty, [.reset]⟩

/-- Checks a snapshot against the block files and replays what can be used of it. -/
def resume (r : Reader) (v : Volume) (files : BlockFiles) (snapshot : Snapshot) :
    Except Error Resumed × Reader :=
  match snapshot.staleHeight r v files with
  | (.error e, r) => (.error e, r)
  | (.ok (stale, checked), r) =>
    let resumed := Resumed.ofSnapshot (checked.usable files stale)
    (.ok { resumed with edits := stale.toList.map Edit.truncate ++ resumed.edits }, r)

end BlockIndex
