import BlockIndex.Network
import BlockIndex.Sorting
import BlockIndex.Store
import BlockIndex.Store.Tables
import BlockIndex.Text.Decimal

/-!
# Stores in a database

A store that keeps its snapshot in the tables of an index database.  Every change either commits as
a whole or leaves the tables as they were.  Appended entries are queued beside the database; a
change takes the queue before it starts, whether or not it succeeds.

* `TableReading`   what rows mean: a snapshot, or the first fault in them;
* `TableWriting`   the rows that a change writes;
* `DatabaseStore`  the store.

Numbers without a sign are stored as signed ones of 64 bits, modulo `2 ^ 64`.
-/

namespace BlockIndex

/-- The layout of the tables.  Others are not read. -/
def formatVersion : Nat := 2

/-- The name of the database in a cache directory. -/
def databaseName : String := "index.sqlite"

/-- A number as a signed one of 64 bits. -/
def signed64 (n : Nat) : Int := Int.bmod n 0x1_0000_0000_0000_0000

/-! ## Reading -/

namespace TableReading

/-- A fault in the tables. -/
def corrupt {α : Type} (fault : CacheFault) : Except Error α := .error (.cacheCorrupt fault)

/-- A number of 32 bits. -/
def number32 (value : Int) : Except Error Nat :=
  if 0 ≤ value ∧ value < 0x1_0000_0000 then .ok value.toNat else corrupt .engine

/-- An offset: a number that is not negative. -/
def offset (value : Int) : Except Error Nat :=
  if 0 ≤ value then .ok value.toNat else corrupt (.negativeOffset value)

/-- A hash. -/
def hash (bytes : Bytes) : Except Error Hash :=
  match Hash.ofBytes? bytes with
  | some hash => .ok hash
  | none => corrupt .hashSize

/-- A header. -/
def header (bytes : Bytes) : Except Error Header :=
  match Header.ofBytes? bytes with
  | some header => .ok header
  | none => corrupt .headerSize

/-- A linked block. -/
def entry (row : EntryRow) : Except Error Entry := do
  let height ← number32 row.height
  let fileId ← number32 row.fileId
  let length ← number32 row.length
  let hash ← hash row.hash
  let offset ← offset row.offset
  let header ← header row.header
  return ⟨hash, height, fileId, offset, length, header⟩

/-- A waiting record. -/
def orphan (row : OrphanRow) : Except Error Record := do
  let fileId ← number32 row.fileId
  let length ← number32 row.length
  let hash ← hash row.hash
  let header ← header row.header
  let offset ← offset row.offset
  let record := Record.ofHeader header length fileId offset
  if record.hash = hash then return record else corrupt (.orphanHash hash)

/-- A fingerprint and the id of its file. -/
def file (row : FileRow) : Except Error (Nat × Fingerprint) := do
  let fileId ← number32 row.fileId
  let len ← offset row.len
  let scannedTo ← offset row.scannedTo
  return (fileId, ⟨len, row.modified, scannedTo⟩)

/-- The meaning of every row, or the first fault. -/
def rows {α β : Type} (read : α → Except Error β) : List α → Except Error (List β)
  | [] => .ok []
  | row :: rest => do
    let value ← read row
    let values ← rows read rest
    return value :: values

/-- Orphans by position, those of equal position in the order in which they were stored. -/
def orphansByPosition (t : Tables) : List OrphanRow :=
  sortBy (fun x y => x.fileId < y.fileId || (x.fileId = y.fileId && x.offset ≤ y.offset)) t.orphans

/-- The stored cursor; the start unless both its parts are stored. -/
def cursor (t : Tables) : Except Error Cursor :=
  match t.setting? "cursor_file", t.setting? "cursor_offset" with
  | some file, some offset =>
    match Text.numeral? 0x1_0000_0000 file with
    | none => corrupt (.cursorFile file)
    | some fileId =>
      match Text.numeral? 0x1_0000_0000_0000_0000 offset with
      | none => corrupt (.cursorOffset offset)
      | some offset => .ok ⟨fileId, offset⟩
  | _, _ => .ok Cursor.start

/-- The stored tip. -/
def tip (t : Tables) : Except Error (Option Hash) :=
  match t.setting? "tip" with
  | none => .ok none
  | some text =>
    match Hash.ofHex text with
    | .ok hash => .ok (some hash)
    | .error fault => corrupt (.tip fault)

/-- Whether the tables have the layout and the network that are expected. -/
def stamps (magic : UInt32) (t : Tables) : Except Error Unit :=
  let version := t.setting? "format_version"
  let network := t.setting? "magic"
  if version ≠ some (toString formatVersion) then corrupt (.formatVersion version formatVersion)
  else if network ≠ some (toString magic.toNat) then corrupt (.networkMagic network magic.toNat)
  else .ok ()

/-- The snapshot that the tables hold. -/
def snapshot (magic : UInt32) (t : Tables) : Except Error Snapshot := do
  stamps magic t
  let entries ← rows entry t.entries
  let orphans ← rows orphan (orphansByPosition t)
  let files ← rows file t.files
  let cursor ← cursor t
  let tip ← tip t
  return ⟨entries, cursor, tip, FileMap.ofList files, orphans⟩

end TableReading

/-! ## Writing -/

namespace TableWriting

/-- The row of an entry. -/
def entryRow (e : Entry) : EntryRow :=
  ⟨e.hash.bytes, e.height, e.fileId, signed64 e.offset, e.length, e.header.encode⟩

/-- The row of a waiting record. -/
def orphanRow (r : Record) : OrphanRow :=
  ⟨r.hash.bytes, r.fileId, signed64 r.offset, r.length, r.header.encode⟩

/-- The row of a fingerprint. -/
def fileRow (fileId : Nat) (fp : Fingerprint) : FileRow :=
  ⟨fileId, signed64 fp.len, fp.modified, signed64 fp.scannedTo⟩

/-- Tables with the stamps that a database without them gets. -/
def stamp (magic : UInt32) (t : Tables) : Tables :=
  (t.putNewSetting "format_version" (toString formatVersion)).putNewSetting "magic"
    (toString magic.toNat)

/-- Adds the queued entries. -/
def queued (entries : List Entry) (t : Tables) : Tables :=
  (entries.map entryRow).foldl Tables.addEntry t

/-- Stores a cursor. -/
def cursor (c : Cursor) (t : Tables) : Tables :=
  (t.putSetting "cursor_file" (toString c.fileId)).putSetting "cursor_offset" (toString c.offset)

/-- Stores a tip, or that there is none. -/
def tip (hash : Option Hash) (t : Tables) : Tables :=
  match hash with
  | some hash => t.putSetting "tip" hash.toHex
  | none => t.removeSetting "tip"

/-- Stores the progress of a scan in place of what was stored.  When that was is noted as a text
that nothing reads. -/
def scanState (state : ScanState) (t : Tables) : Tables :=
  let emptied := { t with
    files := state.files.toList.map fun p => fileRow p.1 p.2
    orphans := [] }
  let filled := (state.orphans.map orphanRow).foldl Tables.addOrphan emptied
  (tip state.tip (cursor state.cursor filled)).putSetting "updated_at" ""

/-- The earliest position among rows. -/
def earliest? : List EntryRow → Option (Int × Int)
  | [] => none
  | row :: rest =>
    match earliest? rest with
    | none => some (row.fileId, row.offset)
    | some (fileId, offset) =>
      if fileId < row.fileId ∨ (fileId = row.fileId ∧ offset < row.offset) then some (fileId, offset)
      else some (row.fileId, row.offset)

/-- The stored cursor, or the start if none can be read. -/
def storedCursor (t : Tables) : Cursor :=
  match TableReading.cursor t with
  | .ok cursor => cursor
  | .error _ => Cursor.start

/-- Moves the stored cursor back to the position of a row. -/
def rewindCursor (position : Option (Int × Int)) (t : Tables) : Except Error Tables :=
  match position with
  | none => .ok t
  | some (fileId, offset) =>
    if 0 ≤ fileId ∧ fileId < 0x1_0000_0000 then
      .ok (cursor ((storedCursor t).rewindTo ⟨fileId.toNat, offset.toNat⟩) t)
    else .error (.cache .engine)

/-- Removes a stored tip that is no entry's hash.  A tip that cannot be read stays. -/
def dropLostTip (t : Tables) : Tables :=
  match t.setting? "tip" with
  | none => t
  | some text =>
    match Hash.ofHex text with
    | .error _ => t
    | .ok hash =>
      if t.entries.any fun r => r.hash = hash.bytes then t else t.removeSetting "tip"

/-- Forgets the entries at a height and above. -/
def truncate (height : Nat) (t : Tables) : Except Error Tables :=
  let dropped := t.entries.filter fun r => (height : Int) ≤ r.height
  let kept := t.entries.filter fun r => r.height < (height : Int)
  match rewindCursor (earliest? dropped) { t with entries := kept } with
  | .ok rewound => .ok (dropLostTip rewound)
  | .error e => .error e

end TableWriting

/-! ## The store -/

/-- An index database in use for one network, and the entries queued beside it. -/
structure DatabaseStore where
  database : Database
  magic : UInt32
  queued : List Entry
  deriving DecidableEq, Repr

namespace DatabaseStore

/-- A database taken into use. -/
def ofDatabase (database : Database) (network : Network) : DatabaseStore :=
  ⟨database, network.magic, []⟩

/-- A database of its own, kept nowhere. -/
def inMemory (network : Network) : DatabaseStore := ofDatabase .blank network

/-- The tables, made and stamped if they are missing. -/
def initialised (store : DatabaseStore) : Option Tables :=
  match store.database with
  | .unreadable => none
  | .blank => some (TableWriting.stamp store.magic Tables.empty)
  | .tables t => some (TableWriting.stamp store.magic t)

/-- The snapshot in the tables; what was queued is dropped. -/
def load (store : DatabaseStore) : Except Error Snapshot × DatabaseStore :=
  match store.initialised with
  | none => (.error (.cacheCorrupt .engine), { store with queued := [] })
  | some t =>
    (TableReading.snapshot store.magic t, { store with database := .tables t, queued := [] })

/-- A change of the tables after the queued entries are added.  It commits or nothing does; the
queue is taken either way. -/
def commit (store : DatabaseStore) (change : Tables → Except Error Tables) :
    Except Error Unit × DatabaseStore :=
  match store.database with
  | .tables t =>
    match change (TableWriting.queued store.queued t) with
    | .ok t => (.ok (), { store with database := .tables t, queued := [] })
    | .error e => (.error e, { store with queued := [] })
  | _ => (.error (.cache .engine), { store with queued := [] })

/-- Makes a change. -/
def edit (change : Edit) (store : DatabaseStore) : Except Error Unit × DatabaseStore :=
  match change with
  | .append entry => (.ok (), { store with queued := store.queued ++ [entry] })
  | .truncate height => store.commit (TableWriting.truncate height)
  | .flush state => store.commit fun t => .ok (TableWriting.scanState state t)
  | .reset =>
    (.ok (), { store with
      database := .tables (TableWriting.stamp store.magic Tables.empty), queued := [] })

instance : IndexStore DatabaseStore where
  load := load
  edit := edit

/-- Changes rows from outside.  Answers how many were put or removed, nothing if there are no
tables. -/
def tamper (store : DatabaseStore) (change : RowChange) : Option Nat × DatabaseStore :=
  match store.database with
  | .tables t => (some (change.count t), { store with database := .tables (change.apply t) })
  | _ => (none, store)

end DatabaseStore

end BlockIndex
