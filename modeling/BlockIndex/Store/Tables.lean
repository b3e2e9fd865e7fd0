import BlockIndex.Bytes

/-!
# Index tables

The four tables of an index database.  Numbers in rows are signed and of 64 bits, hashes and
headers are byte strings of any size; what a row means is decided when it is read.

* `EntryRow`   linked blocks, unique by hash, in the order in which they were stored;
* `OrphanRow`  waiting records, unique by hash, in the order in which they were stored;
* `FileRow`    fingerprints, unique by file id, ascending;
* settings     texts, unique by key;
* `RowChange`  changes of rows that bypass every store.

An index database is in one of three states: unreadable, without tables, or with all four.
-/

namespace BlockIndex

/-- A stored linked block. -/
structure EntryRow where
  hash : Bytes
  height : Int
  fileId : Int
  offset : Int
  length : Int
  header : Bytes
  deriving DecidableEq, Repr

/-- A stored waiting record. -/
structure OrphanRow where
  hash : Bytes
  fileId : Int
  offset : Int
  length : Int
  header : Bytes
  deriving DecidableEq, Repr

/-- A stored fingerprint. -/
structure FileRow where
  fileId : Int
  len : Int
  modified : Option Int
  scannedTo : Int
  deriving DecidableEq, Repr

/-- The tables of an index database. -/
structure Tables where
  entries : List EntryRow
  orphans : List OrphanRow
  files : List FileRow
  settings : List (String × String)
  deriving DecidableEq, Repr

namespace Tables

/-- Tables without rows. -/
def empty : Tables := ⟨[], [], [], []⟩

instance : Inhabited Tables := ⟨empty⟩

/-! ## Settings -/

/-- The text of a key. -/
def setting? (t : Tables) (key : String) : Option String :=
  (t.settings.find? fun s => s.1 = key).map (·.2)

/-- Removes a key. -/
def removeSetting (t : Tables) (key : String) : Tables :=
  { t with settings := t.settings.filter fun s => s.1 ≠ key }

/-- Sets the text of a key. -/
def putSetting (t : Tables) (key value : String) : Tables :=
  { t with settings := (t.removeSetting key).settings ++ [(key, value)] }

/-- Sets the text of a key that has none. -/
def putNewSetting (t : Tables) (key value : String) : Tables :=
  if (t.setting? key).isSome then t else t.putSetting key value

/-! ## Rows -/

/-- Adds an entry, unless its hash is stored. -/
def addEntry (t : Tables) (row : EntryRow) : Tables :=
  if t.entries.any fun r => r.hash = row.hash then t
  else { t with entries := t.entries ++ [row] }

/-- Adds an orphan, unless its hash is stored. -/
def addOrphan (t : Tables) (row : OrphanRow) : Tables :=
  if t.orphans.any fun r => r.hash = row.hash then t
  else { t with orphans := t.orphans ++ [row] }

/-- Removes the entry of a hash. -/
def removeEntry (t : Tables) (hash : Bytes) : Tables :=
  { t with entries := t.entries.filter fun r => r.hash ≠ hash }

/-- Removes the orphan of a hash. -/
def removeOrphan (t : Tables) (hash : Bytes) : Tables :=
  { t with orphans := t.orphans.filter fun r => r.hash ≠ hash }

/-- Removes the fingerprint of a file. -/
def removeFile (t : Tables) (fileId : Int) : Tables :=
  { t with files := t.files.filter fun r => r.fileId ≠ fileId }

/-- Stores an entry last, in place of one with its hash. -/
def replaceEntry (t : Tables) (row : EntryRow) : Tables := (t.removeEntry row.hash).addEntry row

/-- Stores an orphan last, in place of one with its hash. -/
def replaceOrphan (t : Tables) (row : OrphanRow) : Tables := (t.removeOrphan row.hash).addOrphan row

/-- The fingerprints with one more in its place. -/
def placeFile (row : FileRow) : List FileRow → List FileRow
  | [] => [row]
  | r :: rest => if row.fileId < r.fileId then row :: r :: rest else r :: placeFile row rest

/-- Stores a fingerprint in place of that of its file. -/
def replaceFile (t : Tables) (row : FileRow) : Tables :=
  { t with files := placeFile row (t.removeFile row.fileId).files }

end Tables

/-! ## Changes from outside -/

/-- A table of an index database. -/
inductive TableName where
  | entries
  | orphans
  | files
  | settings
  deriving DecidableEq, Repr

/-- A change of rows that bypasses every store. -/
inductive RowChange where
  | putSetting (key value : String)
  | removeSetting (key : String)
  | putEntry (row : EntryRow)
  | putOrphan (row : OrphanRow)
  | putFile (row : FileRow)
  | removeEntry (hash : Bytes)
  | removeFile (fileId : Int)
  | clear (table : TableName)
  deriving DecidableEq, Repr

namespace RowChange

/-- The tables after a change.  A row takes the place of one with its key. -/
def apply (change : RowChange) (t : Tables) : Tables :=
  match change with
  | .putSetting key value => t.putSetting key value
  | .removeSetting key => t.removeSetting key
  | .putEntry row => t.replaceEntry row
  | .putOrphan row => t.replaceOrphan row
  | .putFile row => t.replaceFile row
  | .removeEntry hash => t.removeEntry hash
  | .removeFile fileId => t.removeFile fileId
  | .clear .entries => { t with entries := [] }
  | .clear .orphans => { t with orphans := [] }
  | .clear .files => { t with files := [] }
  | .clear .settings => { t with settings := [] }

/-- How many rows the tables have. -/
def rowCount (t : Tables) : Nat :=
  t.entries.length + t.orphans.length + t.files.length + t.settings.length

/-- How many rows a change puts or removes. -/
def count (change : RowChange) (t : Tables) : Nat :=
  match change with
  | .putSetting .. | .putEntry _ | .putOrphan _ | .putFile _ => 1
  | _ => rowCount t - rowCount (change.apply t)

end RowChange

/-! ## Databases -/

/-- An index database. -/
inductive Database where
  /-- Something that is no database. -/
  | unreadable
  /-- A database without tables. -/
  | blank
  | tables (tables : Tables)
  deriving DecidableEq, Repr, Inhabited

namespace Database

/-- The bytes of a page of a file that holds a database. -/
def pageSize : Nat := 4096

/-- How many pages a database has at least.  One is its catalogue.  The tables take one each, and so
do the count of entries, their two indexes, and those of the orphans and of the settings. -/
def leastPages : Database → Nat
  | .tables _ => 10
  | _ => 1

/-- How many bytes a file has at least that holds a database. -/
def leastSize (database : Database) : Nat := database.leastPages * pageSize

end Database

end BlockIndex
