import BlockIndex.Store.Companion
import BlockIndex.Store.Database
import BlockIndex.Store.Location
import BlockIndex.Volume.Change

/-!
# Stores in a file

A database store whose database is a file of a volume.  What the store writes is in the file at
once; entries are queued beside it.

* `FileStore.openIn`   opens the database of a cache directory, which is made if it is missing;
* `FileStore.inner`    the same store without the file around it;
* `FileStore.ready`    begins work on the database, if it has not begun;
* `FileStore.load`, `FileStore.edit`  the operations of a store;
* `FileStore.reset`    deletes the file and its companions and begins again;
* `FileStore.tamper`   changes rows from outside.

The first loading gets the database ready.  What is in its way then makes it fail like a database
that cannot be read.  Once work has begun, the store keeps its file, whatever becomes of the name
under which it was found.
-/

namespace BlockIndex

/-- The path of the database of a cache directory. -/
def databasePath (cachedir : Path) : Path := cachedir.join databaseName

/-- The path of a companion of that database. -/
def companionPath (cachedir : Path) (c : Companion) : Path :=
  cachedir.join (databaseName ++ c.ending)

/-- The paths of that database and of the log that belongs to it. -/
def databaseFiles (cachedir : Path) : List Path :=
  [databasePath cachedir, companionPath cachedir .log, companionPath cachedir .logIndex]

/-- An index database in a volume, in use for one network, and the entries queued beside it. -/
structure FileStore where
  volume : Volume
  cachedir : Path
  /-- The name under which the database was found. -/
  place : Place
  /-- The file of the database. -/
  id : NodeNumber
  magic : UInt32
  queued : List Entry
  /-- Whether work on the database has begun. -/
  atWork : Bool
  deriving DecidableEq, Repr

namespace FileStore

/-! ## The file -/

/-- The database in the file. -/
def database (store : FileStore) : Database :=
  match store.volume.file? store.id with
  | some file => file.content.asDatabase
  | none => .unreadable

/-- The store without the file around it. -/
def inner (store : FileStore) : DatabaseStore := ⟨store.database, store.magic, store.queued⟩

/-- Writes tables into the file. -/
def writeTables (store : FileStore) (t : Tables) : FileStore :=
  { store with
    volume := store.volume.setFile store.id ⟨.database (.tables t), Volume.defaultTime⟩ }

/-- The store after its inner one has changed. -/
def withInner (store : FileStore) (inner : DatabaseStore) : FileStore :=
  let store := { store with queued := inner.queued }
  match inner.database with
  | .tables t => store.writeTables t
  | _ => store

/-- The file that the log belongs to, which is found by the name of the database.  A file without
tables leaves it to the one that has got its name since, unless that one is empty too. -/
def logOwner (store : FileStore) (named : NodeNumber) : NodeNumber :=
  match store.database, store.volume.file? named with
  | .blank, some file => if file.content.asDatabase = .blank then store.id else named
  | _, _ => store.id

/-- Begins work under the name of the database, which some file has. -/
def beginUnder (store : FileStore) (named : NodeNumber) : Bool × FileStore :=
  let owner := store.logOwner named
  match store.volume.ready store.place store.id with
  | (false, v) => (false, { store with volume := v })
  | (true, v) =>
    let v := if owner = store.id then v
      else v.setFile owner ⟨.database .blank, Volume.defaultTime⟩
    (true, { store with volume := v, id := owner, atWork := true })

/-- Begins work on the database, if it has not begun, and answers whether it goes on. -/
def ready (store : FileStore) : Bool × FileStore :=
  if store.atWork then (true, store)
  else
    match store.volume.occupant? store.place with
    | none => (false, store)
    | some named => store.beginUnder named

/-- What work finds: the tables, once it has begun.  It is not begun without any. -/
def found (store : FileStore) : Database × FileStore :=
  match store.database with
  | .tables _ =>
    match store.ready with
    | (false, store) => (.unreadable, store)
    | (true, store) => (store.database, store)
  | database => (database, store)

/-! ## Operations -/

/-- Makes a cache directory and opens the database in it. -/
def openIn (v : Volume) (cachedir : Path) (network : Network) : Except Error FileStore × Volume :=
  match v.makeDirectories cachedir with
  | (.error problem, v) => (.error (.file cachedir (.problem problem)), v)
  | (.ok (), v) =>
    match v.openDatabase (databasePath cachedir) with
    | none => (.error (.cache .engine), v)
    | some (place, id, v) => (.ok ⟨v, cachedir, place, id, network.magic, [], false⟩, v)

/-- The snapshot in the file; what was queued is dropped. -/
def load (store : FileStore) : Except Error Snapshot × FileStore :=
  match store.ready with
  | (false, store) => (.error (.cacheCorrupt .engine), { store with queued := [] })
  | (true, store) => (store.inner.load.1, store.withInner store.inner.load.2)

/-- Deletes files that may be missing, up to the first that cannot be deleted. -/
def deleteAll (v : Volume) : List Path → Except Error Unit × Volume
  | [] => (.ok (), v)
  | path :: rest =>
    match v.remove path with
    | .ok v => deleteAll v rest
    | .error .notFound => deleteAll v rest
    | .error problem => (.error (.file path (.problem problem)), v)

/-- Deletes the file and the log beside it, by their names in the cache directory, and begins again
with what is then found there. -/
def reset (store : FileStore) : Except Error Unit × FileStore :=
  let store := { store with queued := [], atWork := false }
  match deleteAll store.volume (databaseFiles store.cachedir) with
  | (.error e, v) => (.error e, { store with volume := v })
  | (.ok (), v) =>
    match v.openDatabase (databasePath store.cachedir) with
    | none => (.error (.cache .engine), { store with volume := v })
    | some (place, id, v) =>
      match ready { store with volume := v, place, id } with
      | (false, store) => (.error (.cache .engine), store)
      | (true, store) =>
        match store.inner.initialised with
        | none => (.error (.cache .engine), store)
        | some t => (.ok (), store.writeTables t)

/-- Makes a change. -/
def edit (change : Edit) (store : FileStore) : Except Error Unit × FileStore :=
  match change with
  | .append entry => (.ok (), { store with queued := store.queued ++ [entry] })
  | .reset => store.reset
  | change =>
    let (database, store) := store.found
    let result := DatabaseStore.edit change { store.inner with database }
    (result.1, store.withInner result.2)

instance : IndexStore FileStore where
  load := load
  edit := edit

/-! ## Changes from outside -/

/-- Changes rows of the database, as someone else would who opened it. -/
def tamper (store : FileStore) (change : RowChange) : Option Nat × FileStore :=
  let (database, store) := store.found
  let result := DatabaseStore.tamper { store.inner with database } change
  (result.1, store.withInner result.2)

end FileStore

end BlockIndex
