import BlockIndex.Volume.Walk

/-!
# Companions of a database

The files that may stand beside a database under its name with an ending: a log of changes, an index
of that log, and a journal of pages as they were.  They belong to whoever works on the database, who
makes them and takes them away in the end.  Before work begins, whatever stands in their places has
to be dealt with.

* `Volume.settleJournal`   a journal is deleted, unless it begins with a zero;
* `Volume.takeLog`         the log and its index are opened, and go in the end;
* `Volume.format`          an empty file becomes a database;
* `Volume.ready`           all that comes before work on a database, and whether it can begin.
-/

namespace BlockIndex

/-- A file beside a database. -/
inductive Companion where
  /-- Changes not yet in the database. -/
  | log
  /-- The index of the log, shared by all who work on the database. -/
  | logIndex
  /-- Pages as they were before a change. -/
  | journal
  deriving DecidableEq, Repr

/-- How the name of a companion ends. -/
def Companion.ending : Companion → String
  | .log => "-wal"
  | .logIndex => "-shm"
  | .journal => "-journal"

/-- The place of a companion. -/
def Place.companion (database : Place) (c : Companion) : Place :=
  ⟨database.directory, database.name ++ c.ending⟩

/-- What a file is as an index database: nothing yet if it holds at most one byte. -/
def Content.asDatabase : Content → Database
  | .database held => held
  | .bytes [] => .blank
  | .bytes [_] => .blank
  | .bytes _ => .unreadable

/-- The first byte of a file that is not empty.  That of a database is a letter. -/
def Content.firstByte? : Content → Option UInt8
  | .database _ => some 83
  | .bytes data => data.head?

namespace Volume

/-! ## Looking -/

/-- Whether a place leads to a directory or to a file that is not empty. -/
def stands (v : Volume) (place : Place) : Bool :=
  match v.follow maxLinks place.directory [place.name] with
  | .ok (.node id) =>
    match v.file? id with
    | some file => file.content.firstByte?.isSome
    | none => true
  | _ => false

/-- Whether a name is that of a directory. -/
def namesDirectory (v : Volume) (place : Place) : Bool :=
  match v.occupant? place with
  | some id => v.isDirectory id
  | none => false

/-- The file that has a name itself, not through a link. -/
def ownFile? (v : Volume) (place : Place) : Option StoredFile := (v.occupant? place).bind v.file?

/-! ## Getting ready -/

/-- Deletes a journal, unless it begins with a zero.  Answers whether it could be read. -/
def settleJournal (v : Volume) (database : Place) : Bool × Volume :=
  let journal := database.companion .journal
  if v.stands journal then
    match v.ownFile? journal with
    | none => (false, v)
    | some file => (true, if file.content.firstByte? = some 0 then v else v.removeName journal)
  else (true, v)

/-- Opens the log and its index, which are made if they are missing and go when work ends.  Answers
whether both could be opened. -/
def takeLog (v : Volume) (database : Place) : Bool × Volume :=
  match v.fileAt (database.companion .log) with
  | .error _ => (false, v)
  | .ok (_, v) =>
    match v.fileAt (database.companion .logIndex) with
    | .error _ => (false, v)
    | .ok (_, v) =>
      (true, (v.removeName (database.companion .log)).removeName (database.companion .logIndex))

/-- Makes a database without tables of an empty file.  Companions that stand there cannot be its own
and are deleted.  Answers whether it could be done. -/
def format (v : Volume) (database : Place) (id : NodeNumber) : Bool × Volume :=
  let journal := database.companion .journal
  let log := database.companion .log
  let v := if v.stands journal && !v.namesDirectory journal then v.removeName journal else v
  if v.stands log && v.namesDirectory log then (false, v)
  else
    let v := if v.stands log then v.removeName log else v
    match v.fileAt journal with
    | .error _ => (false, v)
    | .ok (_, v) =>
      (true, (v.removeName journal).setFile id ⟨.database .blank, defaultTime⟩)

/-- Gets a database ready for work.  Answers whether work can begin; one that cannot be read is
noticed only after its companions were dealt with. -/
def ready (v : Volume) (database : Place) (id : NodeNumber) : Bool × Volume :=
  match (v.file? id).map StoredFile.content with
  | none => (false, v)
  | some (.database _) =>
    match v.settleJournal database with
    | (false, v) => (false, v)
    | (true, v) => v.takeLog database
  | some content =>
    if content.asDatabase = .blank then
      match v.format database id with
      | (false, v) => (false, v)
      | (true, v) => v.takeLog database
    else
      match v.settleJournal database with
      | (false, v) => (false, v)
      | (true, v) =>
        (false, if v.stands (database.companion .log) then (v.takeLog database).2 else v)

end Volume

end BlockIndex
