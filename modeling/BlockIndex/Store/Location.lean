import BlockIndex.Volume.Walk

/-!
# Where a database lies

A database is looked for by a rule of its own.  The parts of its path are taken by their text: `..`
takes back the name before it, whether or not there is such a directory.  A name that is a link
leads on from its target, through more links than a walk would follow, and a name that is missing is
kept.  What comes out is a path without links, whose length is limited.

* `Volume.trace`          as far as the next link;
* `Volume.locate`         the whole way;
* `Volume.openDatabase`   the file that is found there, or made.
-/

namespace BlockIndex

namespace Volume

/-- How many links are followed on the way to a database. -/
def maxDatabaseLinks : Nat := 201

/-- A path on the way to a database has fewer bytes than this. -/
def traceLimit : Nat := 512

/-- The most bytes that the path of a database has.  With the longest ending of a companion it still
keeps within `traceLimit`. -/
def databasePathLimit : Nat := 504

/-- How many bytes a list of names takes as a path, with what stands before it. -/
def fullSize (names : List String) : Nat :=
  names.foldl (fun size name => size + 1 + name.utf8ByteSize) (rootSize - 1)

/-- What a name is on the way to a database. -/
inductive Sighting where
  /-- A link, and its target. -/
  | link (target : Path)
  /-- Anything else, or nothing. -/
  | other
  deriving DecidableEq, Repr

/-- Looks at the last of some names.  Nothing is seen if it is too long or the names before it lead
through a file. -/
def sight? (v : Volume) (names : List String) : Option Sighting :=
  match v.placeOf names with
  | .error .notFound => some .other
  | .error _ => none
  | .ok place =>
    match (v.occupant? place).bind v.node? with
    | some (.link target) => some (.link target)
    | _ => some .other

/-- How far the way to a database is known. -/
inductive Trace where
  | ended (names : List String)
  /-- A link stands in the way; this path leads on from the root. -/
  | link (onward : Path)
  deriving DecidableEq, Repr

/-- Goes on from some names, as far as the next link. -/
def trace (v : Volume) (names : List String) : Path → Option Trace
  | [] => some (.ended names)
  | part :: rest =>
    if Path.isIdle part then v.trace names rest
    else if part = ".." then v.trace names.dropLast rest
    else
      let there := names ++ [part]
      if traceLimit ≤ fullSize there then none
      else
        match v.sight? there with
        | none => none
        | some (.link target) => some (.link (target ++ rest))
        | some .other => v.trace there rest

/-- The names that a database lies under, through at most so many links. -/
def locateFrom (v : Volume) : Nat → Path → Option (List String)
  | links, path =>
    match v.trace [] path with
    | none => none
    | some (.ended names) => if fullSize names ≤ databasePathLimit then some names else none
    | some (.link onward) =>
      match links with
      | 0 => none
      | links + 1 => v.locateFrom links onward

/-- The names that the database of a path lies under. -/
def locate (v : Volume) (path : Path) : Option (List String) :=
  v.locateFrom maxDatabaseLinks path

/-- Opens the database of a path.  If there is no such file an empty one is made. -/
def openDatabase (v : Volume) (path : Path) : Option (Place × NodeNumber × Volume) :=
  match v.locate path with
  | none => none
  | some names =>
    match v.placeOf names with
    | .error _ => none
    | .ok place =>
      match v.fileAt place with
      | .error _ => none
      | .ok (id, v) => some (place, id, v)

end Volume

end BlockIndex
