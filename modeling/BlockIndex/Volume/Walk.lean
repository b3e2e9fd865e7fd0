import BlockIndex.Volume

/-!
# Walking through a volume

From a path to what it leads to.  Parts are taken one after the other: an empty part and `.` stay
where they are, `..` goes to the directory above, and any other part is looked up in the directory
reached so far.  A link is followed wherever it stands, so the last part of a path may lead on.

* `Volume.descend`  as far as the next link;
* `Volume.follow`   through links, of which only so many may be met;
* `Volume.reach`    a whole path from the root;
* `Volume.find`, `Volume.openFile`, `Volume.list`, `Volume.contains`  what stands at its end;
* `Volume.placeOf`  the name that a path ends in, which is not followed.
-/

namespace BlockIndex

namespace Volume

/-- How many links are followed on the way. -/
def maxLinks : Nat := 40

/-- How many bytes stand before every path: those of the root's own path and a slash. -/
def rootSize : Nat := 16

/-- A path, with what stands before it, has fewer bytes than this. -/
def pathLimit : Nat := 4096

/-- Where a walk ends. -/
inductive Arrival where
  /-- At a file or directory. -/
  | node (id : NodeNumber)
  /-- At a name that is free. -/
  | free (place : Place)
  deriving DecidableEq, Repr

/-- How far a walk comes without following a link. -/
inductive Descent where
  | arrived (arrival : Arrival)
  /-- A link stands in the way; this path leads on from the root. -/
  | link (onward : Path)
  deriving DecidableEq, Repr

/-- Goes on from a directory, as far as the next link. -/
def descend (v : Volume) (here : NodeNumber) : Path → Except FileProblem Descent
  | [] => .ok (.arrived (.node here))
  | part :: rest =>
    if Path.isIdle part then v.descend here rest
    else if part = ".." then v.descend (v.above here) rest
    else if isTooLong part then .error .nameTooLong
    else
      match v.occupant? ⟨here, part⟩ with
      | none => if rest.isEmpty then .ok (.arrived (.free ⟨here, part⟩)) else .error .notFound
      | some id =>
        match v.node? id with
        | some (.directory ..) => v.descend id rest
        | some (.file _) =>
          if rest.isEmpty then .ok (.arrived (.node id)) else .error .notADirectory
        | some (.link target) => .ok (.link (target ++ rest))
        | none => .error .notFound

/-- Goes on from a directory, through at most so many links. -/
def follow (v : Volume) : Nat → NodeNumber → Path → Except FileProblem Arrival
  | links, here, path =>
    match v.descend here path with
    | .error problem => .error problem
    | .ok (.arrived arrival) => .ok arrival
    | .ok (.link onward) =>
      match links with
      | 0 => .error .linkLoop
      | links + 1 => v.follow links root onward

/-- Whether a path can be asked for: it holds no zero character and is not too long. -/
def allow (path : Path) : Except FileProblem Unit :=
  if path.text.toList.contains (Char.ofNat 0) then .error .invalidInput
  else if pathLimit ≤ rootSize + path.text.utf8ByteSize then .error .nameTooLong
  else .ok ()

/-- Where a path leads. -/
def reach (v : Volume) (path : Path) : Except FileProblem Arrival :=
  match allow path with
  | .error problem => .error problem
  | .ok () => v.follow maxLinks root path

/-- The file or directory that a path leads to. -/
def find (v : Volume) (path : Path) : Except FileProblem NodeNumber :=
  match v.reach path with
  | .error problem => .error problem
  | .ok (.node id) => .ok id
  | .ok (.free _) => .error .notFound

/-- The file that a path leads to. -/
def openFile (v : Volume) (path : Path) : Except FileProblem NodeNumber :=
  match v.find path with
  | .error problem => .error problem
  | .ok id => if v.isDirectory id then .error .isADirectory else .ok id

/-- Whether a path leads to something. -/
def contains (v : Volume) (path : Path) : Bool :=
  match v.find path with
  | .ok _ => true
  | .error _ => false

/-- Whether a path leads to a directory. -/
def holdsDirectory (v : Volume) (path : Path) : Bool :=
  match v.find path with
  | .ok id => v.isDirectory id
  | .error _ => false

/-- Lists a directory. -/
def list (v : Volume) (path : Path) : Except FileProblem (List DirectoryEntry) :=
  match v.find path with
  | .error problem => .error problem
  | .ok id => if v.isDirectory id then .ok (v.entries id) else .error .notADirectory

/-- The directory that a path leads to, from the root and without regard to its length. -/
def directoryOf (v : Volume) (path : Path) : Except FileProblem NodeNumber :=
  match v.follow maxLinks root path with
  | .error problem => .error problem
  | .ok (.free _) => .error .notFound
  | .ok (.node id) => if v.isDirectory id then .ok id else .error .notADirectory

/-- The name that a path ends in, in the directory that the parts before it lead to. -/
def placeOf (v : Volume) (path : Path) : Except FileProblem Place :=
  match allow path with
  | .error problem => .error problem
  | .ok () =>
    match path.getLast? with
    | none => .error .isADirectory
    | some name =>
      match v.directoryOf path.dropLast with
      | .error problem => .error problem
      | .ok directory =>
        if Path.isIdle name ∨ name = ".." then .error .isADirectory
        else if isTooLong name then .error .nameTooLong
        else .ok ⟨directory, name⟩

end Volume

end BlockIndex
