import BlockIndex.Volume.Walk

/-!
# Changing a volume

Changes by path.  Writing goes through links; removing, making a directory and making a link are
about the name itself.

* `Volume.write`, `Volume.append`, `Volume.truncate`, `Volume.touch`  files;
* `Volume.remove`, `Volume.makeLink`                                  names;
* `Volume.makeDirectory`, `Volume.makeDirectories`  a directory, and those that lead to it.
-/

namespace BlockIndex

namespace Volume

/-! ## Files -/

/-- Writes the bytes of a file, which is made if it is missing. -/
def write (v : Volume) (path : Path) (bytes : Bytes) (time : Int) : Except FileProblem Volume :=
  match v.reach path with
  | .error problem => .error problem
  | .ok (.free place) => .ok (v.addNode place (.file ⟨.bytes bytes, time⟩))
  | .ok (.node id) =>
    if v.isDirectory id then .error .isADirectory else .ok (v.setFile id ⟨.bytes bytes, time⟩)

/-- Changes the file of a path in place. -/
def changeFile (v : Volume) (path : Path) (change : StoredFile → StoredFile) :
    Except FileProblem Volume :=
  match v.openFile path with
  | .error problem => .error problem
  | .ok id =>
    match v.file? id with
    | some file => .ok (v.setFile id (change file))
    | none => .error .notFound

/-- Adds bytes to a file. -/
def append (v : Volume) (path : Path) (bytes : Bytes) (time : Int) : Except FileProblem Volume :=
  v.changeFile path fun file => ⟨file.content.append bytes, time⟩

/-- Gives a file a length, cutting it or adding zeros. -/
def truncate (v : Volume) (path : Path) (len : Nat) (time : Int) : Except FileProblem Volume :=
  v.changeFile path fun file => ⟨file.content.resize len, time⟩

/-- Gives a file a modification time. -/
def touch (v : Volume) (path : Path) (time : Int) : Except FileProblem Volume :=
  v.changeFile path fun file => { file with modified := time }

/-! ## Names -/

/-- Takes away the name that a path ends in. -/
def remove (v : Volume) (path : Path) : Except FileProblem Volume :=
  match v.placeOf path with
  | .error problem => .error problem
  | .ok place =>
    match v.occupant? place with
    | none => .error .notFound
    | some id => if v.isDirectory id then .error .isADirectory else .ok (v.removeName place)

/-- Gives a node the name that a path ends in. -/
def makeNode (v : Volume) (path : Path) (node : NodeNumber → FileNode) :
    Except FileProblem Volume :=
  match v.placeOf path with
  | .error problem => .error problem
  | .ok place =>
    match v.occupant? place with
    | some _ => .error .alreadyExists
    | none => .ok (v.addNode place (node place.directory))

/-- Makes a symbolic link. -/
def makeLink (v : Volume) (path target : Path) : Except FileProblem Volume :=
  match allow target with
  | .error problem => .error problem
  | .ok () => v.makeNode path fun _ => .link target

/-! ## Directories -/

/-- Whether a path, slashes at its end apart, ends in no name of its own. -/
def endsInNoName (path : Path) : Bool :=
  match path.getLast? with
  | none => true
  | some part => part = "." || part = ".."

/-- Makes one directory.  Slashes at the end of the path do not count; where it ends in no name,
there is a directory already if the parts before lead to one. -/
def makeDirectory (v : Volume) (path : Path) : Except FileProblem Volume :=
  match allow path with
  | .error problem => .error problem
  | .ok () =>
    let path := (path.reverse.dropWhile fun part => part = "").reverse
    if endsInNoName path then
      match v.directoryOf path.dropLast with
      | .error problem => .error problem
      | .ok _ => .error .alreadyExists
    else v.makeNode path fun above => .directory above []

/-- Makes one directory, unless there is one. -/
def ensureDirectory (v : Volume) (path : Path) : Except FileProblem Volume :=
  match v.makeDirectory path with
  | .ok v => .ok v
  | .error problem => if v.holdsDirectory path then .ok v else .error problem

/-- Makes the first of some directories and, while the way to it is missing, the next one before.
Answers the volume with what was made also when it fails in the end. -/
def makeAlong (v : Volume) : List Path → Except FileProblem Unit × Volume
  | [] => (.ok (), v)
  | path :: above =>
    let way := match v.makeDirectory path with
      | .error .notFound => v.makeAlong above
      | _ => (.ok (), v)
    match way with
    | (.error problem, v) => (.error problem, v)
    | (.ok (), v) =>
      match v.ensureDirectory path with
      | .ok made => (.ok (), made)
      | .error problem => (.error problem, v)

/-- Makes a directory and those that lead to it. -/
def makeDirectories (v : Volume) (path : Path) : Except FileProblem Unit × Volume :=
  v.makeAlong (path :: path.ancestors)

end Volume

end BlockIndex
