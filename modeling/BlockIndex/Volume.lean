import BlockIndex.Error
import BlockIndex.Store.Tables

/-!
# Volumes

The file tree in which block files and index databases live.  A volume is a row of numbered nodes:
files, directories and symbolic links.  A directory gives names to nodes; a node stays after its
name is removed, so what was opened by its number can be read on, and writing to a file changes it
for everyone who has opened it.

* `Volume.bytesOf`, `Volume.readExact`  reading what was opened;
* `Volume.entries`                      the members of a directory;
* `Volume.occupant?`, `Volume.fileAt`   what has a name, and the file that has it or gets it;
* `Volume.addNode`, `Volume.removeName`, `Volume.setFile`  changes of single nodes and names.
-/

namespace BlockIndex

/-! ## Nodes -/

/-- What a file holds. -/
inductive Content where
  | bytes (data : Bytes)
  | database (database : Database)
  deriving DecidableEq, Repr

/-- The bytes of a file, none if it is a database. -/
def Content.data : Content → Bytes
  | .bytes data => data
  | .database _ => []

/-- The content with bytes added.  A database says itself where it ends, so it stays what it is. -/
def Content.append (added : Bytes) : Content → Content
  | .bytes data => .bytes (data ++ added)
  | .database held => .database held

/-- The content cut to a length, or filled up with zeros.  Of a database that has lost its end, all
that can be said is that it begins with a letter. -/
def Content.resize (len : Nat) : Content → Content
  | .bytes data => .bytes (data.take len ++ List.replicate (len - data.length) 0)
  | .database held =>
    if held.leastSize ≤ len then .database held else .bytes (List.replicate len 83)

/-- A file. -/
structure StoredFile where
  content : Content
  /-- Modification time in nanoseconds since 1970. -/
  modified : Int
  deriving DecidableEq, Repr

/-- The number of a node in its volume. -/
abbrev NodeNumber := Nat

/-- A node of a file tree. -/
inductive FileNode where
  | file (file : StoredFile)
  /-- A directory: the one above it, and its members in the order in which they were named. -/
  | directory (above : NodeNumber) (members : List (String × NodeNumber))
  /-- A symbolic link.  Its target is a path from the root. -/
  | link (target : Path)
  deriving DecidableEq, Repr

/-- A name in a directory, whether or not there is such a member. -/
structure Place where
  directory : NodeNumber
  name : String
  deriving DecidableEq, Repr

/-- A member of a directory as a listing shows it.  A symbolic link is not a file. -/
structure DirectoryEntry where
  name : String
  isFile : Bool
  len : Nat
  /-- Modification time, if it can be written in 63 bits. -/
  modified : Option Int
  deriving DecidableEq, Repr

/-- A file tree. -/
structure Volume where
  /-- All nodes, named or not; the root stands first. -/
  nodes : Array FileNode
  deriving DecidableEq, Repr

namespace Volume

/-- The number of the root, which is its own directory above. -/
def root : NodeNumber := 0

/-- The volume with an empty root. -/
def empty : Volume := ⟨#[.directory root []]⟩

instance : Inhabited Volume := ⟨empty⟩

/-- The node of a number. -/
def node? (v : Volume) (id : NodeNumber) : Option FileNode := v.nodes[id]?

/-! ## Reading -/

/-- The offsets that a file can be read at, and the ends of what is read, lie below this one. -/
def offsetLimit : Nat := 0x8000_0000_0000_0000

/-- The file of a number. -/
def file? (v : Volume) (id : NodeNumber) : Option StoredFile :=
  match v.node? id with
  | some (.file file) => some file
  | _ => none

/-- Whether a number is that of a directory. -/
def isDirectory (v : Volume) (id : NodeNumber) : Bool :=
  match v.node? id with
  | some (.directory ..) => true
  | _ => false

/-- The bytes of the file of a number. -/
def bytesOf (v : Volume) (id : NodeNumber) : Bytes :=
  match v.file? id with
  | some file => file.content.data
  | none => []

/-- Just `count` bytes from an offset on.  A directory can be opened, but none of its bytes read. -/
def readExact (v : Volume) (id : NodeNumber) (offset count : Nat) : Except FileProblem Bytes :=
  if offsetLimit ≤ offset then .error .invalidInput
  else if count = 0 then .ok []
  else if offsetLimit ≤ offset + count then .error .invalidInput
  else if v.isDirectory id then .error .isADirectory
  else
    match splitFront count ((v.bytesOf id).drop offset) with
    | some (front, _) => .ok front
    | none => .error .unexpectedEof

/-- A time that is not before 1970 and can be written in 63 bits. -/
def knownTime (nanoseconds : Int) : Option Int :=
  if 0 ≤ nanoseconds ∧ nanoseconds < 0x8000_0000_0000_0000 then some nanoseconds else none

/-- The named members of a directory. -/
def members (v : Volume) (id : NodeNumber) : List (String × NodeNumber) :=
  match v.node? id with
  | some (.directory _ members) => members
  | _ => []

/-- The directory above a directory. -/
def above (v : Volume) (id : NodeNumber) : NodeNumber :=
  match v.node? id with
  | some (.directory above _) => above
  | _ => root

/-- A member of a directory as a listing shows it. -/
def entryOf (v : Volume) (name : String) (id : NodeNumber) : DirectoryEntry :=
  match v.file? id with
  | some file => ⟨name, true, file.content.data.length, knownTime file.modified⟩
  | none => ⟨name, false, 0, none⟩

/-- The members of a directory as a listing shows them. -/
def entries (v : Volume) (id : NodeNumber) : List DirectoryEntry :=
  (v.members id).map fun (name, id) => v.entryOf name id

/-- The node that has a name. -/
def occupant? (v : Volume) (place : Place) : Option NodeNumber :=
  ((v.members place.directory).find? fun member => member.1 = place.name).map (·.2)

/-! ## Changing -/

/-- The time that a changed file gets if none is said: a fixed moment of the year 2023. -/
def defaultTime : Int := 1700000000000000000

/-- The most bytes that a name has. -/
def nameLimit : Nat := 255

/-- Whether a name has more bytes than a directory takes. -/
def isTooLong (name : String) : Bool := nameLimit < name.utf8ByteSize

/-- Replaces a node. -/
def setNode (v : Volume) (id : NodeNumber) (node : FileNode) : Volume :=
  ⟨v.nodes.setIfInBounds id node⟩

/-- Replaces a file. -/
def setFile (v : Volume) (id : NodeNumber) (file : StoredFile) : Volume := v.setNode id (.file file)

/-- Replaces the names that a directory gives. -/
def setMembers (v : Volume) (id : NodeNumber) (members : List (String × NodeNumber)) : Volume :=
  v.setNode id (.directory (v.above id) members)

/-- The number that a new node gets. -/
def freshId (v : Volume) : NodeNumber := v.nodes.size

/-- Adds a node under a name that is free. -/
def addNode (v : Volume) (place : Place) (node : FileNode) : Volume :=
  setMembers ⟨v.nodes.push node⟩ place.directory
    (v.members place.directory ++ [(place.name, v.freshId)])

/-- Takes a name away. -/
def removeName (v : Volume) (place : Place) : Volume :=
  v.setMembers place.directory
    ((v.members place.directory).filter fun member => member.1 ≠ place.name)

/-- The file that has a name itself, not through a link.  If the name is free, an empty file gets
it. -/
def fileAt (v : Volume) (place : Place) : Except FileProblem (NodeNumber × Volume) :=
  if isTooLong place.name then .error .nameTooLong
  else
    match v.occupant? place with
    | none => .ok (v.freshId, v.addNode place (.file ⟨.bytes [], defaultTime⟩))
    | some id =>
      match v.node? id with
      | some (.file _) => .ok (id, v)
      | some (.directory ..) => .error .isADirectory
      | some (.link _) => .error .linkLoop
      | none => .error .notFound

end Volume

end BlockIndex
