import BlockIndex.BlockFile.Name
import BlockIndex.FileMap
import BlockIndex.Snapshot
import BlockIndex.Volume.Walk

/-!
# Block files of a directory

The regular files of a directory whose names are those of block files, by id.  Two names of one id
are an error; everything else in the directory is passed over.
-/

namespace BlockIndex

/-- A block file as its directory was listed. -/
structure BlockFile where
  id : Nat
  path : Path
  len : Nat
  modified : Option Int
  deriving DecidableEq, Repr, Inhabited

/-- What is kept of a file that was scanned up to an offset. -/
def BlockFile.fingerprint (file : BlockFile) (scannedTo : Nat) : Fingerprint :=
  ⟨file.len, file.modified, scannedTo⟩

/-- The block files of a directory. -/
abbrev BlockFiles := FileMap BlockFile

namespace BlockFiles

/-- Whether a member of a directory is a block file, and which. -/
def ofMember? (dir : Path) (entry : DirectoryEntry) : Option BlockFile :=
  match parseFileId entry.name with
  | none => none
  | some id =>
    if entry.isFile then some ⟨id, dir.join entry.name, entry.len, entry.modified⟩ else none

/-- Adds block files to those found, unless an id comes twice. -/
def collect (found : BlockFiles) : List BlockFile → Except Error BlockFiles
  | [] => .ok found
  | file :: rest =>
    match found.get? file.id with
    | some first => .error (.duplicateBlockFile file.id first.path file.path)
    | none => collect (found.insert file.id file) rest

/-- The block files among the members of a directory. -/
def ofEntries (dir : Path) (entries : List DirectoryEntry) : Except Error BlockFiles :=
  collect FileMap.empty (entries.filterMap (ofMember? dir))

/-- The block files of a directory of a volume. -/
def discover (v : Volume) (dir : Path) : Except Error BlockFiles :=
  match v.list dir with
  | .ok entries => ofEntries dir entries
  | .error problem => .error (.missingDirectory dir (.problem problem))

/-- The files of id `id` and above, ascending. -/
def fromId (files : BlockFiles) (id : Nat) : List BlockFile :=
  files.values.filter fun file => id ≤ file.id

/-- The file of the greatest id. -/
def last? (files : BlockFiles) : Option BlockFile := files.values.getLast?

end BlockFiles

end BlockIndex
