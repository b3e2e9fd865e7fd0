import BlockIndex.Json.Forms
import BlockIndex.Json.Parse
import BlockIndex.Volume.Walk

/-!
# Configuration files

A configuration kept as a JSON text in a file.  Options that the file does not say keep their
defaults, and the whole must be valid.
-/

namespace BlockIndex.Config

/-- The configuration that a text says. -/
def ofText (text : String) : Except Error Config :=
  match (Json.parse text).bind Json.config? with
  | none => .error (.config .badJson)
  | some config =>
    match config.validate with
    | .ok () => .ok config
    | .error e => .error e

/-- Reads a configuration file. -/
def read (v : Volume) (path : Path) : Except Error Config :=
  match v.openFile path with
  | .error problem => .error (.file path (.problem problem))
  | .ok id =>
    match String.fromUTF8? (ByteArray.mk (v.bytesOf id).toArray) with
    | none => .error (.file path (.problem .invalidData))
    | some text => ofText text

end BlockIndex.Config
