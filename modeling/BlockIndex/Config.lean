import BlockIndex.Error
import BlockIndex.Network

/-!
# Configuration

The options of a run, with their defaults, and the combinations that are refused before any file is
touched.
-/

namespace BlockIndex

/-- The greatest height that can be asked for. -/
def maxHeight : Nat := 0xffff_ffff

/-- The options of a run. -/
structure Config where
  /-- The directory that holds the block files. -/
  blockdir : Path
  /-- The directory that holds the index database, or `none` to keep the index in memory. -/
  cachedir : Option Path
  network : Network
  /-- The first height to walk. -/
  startHeight : Nat
  /-- The first block to walk, in place of a first height. -/
  startHash : Option Hash
  /-- The last height to walk, or `none` for the tip. -/
  endHeight : Option Nat
  /-- The last block to walk, on whichever branch it is. -/
  endHash : Option Hash
  /-- How far past the last height the scan goes on, so that a fork near it is resolved. -/
  reorgMargin : Nat
  /-- Whether payloads are read for the caller. -/
  loadPayload : Bool
  /-- How many blocks lie between notes of progress; zero for none. -/
  progressInterval : Nat
  deriving DecidableEq, Repr

namespace Config

/-- The options where none is said, for a block directory. -/
def ofBlockdir (blockdir : Path) : Config where
  blockdir := blockdir
  cachedir := none
  network := .mainnet
  startHeight := 0
  startHash := none
  endHeight := none
  endHash := none
  reorgMargin := 100
  loadPayload := true
  progressInterval := 10000

/-- The options where none is said. -/
def default : Config := ofBlockdir (Path.ofText "")

instance : Inhabited Config := ⟨default⟩

/-- Refuses combinations of options that cannot be meant. -/
def validate (c : Config) : Except Error Unit :=
  if c.blockdir.isBlank then .error (.config .blockdirRequired)
  else
    match c.endHeight with
    | none => .ok ()
    | some stop =>
      if c.startHash.isNone ∧ stop < c.startHeight then
        .error (.config (.startAboveEnd c.startHeight stop))
      else if c.endHash.isSome then .error (.config .endTwice)
      else .ok ()

/-- The height at which a scan may stop, if a last height is set. -/
def scanTarget (c : Config) : Option Nat :=
  c.endHeight.map fun stop => min (stop + c.reorgMargin) maxHeight

end Config

end BlockIndex
