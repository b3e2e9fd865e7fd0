import BlockIndex.BlockFile.Scan
import BlockIndex.Config
import BlockIndex.Run.Resume

/-!
# Scanning a directory

The records of all block files from a cursor on, file after file, added to an assembler.  A corrupt
record ends its file and the scan goes on with the next one.  With a last height set, the scan stops
as soon as the tip is far enough past it.

* `Progress`   what a scan has changed so far;
* `Outcome`    where it stopped;
* `scanFrom`   the scan.
-/

namespace BlockIndex

/-- What a scan has changed so far. -/
structure Progress where
  assembler : Assembler
  /-- Entries to be stored, in the order in which they linked. -/
  edits : List Edit
  /-- How many records were read. -/
  records : Nat
  deriving DecidableEq, Repr

/-- Where a scan stopped. -/
structure Outcome where
  /-- The end of the last record read, or the corrupt record that ended the last file. -/
  stop : Cursor
  /-- For each file opened, the place up to which it is scanned. -/
  scanned : FileMap Nat
  deriving DecidableEq, Repr

namespace Progress

/-- A scan that has read nothing. -/
def start (a : Assembler) : Progress := ⟨a, [], 0⟩

/-- One more record. -/
def add (p : Progress) (record : Record) : Progress :=
  let added := p.assembler.absorb record
  ⟨added.2, p.edits ++ added.1, p.records + 1⟩

/-- Whether the tip has reached a target. -/
def reached (p : Progress) (target : Option Nat) : Bool :=
  match target, p.assembler.tipHeight? with
  | some target, some tip => target ≤ tip
  | _, _ => false

/-- Adds what a file yields, up to the target.  Answers the place up to which the file is scanned
and whether the target was reached. -/
def scanItems (p : Progress) (target : Option Nat) (scannedTo : Nat) :
    List (Except Error Record × Nat) → Except Error (Nat × Bool) × Progress
  | [] => (.ok (scannedTo, false), p)
  | (.ok record, place) :: rest =>
    let p := p.add record
    if p.reached target then (.ok (place, true), p) else p.scanItems target place rest
  | (.error (.corruptRecord ..), place) :: rest => p.scanItems target place rest
  | (.error e, _) :: _ => (.error e, p)

/-- Scans files in order from a cursor on, up to the target. -/
def scanFiles (p : Progress) (v : Volume) (magic : UInt32) (target : Option Nat) (cursor : Cursor)
    (outcome : Outcome) : List BlockFile → Except Error Outcome × Progress
  | [] => (.ok outcome, p)
  | file :: rest =>
    match cursor.resumeOffset file.id with
    | none => p.scanFiles v magic target cursor outcome rest
    | some offset =>
      match Scanner.openFile v file magic offset with
      | .error e => (.error e, p)
      | .ok scanner =>
        match p.scanItems target scanner.scannedTo scanner.scanAll with
        | (.error e, p) => (.error e, p)
        | (.ok (scannedTo, reached), p) =>
          let outcome := ⟨⟨file.id, scannedTo⟩, outcome.scanned.insert file.id scannedTo⟩
          if reached then (.ok outcome, p)
          else p.scanFiles v magic target cursor outcome rest

end Progress

/-- The height at which a scan may stop.  A last block may be on any branch, so with one set
everything is scanned. -/
def Config.stopHeight (c : Config) : Option Nat := if c.endHash.isSome then none else c.scanTarget

/-- Scans the block files from a cursor on.  Nothing is opened if the tip has reached the target
already. -/
def scanFrom (config : Config) (v : Volume) (files : BlockFiles) (a : Assembler) (cursor : Cursor) :
    Except Error Outcome × Progress :=
  let start := Progress.start a
  let outcome : Outcome := ⟨cursor, FileMap.empty⟩
  if start.reached config.stopHeight then (.ok outcome, start)
  else
    start.scanFiles v config.network.magic config.stopHeight cursor outcome
      (files.fromId cursor.fileId)

end BlockIndex
