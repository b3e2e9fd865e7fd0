import BlockIndex.Hash
import BlockIndex.Path

/-!
# Errors

Everything that can go wrong while block files are scanned, indexed or walked.  An error is a
cause; its wording is `Error.message`, in this module only.

* `RecordFault`, `TransactionFault`, `CacheFault`, `ConfigFault`, `FileFault`  the causes of the
  errors that have several;
* `Error`                the errors themselves;
* `Error.isRecoverable`  whether a run heals the error by itself.
-/

namespace BlockIndex

/-! ## Causes -/

/-- What the file system reports of a failed call. -/
inductive FileProblem where
  | notFound
  | notADirectory
  | isADirectory
  | alreadyExists
  | unexpectedEof
  | invalidData
  | invalidInput
  | linkLoop
  | nameTooLong
  deriving DecidableEq, Repr

/-- Why a file could not be used. -/
inductive FileFault where
  /-- The file system's own report. -/
  | problem (problem : FileProblem)
  /-- A reason given in words. -/
  | other (reason : String)
  deriving DecidableEq, Repr

/-- Why a record cannot be used. -/
inductive RecordFault where
  /-- The file ends inside the eight bytes before the payload. -/
  | prefixTruncated (remain : Nat)
  /-- The declared length leaves no room for a header. -/
  | shorterThanHeader (declared : Nat)
  /-- The declared length runs past the end of the file. -/
  | overrun (declared remain : Nat)
  /-- No block file has the record's id. -/
  | fileGone
  /-- A read at a known position ran past the end of the file. -/
  | pastEnd
  /-- The record does not start with the network's magic. -/
  | wrongMagic (expected found : UInt32)
  /-- The payload no longer starts with the header of the block. -/
  | changed (hash : Hash)
  /-- A reason given in words. -/
  | other (reason : String)
  deriving DecidableEq, Repr

/-- Why transaction bytes cannot be decoded. -/
inductive TransactionFault where
  /-- A field of `needed` bytes where only `remain` are left. -/
  | missingBytes (needed remain : Nat)
  /-- A compact size that the data does not complete. -/
  | truncatedSize
  /-- A length prefix beyond the bytes left. -/
  | lengthExceeds (length remain : Nat)
  /-- A count of items that the bytes left cannot hold. -/
  | countExceeds (count : Nat)
  /-- A flag after the witness marker that is not one. -/
  | badFlag (flag : UInt8)
  /-- A reason given in words. -/
  | other (reason : String)
  deriving DecidableEq, Repr

/-- Why a persisted index cannot be used. -/
inductive CacheFault where
  /-- The database itself cannot be read or written. -/
  | engine
  /-- The database was written in another layout, or says nothing of it. -/
  | formatVersion (found : Option String) (expected : Nat)
  /-- The database was written for another network, or says nothing of it. -/
  | networkMagic (found : Option String) (expected : Nat)
  /-- A stored hash of the wrong size. -/
  | hashSize
  /-- A stored header of the wrong size. -/
  | headerSize
  /-- A stored offset below zero. -/
  | negativeOffset (value : Int)
  /-- A stored orphan whose hash is not its header's. -/
  | orphanHash (hash : Hash)
  /-- A stored cursor whose file id is no number of 32 bits. -/
  | cursorFile (text : String)
  /-- A stored cursor whose offset is no number of 64 bits. -/
  | cursorOffset (text : String)
  /-- A stored tip that is no hash. -/
  | tip (fault : HashFault)
  /-- An entry whose hash is not its header's. -/
  | entryHeader (hash : Hash)
  /-- An entry that links at another height than the stored one, or not at all. -/
  | entryHeight (hash : Hash) (stored : Nat) (linked : Option Nat)
  /-- A reason given in words. -/
  | other (reason : String)
  deriving DecidableEq, Repr

/-- Why a configuration is refused. -/
inductive ConfigFault where
  | blockdirRequired
  | startAboveEnd (start stop : Nat)
  | endTwice
  | badJson
  /-- A reason given in words. -/
  | other (reason : String)
  deriving DecidableEq, Repr

/-! ## Errors -/

/-- An error of scanning, indexing or walking. -/
inductive Error where
  | missingDirectory (path : Path) (fault : FileFault)
  | corruptRecord (fileId offset : Nat) (fault : RecordFault)
  | cacheCorrupt (fault : CacheFault)
  | cache (fault : CacheFault)
  | heightUnreachable (requested : Nat) (tip : Option Nat)
  | unknownBlock (hash : Hash)
  | duplicateBlockFile (fileId : Nat) (first second : Path)
  | invalidHash (fault : HashFault)
  | invalidTransaction (offset : Nat) (fault : TransactionFault)
  | config (fault : ConfigFault)
  | file (path : Path) (fault : FileFault)
  | handler (reason : String)
  deriving DecidableEq, Repr

/-! ## Wording -/

/-- What is said of a failed call. -/
def FileProblem.message : FileProblem → String
  | .notFound => "No such file or directory (os error 2)"
  | .notADirectory => "Not a directory (os error 20)"
  | .isADirectory => "Is a directory (os error 21)"
  | .alreadyExists => "File exists (os error 17)"
  | .unexpectedEof => "failed to fill whole buffer"
  | .invalidData => "stream did not contain valid UTF-8"
  | .invalidInput => "Invalid argument (os error 22)"
  | .linkLoop => "Too many levels of symbolic links (os error 40)"
  | .nameTooLong => "File name too long (os error 36)"

/-- What is said of a file fault. -/
def FileFault.message : FileFault → String
  | .problem p => p.message
  | .other reason => reason

/-- What is said of a record fault. -/
def RecordFault.message : RecordFault → String
  | .prefixTruncated remain => "record prefix truncated, " ++ toString remain ++ " bytes remain"
  | .shorterThanHeader declared =>
    "declared length " ++ toString declared ++ " is shorter than a header"
  | .overrun declared remain =>
    "declared " ++ toString declared ++ " bytes, " ++ toString remain ++ " remain"
  | .fileGone => "block file is gone"
  | .pastEnd => "record runs past end of file"
  | .wrongMagic expected found =>
    "expected magic " ++ Text.hexWord expected.toNat ++ ", found " ++ Text.hexWord found.toNat
  | .changed hash => "block " ++ hash.toHex ++ " changed on disk"
  | .other reason => reason

/-- What is said of a transaction fault. -/
def TransactionFault.message : TransactionFault → String
  | .missingBytes needed remain =>
    "need " ++ toString needed ++ " bytes, " ++ toString remain ++ " remain"
  | .truncatedSize => "truncated compact size"
  | .lengthExceeds length remain =>
    "length " ++ toString length ++ " exceeds " ++ toString remain ++ " remaining bytes"
  | .countExceeds count => "count " ++ toString count ++ " exceeds remaining bytes"
  | .badFlag flag => "segwit flag " ++ toString flag.toNat ++ ", expected 1"
  | .other reason => reason

/-- What is said of a cache fault. -/
def CacheFault.message : CacheFault → String
  | .engine => "sqlite"
  | .formatVersion found expected =>
    "format version " ++ Text.quotedMaybe found ++ ", expected " ++ toString expected
  | .networkMagic found expected =>
    "built for magic " ++ Text.quotedMaybe found ++ ", expected " ++ toString expected
  | .hashSize => "hash is not 32 bytes"
  | .headerSize => "header is not 80 bytes"
  | .negativeOffset value => "negative offset " ++ toString value
  | .orphanHash hash => "orphan " ++ hash.toHex ++ " does not hash"
  | .cursorFile text => "cursor file " ++ text
  | .cursorOffset text => "cursor offset " ++ text
  | .tip fault => "invalid hash: " ++ fault.message
  | .entryHeader hash => "entry " ++ hash.toHex ++ " does not match its header"
  | .entryHeight hash stored linked =>
    "entry " ++ hash.toHex ++ " cached at height " ++ toString stored ++ " links at "
      ++ Text.shownMaybe linked
  | .other reason => reason

/-- What is said of a configuration fault. -/
def ConfigFault.message : ConfigFault → String
  | .blockdirRequired => "blockdir is required"
  | .startAboveEnd start stop =>
    "start height " ++ toString start ++ " is above end height " ++ toString stop
  | .endTwice => "end_height and end_hash are mutually exclusive"
  | .badJson => "bad JSON"
  | .other reason => reason

namespace Error

/-- The best tip as errors show it. -/
def shownTip : Option Nat → String
  | some height => toString height
  | none => "no chain"

/-- A text between single quotes, as it is. -/
def inQuotes (s : String) : String := "'" ++ s ++ "'"

/-- What is said of an error. -/
def message : Error → String
  | .missingDirectory path fault =>
    "block directory " ++ inQuotes path.text ++ " is missing or unreadable: " ++ fault.message
  | .corruptRecord fileId offset fault =>
    "corrupt record in block file " ++ toString fileId ++ " at offset " ++ toString offset ++ ": "
      ++ fault.message
  | .cacheCorrupt fault => "index cache is corrupt: " ++ fault.message
  | .cache fault => "index cache error: " ++ fault.message
  | .heightUnreachable requested tip =>
    "height " ++ toString requested ++ " is unreachable (best tip: " ++ shownTip tip ++ ")"
  | .unknownBlock hash => "unknown block " ++ hash.toHex
  | .duplicateBlockFile fileId first second =>
    "duplicate block file for index " ++ toString fileId ++ ": " ++ inQuotes first.text ++ " and "
      ++ inQuotes second.text
  | .invalidHash fault => "invalid hash: " ++ fault.message
  | .invalidTransaction offset fault =>
    "invalid transaction data at byte " ++ toString offset ++ ": " ++ fault.message
  | .config fault => "configuration error: " ++ fault.message
  | .file path fault => "I/O error on " ++ inQuotes path.text ++ ": " ++ fault.message
  | .handler reason => "block handler failed: " ++ reason

/-- Whether a run heals the error by itself: a corrupt record ends its file, a corrupt cache is
discarded. -/
def isRecoverable : Error → Bool
  | .corruptRecord .. => true
  | .cacheCorrupt _ => true
  | _ => false

/-- Whether the error ends a run. -/
def isFatal (e : Error) : Bool := !e.isRecoverable

end Error

/-- A result that is no error, as it is shown where errors do not matter. -/
theorem eq_ok_of_toOption {ε α : Type} {result : Except ε α} {a : α}
    (h : result.toOption = some a) : result = .ok a := by
  cases result with
  | error e => simp [Except.toOption] at h
  | ok b => exact congrArg Except.ok (Option.some.inj h)

end BlockIndex
