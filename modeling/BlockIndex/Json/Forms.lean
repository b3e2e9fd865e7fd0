import BlockIndex.Block
import BlockIndex.Config
import BlockIndex.Json.Fields
import BlockIndex.Snapshot

/-!
# JSON forms

How the library's values are written in JSON, and read where they are inputs: hashes as their shown
digits, bytes as base-16 text, networks by name or as a custom magic, and records by their fields.
-/

namespace BlockIndex

/-- What numbers of 32 bits lie below. -/
def limit32 : Nat := 0x1_0000_0000

/-- What numbers of 64 bits lie below. -/
def limit64 : Nat := 0x1_0000_0000_0000_0000

namespace Json

/-- A word of 32 bits. -/
def word32? (json : Json) : Option UInt32 := (json.natural? limit32).map UInt32.ofNat

/-- A hash. -/
def hash? (json : Json) : Option Hash :=
  match json.text? with
  | some text => (Hash.ofHex text).toOption
  | none => none

/-- A path. -/
def path? (json : Json) : Option Path := json.text?.map Path.ofText

/-- The network of a name. -/
def namedNetwork? (name : String) : Option Network :=
  if name = "mainnet" then some .mainnet
  else if name = "testnet" then some .testnet
  else if name = "regtest" then some .regtest
  else none

/-- A network: its name, or an object with one member, a name with `null` or a custom magic. -/
def network? : Json → Option Network
  | .object [(raw, value)] =>
    match (Json.string raw).text? with
    | none => none
    | some name =>
      if name = "custom" then (word32? value).map Network.custom
      else
        match value with
        | .null => namedNetwork? name
        | _ => none
  | .object _ => none
  | json =>
    match json.text? with
    | some name => namedNetwork? name
    | none => none

/-! ## Records -/

/-- The fields of a header in their order. -/
def headerFields : List String :=
  ["version", "prev_hash", "merkle_root", "timestamp", "bits", "nonce"]

/-- A header. -/
def header? (json : Json) : Option Header :=
  match fields headerFields false json with
  | some [version, prevHash, merkleRoot, timestamp, bits, nonce] => do
    let version ← required word32? version
    let prevHash ← required hash? prevHash
    let merkleRoot ← required hash? merkleRoot
    let timestamp ← required word32? timestamp
    let bits ← required word32? bits
    let nonce ← required word32? nonce
    return { version, prevHash, merkleRoot, timestamp, bits, nonce }
  | _ => none

/-- The fields of an entry in their order. -/
def entryFields : List String := ["hash", "height", "file_id", "offset", "length", "header"]

/-- An entry. -/
def entry? (json : Json) : Option Entry :=
  match fields entryFields false json with
  | some [hash, height, fileId, offset, length, header] => do
    let hash ← required hash? hash
    let height ← required (natural? limit32) height
    let fileId ← required (natural? limit32) fileId
    let offset ← required (natural? limit64) offset
    let length ← required (natural? limit32) length
    let header ← required header? header
    return { hash, height, fileId, offset, length, header }
  | _ => none

/-- A cursor. -/
def cursor? (json : Json) : Option Cursor :=
  match fields ["file_id", "offset"] false json with
  | some [fileId, offset] => do
    let fileId ← required (natural? limit32) fileId
    let offset ← required (natural? limit64) offset
    return { fileId, offset }
  | _ => none

/-- A fingerprint. -/
def fingerprint? (json : Json) : Option Fingerprint :=
  match fields ["len", "modified", "scanned_to"] false json with
  | some [len, modified, scannedTo] => do
    let len ← required (natural? limit64) len
    let modified ← maybe integer? modified
    let scannedTo ← required (natural? limit64) scannedTo
    return { len, modified, scannedTo }
  | _ => none

/-- The fields of a configuration in their order. -/
def configFields : List String :=
  ["blockdir", "cachedir", "network", "start_height", "start_hash", "end_height", "end_hash",
   "reorg_margin", "load_payload", "progress_interval"]

/-- A configuration; every field has a default. -/
def config? (json : Json) : Option Config :=
  match fields configFields true json with
  | some [blockdir, cachedir, network, startHeight, startHash, endHeight, endHash, reorgMargin,
      loadPayload, progressInterval] => do
    let d := Config.default
    let blockdir ← withDefault d.blockdir path? blockdir
    let cachedir ← maybe path? cachedir
    let network ← withDefault d.network network? network
    let startHeight ← withDefault d.startHeight (natural? limit32) startHeight
    let startHash ← maybe hash? startHash
    let endHeight ← maybe (natural? limit32) endHeight
    let endHash ← maybe hash? endHash
    let reorgMargin ← withDefault d.reorgMargin (natural? limit32) reorgMargin
    let loadPayload ← withDefault d.loadPayload bool? loadPayload
    let progressInterval ← withDefault d.progressInterval (natural? limit32) progressInterval
    return { blockdir, cachedir, network, startHeight, startHash, endHeight, endHash, reorgMargin,
             loadPayload, progressInterval }
  | _ => none

end Json

/-! ## Writing -/

/-- The number of a word. -/
def Json.ofWord32 (word : UInt32) : Json := .ofNat word.toNat

/-- Bytes as base-16 text. -/
def Json.ofBytes (bytes : Bytes) : Json := .string (Hex.encode bytes)

/-- A hash as its shown digits. -/
def Hash.toJson (hash : Hash) : Json := .string hash.toHex

/-- A network by its name, or its magic if it has none. -/
def Network.toJson : Network → Json
  | .custom magic => .object [("custom", .ofWord32 magic)]
  | network => .ofText network.name

/-- The fields of a header. -/
def Header.toJson (h : Header) : Json :=
  .object [("version", .ofWord32 h.version), ("prev_hash", h.prevHash.toJson),
    ("merkle_root", h.merkleRoot.toJson), ("timestamp", .ofWord32 h.timestamp),
    ("bits", .ofWord32 h.bits), ("nonce", .ofWord32 h.nonce)]

/-- The fields of an entry. -/
def Entry.toJson (e : Entry) : Json :=
  .object [("hash", e.hash.toJson), ("height", .ofNat e.height), ("file_id", .ofNat e.fileId),
    ("offset", .ofNat e.offset), ("length", .ofNat e.length), ("header", e.header.toJson)]

/-- The fields of a cursor. -/
def Cursor.toJson (c : Cursor) : Json :=
  .object [("file_id", .ofNat c.fileId), ("offset", .ofNat c.offset)]

/-- The fields of a fingerprint. -/
def Fingerprint.toJson (fp : Fingerprint) : Json :=
  .object [("len", .ofNat fp.len), ("modified", .ofMaybe .ofInt fp.modified),
    ("scanned_to", .ofNat fp.scannedTo)]

/-- The fields of a configuration. -/
def Config.toJson (c : Config) : Json :=
  .object [("blockdir", .ofText c.blockdir.text),
    ("cachedir", .ofMaybe (fun p => .ofText (Path.text p)) c.cachedir),
    ("network", c.network.toJson), ("start_height", .ofNat c.startHeight),
    ("start_hash", .ofMaybe Hash.toJson c.startHash), ("end_height", .ofMaybe .ofNat c.endHeight),
    ("end_hash", .ofMaybe Hash.toJson c.endHash), ("reorg_margin", .ofNat c.reorgMargin),
    ("load_payload", .bool c.loadPayload), ("progress_interval", .ofNat c.progressInterval)]

/-- The fields of an input. -/
def TransactionInput.toJson (input : TransactionInput) : Json :=
  .object [("prev_txid", input.prevTxid.toJson), ("prev_index", .ofWord32 input.prevIndex),
    ("script", .ofBytes input.script), ("sequence", .ofWord32 input.sequence),
    ("witness", .array (input.witness.map Json.ofBytes))]

/-- The fields of an output. -/
def TransactionOutput.toJson (output : TransactionOutput) : Json :=
  .object [("amount", .ofNat output.amount.toNat), ("script", .ofBytes output.script)]

/-- The fields of a transaction. -/
def Transaction.toJson (tx : Transaction) : Json :=
  .object [("txid", tx.txid.toJson), ("wtxid", tx.wtxid.toJson), ("version", .ofWord32 tx.version),
    ("segwit", .bool tx.segwit), ("inputs", .array (tx.inputs.map TransactionInput.toJson)),
    ("outputs", .array (tx.outputs.map TransactionOutput.toJson)),
    ("lock_time", .ofWord32 tx.lockTime), ("size", .ofWord32 tx.size),
    ("vsize", .ofWord32 tx.vsize)]

/-- The fields of a header view. -/
def HeaderView.toJson (view : HeaderView) : Json :=
  .object [("height", .ofNat view.height), ("length", .ofNat view.length),
    ("hash", view.hash.toJson), ("header", view.header.toJson),
    ("transaction_count", .ofMaybe .ofNat view.transactionCount)]

end BlockIndex
