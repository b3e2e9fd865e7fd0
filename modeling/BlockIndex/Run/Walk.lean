import BlockIndex.Block
import BlockIndex.BlockFile.Reader
import BlockIndex.Chain.Assembler
import BlockIndex.Json.Forms
import BlockIndex.Run.Range

/-!
# Walks

A chain that was assembled, and the blocks of a range of its heights, read as they are asked for.

* `Walk.load`   the block at a height;
* `Walk.take`   the first blocks of the range, up to the first that cannot be read;
* `Walk.run`    hands every block of the range to a handler.

A handler acts on a state, and its blocks are read from the volume that the state then holds: a
handler may change the very files that are walked.
-/

namespace BlockIndex

/-- A chain ready to be walked. -/
structure Walk where
  config : Config
  assembler : Assembler
  reader : Reader
  /-- The best chain, or the branch that ends at the last block asked for. -/
  chain : BestChain
  /-- The heights to walk; nothing if there is nothing to walk. -/
  range : Option Range
  /-- Whether the run started from entries of the cache. -/
  cacheReused : Bool
  /-- How many records the run read from block files. -/
  recordsScanned : Nat
  /-- How many times the best chain changed below its tip. -/
  reorgs : Nat
  deriving DecidableEq, Repr

/-- A block and its view. -/
structure Visit where
  block : Block
  view : HeaderView
  deriving DecidableEq, Repr

namespace Walk

/-! ## Reading blocks -/

/-- The record at a height of the chain. -/
def recordAt (w : Walk) (height : Nat) : Except Error Record :=
  match w.chain.hashAt? height with
  | none => .error (.heightUnreachable height w.chain.tipHeight?)
  | some hash =>
    match w.assembler.node? hash with
    | none => .error (.unknownBlock hash)
    | some node => .ok node.record

/-- The block of a record at a height, with a payload. -/
def blockOf (record : Record) (height : Nat) (payload : Bytes) : Block :=
  ⟨height, record.hash, record.header, record.fileId, record.offset, payload⟩

/-- Reads the block of a record.  If payloads are not wanted only the number of transactions is
read. -/
def visitOf (loadPayload : Bool) (r : Reader) (v : Volume) (record : Record) (height : Nat) :
    Except Error Visit × Reader :=
  if loadPayload then
    match r.payload v record with
    | (.error e, r) => (.error e, r)
    | (.ok payload, r) =>
      let block := blockOf record height payload
      (.ok ⟨block, HeaderView.ofRecord record height block.transactionCount⟩, r)
  else
    match r.transactionCount v record with
    | (.error e, r) => (.error e, r)
    | (.ok count, r) =>
      (.ok ⟨blockOf record height [], HeaderView.ofRecord record height count⟩, r)

/-- Reads the block at a height. -/
def load (w : Walk) (v : Volume) (height : Nat) : Except Error Visit × Walk :=
  match w.recordAt height with
  | .error e => (.error e, w)
  | .ok record =>
    let result := visitOf w.config.loadPayload w.reader v record height
    (result.1, { w with reader := result.2 })

/-- The heights to walk, ascending. -/
def heights (w : Walk) : List Nat :=
  match w.range with
  | none => []
  | some range => range.heights

/-- Reads the blocks at some heights, up to the first that cannot be read. -/
def loadAll (w : Walk) (v : Volume) : List Nat → List (Except Error Visit) × Walk
  | [] => ([], w)
  | height :: rest =>
    match w.load v height with
    | (.error e, w) => ([.error e], w)
    | (.ok visit, w) =>
      let others := w.loadAll v rest
      (.ok visit :: others.1, others.2)

/-- Reads the first `count` blocks of the range. -/
def take (w : Walk) (v : Volume) (count : Nat) : List (Except Error Visit) × Walk :=
  w.loadAll v (w.heights.take count)

end Walk

/-! ## Handlers -/

/-- Whether a run goes on after a block. -/
inductive Flow where
  | next
  | stop
  deriving DecidableEq, Repr

/-- What one run did. -/
structure Summary where
  /-- How many blocks were handed to the handler. -/
  blocks : Nat
  firstHeight : Option Nat
  lastHeight : Option Nat
  /-- The height of the best tip after the scan. -/
  tipHeight : Option Nat
  /-- Whether the handler ended the run. -/
  stopped : Bool
  cacheReused : Bool
  recordsScanned : Nat
  reorgs : Nat
  deriving DecidableEq, Repr

/-- The summary with one more block. -/
def Summary.count (s : Summary) (height : Nat) : Summary :=
  { s with
    blocks := s.blocks + 1
    firstHeight := some (s.firstHeight.getD height)
    lastHeight := some height }

/-- The fields of a summary. -/
def Summary.toJson (s : Summary) : Json :=
  .object [("blocks", .ofNat s.blocks), ("first_height", .ofMaybe .ofNat s.firstHeight),
    ("last_height", .ofMaybe .ofNat s.lastHeight), ("tip_height", .ofMaybe .ofNat s.tipHeight),
    ("stopped", .bool s.stopped), ("cache_reused", .bool s.cacheReused),
    ("records_scanned", .ofNat s.recordsScanned), ("reorgs", .ofNat s.reorgs)]

namespace Walk

/-- The summary of a walk that has not begun. -/
def summary (w : Walk) : Summary :=
  ⟨0, none, none, w.assembler.tipHeight?, false, w.cacheReused, w.recordsScanned, w.reorgs⟩

/-- Hands the blocks at some heights to a handler until it stops or fails, or a block cannot be
read. -/
def runHeights {σ : Type} (volume : σ → Volume)
    (handle : Visit → σ → Except Error Flow × σ) (w : Walk) (summary : Summary) (state : σ) :
    List Nat → Except Error Summary × σ
  | [] => (.ok summary, state)
  | height :: rest =>
    match w.load (volume state) height with
    | (.error e, _) => (.error e, state)
    | (.ok visit, w) =>
      let summary := summary.count height
      match handle visit state with
      | (.error e, state) => (.error e, state)
      | (.ok .stop, state) => (.ok { summary with stopped := true }, state)
      | (.ok .next, state) => w.runHeights volume handle summary state rest

/-- Hands every block of the range to a handler. -/
def run {σ : Type} (w : Walk) (volume : σ → Volume)
    (handle : Visit → σ → Except Error Flow × σ) (state : σ) : Except Error Summary × σ :=
  w.runHeights volume handle w.summary state w.heights

end Walk

end BlockIndex
