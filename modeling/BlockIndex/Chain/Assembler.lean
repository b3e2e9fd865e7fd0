import BlockIndex.Chain.Best
import BlockIndex.Chain.Waiting
import BlockIndex.Error
import BlockIndex.Reorg
import BlockIndex.Snapshot
import BlockIndex.Sorting

/-!
# Chain assembly

Records arrive in any order.  A record links when its parent is linked, one block higher, and a
record without a parent links at height zero; with each record link all that waited for it.  The
assembler keeps the best chain: the ancestry of the linked record of greatest height, the first
seen among equals.

* `Assembler.insert`    adds a record and says what became of it;
* `Assembler.seed`      replays the entries of a snapshot;
* `Assembler.branchTo`  the chain that ends at a linked block;
* `Assembler.unresolved`, `Assembler.linkedFrom`  what waits, and what is linked above a height.

Whenever the best chain changes below its tip an event is kept.  `persistedLen` counts the heights
of the best chain that the cache is known to hold.
-/

namespace BlockIndex

/-- A record and its height, once it is linked.  A height has no bound here.  A height that is a word
of 32 bits is the same one until `2 ^ 32` records are linked, each above the one before. -/
structure Node where
  record : Record
  height : Option Nat
  deriving DecidableEq, Repr

namespace Node

/-- A record that has not been linked. -/
def unlinked (record : Record) : Node := ⟨record, none⟩

/-- The hash of the block. -/
def hash (node : Node) : Hash := node.record.hash

/-- The hash of the block's parent. -/
def parentHash (node : Node) : Hash := node.record.parentHash

/-- Whether the record is connected to a first block. -/
def isLinked (node : Node) : Bool := node.height.isSome

end Node

/-- What became of an inserted record. -/
inductive Insertion where
  /-- It linked; the record and all that linked with it, parents first. -/
  | linked (ids : List NodeId)
  /-- It waits for its parent. -/
  | pending
  /-- It is known from the same position. -/
  | rescan
  /-- It is known from another position; the first copy stays. -/
  | duplicate
  deriving DecidableEq, Repr

/-- Records, their links, and the best chain. -/
structure Assembler where
  /-- All records, in the order in which they were first seen. -/
  nodes : List Node
  waiting : Waiting
  best : BestChain
  tip : Option NodeId
  /-- How many heights of the best chain the cache holds. -/
  persistedLen : Nat
  /-- Events not yet taken, the oldest first. -/
  reorgs : List ReorgEvent
  deriving DecidableEq, Repr

namespace Assembler

/-- The assembler without records. -/
def empty : Assembler := ⟨[], [], BestChain.empty, none, 0, []⟩

instance : Inhabited Assembler := ⟨empty⟩

/-! ## Look-up -/

/-- The record of a hash. -/
def node? (a : Assembler) (hash : Hash) : Option Node := a.nodes.find? fun n => n.hash = hash

/-- The number of the record of a hash. -/
def idOf? (a : Assembler) (hash : Hash) : Option NodeId :=
  a.nodes.findIdx? fun n => n.hash = hash

/-- The height of a linked block. -/
def heightOf? (a : Assembler) (hash : Hash) : Option Nat := (a.node? hash).bind Node.height

/-- The height of the best tip. -/
def tipHeight? (a : Assembler) : Option Nat := a.best.tipHeight?

/-- How many records are held, linked or not. -/
def length (a : Assembler) : Nat := a.nodes.length

/-- Whether no records are held. -/
def isEmpty (a : Assembler) : Bool := a.nodes.isEmpty

/-! ## The best chain -/

/-- Walks from a record at a height back to the best chain.  Answers the hashes above the place
where the two meet, lowest first after those in `path`, and the first height at which they
differ. -/
def meetBest (a : Assembler) : Nat → Node → List Hash → List Hash × Nat
  | 0, node, path =>
    if a.best.hashAt? 0 = some node.hash then (path, 1) else (node.hash :: path, 0)
  | height + 1, node, path =>
    if a.best.hashAt? (height + 1) = some node.hash then (path, height + 2)
    else if node.record.isGenesis then (node.hash :: path, 0)
    else
      match a.node? node.parentHash with
      | some parent => a.meetBest height parent (node.hash :: path)
      | none => (node.hash :: path, 0)

/-- Makes a linked record the tip, replacing what lies above the fork.  An event is raised if
anything is replaced. -/
def adopt (a : Assembler) (id : NodeId) (node : Node) (height : Nat) : Assembler :=
  let meeting := a.meetBest height node []
  let path := meeting.1
  let fork := meeting.2
  let dropped := a.best.hashes.drop fork
  let switched := { a with best := ⟨a.best.hashes.take fork ++ path⟩, tip := some id }
  if dropped.isEmpty then switched
  else
    let kind := ReorgKind.classify fork a.persistedLen
    { switched with
      persistedLen := if kind = .cacheReorg then fork else a.persistedLen
      reorgs := a.reorgs ++ [⟨fork, dropped, path, kind⟩] }

/-- Whether a record at a height beats the present tip: it is higher, or as high and seen
earlier. -/
def beatsTip (a : Assembler) (id : NodeId) (height : Nat) : Bool :=
  match a.tip with
  | none => true
  | some tip =>
    let tipHeight := a.best.tipHeight?.getD 0
    tipHeight < height || (height = tipHeight && id < tip)

/-! ## Linking -/

/-- Gives a record its height and lets it compete for the tip. -/
def linkNode (a : Assembler) (id : NodeId) (node : Node) (height : Nat) : Assembler :=
  let linked := { a with nodes := a.nodes.set id { node with height := some height } }
  if linked.beatsTip id height then linked.adopt id node height else linked

/-- Links the records on the stack, each at its height and with all that waits for it, depth
first, those that came first before the others.  `linked` holds the records linked so far, the
last one first. -/
def linkStack (a : Assembler) (stack : List (NodeId × Nat)) (linked : List NodeId) :
    List NodeId × Assembler :=
  match stack with
  | [] => (linked.reverse, a)
  | (id, height) :: others =>
    match a.nodes[id]? with
    | none => a.linkStack others linked
    | some node =>
      let children := (a.waiting.take node.hash).1
      let next := { a.linkNode id node height with waiting := (a.waiting.take node.hash).2 }
      next.linkStack (children.map (fun child => (child, height + 1)) ++ others) (id :: linked)
termination_by stack.length + Waiting.count a.waiting
decreasing_by
  · simp
  · have h := Waiting.count_take node.hash a.waiting
    simp only [List.length_append, List.length_map, List.length_cons]
    omega

/-- The height at which a record links now: zero without a parent, else one above its parent. -/
def linkHeight? (a : Assembler) (record : Record) : Option Nat :=
  if record.isGenesis then some 0 else (a.heightOf? record.parentHash).map (· + 1)

/-- Adds a record, linking it and all that waits for it. -/
def insert (a : Assembler) (record : Record) : Insertion × Assembler :=
  match a.node? record.hash with
  | some known =>
    if known.record.position = record.position then (.rescan, a) else (.duplicate, a)
  | none =>
    let id := a.nodes.length
    let added := { a with nodes := a.nodes ++ [Node.unlinked record] }
    match a.linkHeight? record with
    | some height =>
      let result := added.linkStack [(id, height)] []
      (.linked result.1, result.2)
    | none => (.pending, { added with waiting := a.waiting.push record.parentHash id })

/-! ## Branches -/

/-- The hashes from a first block to a record at a height, before those in `path`. -/
def ancestry (a : Assembler) : Nat → Node → List Hash → Except Error (List Hash)
  | 0, node, path => .ok (node.hash :: path)
  | height + 1, node, path =>
    match a.node? node.parentHash with
    | some parent => a.ancestry height parent (node.hash :: path)
    | none => .error (.unknownBlock node.parentHash)

/-- The chain that ends at a linked block, which need not be the best tip. -/
def branchTo (a : Assembler) (hash : Hash) : Except Error BestChain :=
  match a.node? hash with
  | none => .error (.unknownBlock hash)
  | some node =>
    match node.height with
    | none => .error (.unknownBlock hash)
    | some height =>
      match a.ancestry height node [] with
      | .ok hashes => .ok ⟨hashes⟩
      | .error e => .error e

/-- Makes a record the tip with its ancestry as best chain, raising no event. -/
def forceTip (a : Assembler) (id : NodeId) (hash : Hash) : Assembler :=
  match a.branchTo hash with
  | .ok branch => { a with best := branch, tip := some id }
  | .error _ => a

/-! ## Replaying entries -/

/-- Inserts entries until one is inconsistent: its hash is not its header's, or it does not link at
its height. -/
def replay (a : Assembler) : List Entry → Except Error Unit × Assembler
  | [] => (.ok (), a)
  | entry :: rest =>
    if entry.header.hash ≠ entry.hash then (.error (.cacheCorrupt (.entryHeader entry.hash)), a)
    else
      let a := (a.insert entry.toRecord).2
      let linked := a.heightOf? entry.hash
      if linked = some entry.height then a.replay rest
      else (.error (.cacheCorrupt (.entryHeight entry.hash entry.height linked)), a)

/-- Replays the entries of a snapshot and restores its tip.  All that was replayed counts as
persisted. -/
def seed (a : Assembler) (entries : List Entry) (tip : Option Hash) :
    Except Error Unit × Assembler :=
  match a.replay entries with
  | (.error e, a) => (.error e, a)
  | (.ok (), a) =>
    let a :=
      match tip with
      | none => a
      | some hash =>
        match a.idOf? hash with
        | none => a
        | some id => a.forceTip id hash
    (.ok (), { a with reorgs := [], persistedLen := a.best.length })

/-! ## Reports -/

/-- Takes the events raised since they were last taken. -/
def drainReorgs (a : Assembler) : List ReorgEvent × Assembler := (a.reorgs, { a with reorgs := [] })

/-- Notes that the cache now holds the whole best chain. -/
def markPersisted (a : Assembler) : Assembler := { a with persistedLen := a.best.length }

/-- How many records wait for a parent. -/
def unresolvedCount (a : Assembler) : Nat := Waiting.count a.waiting

/-- The records that wait for a parent, by position. -/
def unresolved (a : Assembler) : List Record :=
  sortBy (fun x y => x.position ≤ y.position)
    (a.waiting.ids.filterMap fun id => a.nodes[id]?.map Node.record)

/-- The linked records at `height` and above, by height and then in the order first seen. -/
def linkedFrom (a : Assembler) (height : Nat) : List NodeId :=
  let linked := a.nodes.zipIdx.filterMap fun (node, id) =>
    match node.height with
    | some h => if height ≤ h then some (h, id) else none
    | none => none
  (sortBy (fun x y => x.1 ≤ y.1) linked).map (·.2)

/-- The entry of a linked record. -/
def entryOf? (a : Assembler) (id : NodeId) : Option Entry :=
  match a.nodes[id]? with
  | some node => node.height.map (Entry.ofRecord node.record)
  | none => none

/-- The entries of those among some records that are linked. -/
def entriesOf (a : Assembler) (ids : List NodeId) : List Entry := ids.filterMap a.entryOf?

end Assembler

end BlockIndex
