import BlockIndex.Run.Walk

/-!
# Lazy walks

The blocks of a walk one at a time, each read when it is asked for, from the volume as it is then.

* `Walk.blocks`      the walk over the whole range;
* `Blocks.next?`     the next block; nothing after the last one, and nothing after an error;
* `Blocks.answers`   what is answered when it is asked again and again.
-/

namespace BlockIndex

/-- A lazy walk over the range of a walk. -/
structure Blocks where
  /-- The walk, with its reader as the blocks so far have left it. -/
  walk : Walk
  /-- The height of the next block. -/
  next : Nat
  /-- The last height; nothing if there is nothing to walk any more. -/
  last : Option Nat
  deriving DecidableEq, Repr

/-- The blocks of a walk, none of which has been read. -/
def Walk.blocks (w : Walk) : Blocks :=
  match w.range with
  | some range => ⟨w, range.first, some range.last⟩
  | none => ⟨w, 0, none⟩

namespace Blocks

/-- Reads the next block. -/
def next? (b : Blocks) (v : Volume) : Option (Except Error Visit) × Blocks :=
  match b.last with
  | none => (none, b)
  | some last =>
    if last < b.next then (none, b)
    else
      match b.walk.load v b.next with
      | (.ok visit, w) => (some (.ok visit), ⟨w, b.next + 1, some last⟩)
      | (.error e, w) => (some (.error e), ⟨w, b.next + 1, none⟩)

/-- What is answered each time that a block is asked for, with the volumes of these times. -/
def answers (b : Blocks) : List Volume → List (Option (Except Error Visit))
  | [] => []
  | v :: rest =>
    let asked := b.next? v
    asked.1 :: asked.2.answers rest

end Blocks

end BlockIndex
