import BlockIndex.Hash

/-!
# Best chains

The hashes of a chain from its first block to its tip, one for each height.
-/

namespace BlockIndex

/-- The hashes of a chain, the first block's at height zero. -/
structure BestChain where
  hashes : List Hash
  deriving DecidableEq, Repr

namespace BestChain

/-- The chain without blocks. -/
def empty : BestChain := ⟨[]⟩

/-- The number of blocks. -/
def length (chain : BestChain) : Nat := chain.hashes.length

/-- Whether there are no blocks. -/
def isEmpty (chain : BestChain) : Bool := chain.hashes.isEmpty

/-- The hash of the last block. -/
def tip? (chain : BestChain) : Option Hash := chain.hashes.getLast?

/-- The height of the last block. -/
def tipHeight? (chain : BestChain) : Option Nat :=
  match chain.length with
  | 0 => none
  | n + 1 => some n

/-- The hash at a height. -/
def hashAt? (chain : BestChain) (height : Nat) : Option Hash := chain.hashes[height]?

/-- Heights and hashes, ascending. -/
def heights (chain : BestChain) : List (Nat × Hash) :=
  chain.hashes.zipIdx.map fun p => (p.2, p.1)

end BestChain

end BlockIndex
