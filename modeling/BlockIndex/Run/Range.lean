import BlockIndex.Chain.Assembler
import BlockIndex.Config

/-!
# Ranges of heights

The heights that a run walks: from the first height or block asked for to the last one, or to the
tip.  A range that the chain does not hold is an error, except that an empty chain may be walked
from its beginning.
-/

namespace BlockIndex

/-- Heights from `first` to `last`, both included. -/
structure Range where
  first : Nat
  last : Nat
  deriving DecidableEq, Repr

namespace Range

/-- The heights of a range, ascending. -/
def heights (range : Range) : List Nat :=
  List.range' range.first (range.last + 1 - range.first)

/-- The height of a block that is on a chain. -/
def heightOn (a : Assembler) (chain : BestChain) (hash : Hash) : Except Error Nat :=
  match a.heightOf? hash with
  | some height =>
    if chain.hashAt? height = some hash then .ok height else .error (.unknownBlock hash)
  | none => .error (.unknownBlock hash)

/-- The last height to walk; nothing on an empty chain. -/
def lastHeight (config : Config) (chain : BestChain) : Except Error (Option Nat) :=
  match config.endHeight, chain.tipHeight? with
  | none, tip => .ok tip
  | some stop, none => .error (.heightUnreachable stop none)
  | some stop, some tip =>
    if tip < stop then .error (.heightUnreachable stop (some tip)) else .ok (some stop)

/-- The first height to walk. -/
def firstHeight (config : Config) (a : Assembler) (chain : BestChain) : Except Error Nat :=
  match config.startHash with
  | some hash => heightOn a chain hash
  | none => .ok config.startHeight

/-- The heights to walk, or nothing if there is nothing to walk. -/
def resolve (config : Config) (a : Assembler) (chain : BestChain) :
    Except Error (Option Range) := do
  let last ← lastHeight config chain
  let first ← firstHeight config a chain
  match last with
  | some last =>
    if first ≤ last then return some ⟨first, last⟩
    else .error (.heightUnreachable first chain.tipHeight?)
  | none =>
    if first = 0 then return none else .error (.heightUnreachable first chain.tipHeight?)

end Range

end BlockIndex
