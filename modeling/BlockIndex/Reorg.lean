import BlockIndex.Hash

/-!
# Reorganisations

A reorganisation is a change of the best chain below its previous tip.  One whose fork lies below
the heights that the index cache holds touches the cache; any other changes memory only.
-/

namespace BlockIndex

/-- Whether a reorganisation reaches below what the cache holds. -/
inductive ReorgKind where
  /-- The fork lies at or above the persisted heights. -/
  | branchSwitch
  /-- The fork lies below the persisted heights. -/
  | cacheReorg
  deriving DecidableEq, Repr

namespace ReorgKind

/-- The kind of a fork, given how many heights of the best chain are persisted. -/
def classify (forkHeight persistedLen : Nat) : ReorgKind :=
  if forkHeight < persistedLen then .cacheReorg else .branchSwitch

instance : ToString ReorgKind :=
  ⟨fun | .branchSwitch => "branch switch" | .cacheReorg => "cache reorg"⟩

end ReorgKind

/-- A change of the best chain below its previous tip. -/
structure ReorgEvent where
  /-- The first height whose block changed. -/
  forkHeight : Nat
  /-- Hashes taken off the best chain, lowest height first. -/
  dropped : List Hash
  /-- Hashes that replaced them, lowest height first. -/
  adopted : List Hash
  kind : ReorgKind
  deriving DecidableEq, Repr

namespace ReorgEvent

/-- How many blocks were taken off. -/
def depth (event : ReorgEvent) : Nat := event.dropped.length

/-- Whether persisted entries are affected. -/
def affectsCache (event : ReorgEvent) : Bool := event.kind = .cacheReorg

end ReorgEvent

end BlockIndex
