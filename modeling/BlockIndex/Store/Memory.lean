import BlockIndex.Store

/-!
# Stores in memory

A store that holds its snapshot as a value.  Appended entries stay queued until a flush or a
truncation, so a run that fails before leaves the snapshot as it was.
-/

namespace BlockIndex

/-- A snapshot and the entries queued after it. -/
structure MemoryStore where
  committed : Snapshot
  queued : List Entry
  deriving DecidableEq, Repr

namespace MemoryStore

/-- A store that starts from a snapshot. -/
def ofSnapshot (snapshot : Snapshot) : MemoryStore := ⟨snapshot, []⟩

/-- The store that was never written. -/
def empty : MemoryStore := ofSnapshot Snapshot.empty

/-- The entries with one more, unless its hash is there already. -/
def addEntry (entries : List Entry) (entry : Entry) : List Entry :=
  if entries.any fun e => e.hash = entry.hash then entries else entries ++ [entry]

/-- The snapshot with the queued entries added. -/
def withQueued (store : MemoryStore) : Snapshot :=
  { store.committed with entries := store.queued.foldl addEntry store.committed.entries }

/-- The snapshot; what was queued is dropped. -/
def load (store : MemoryStore) : Snapshot × MemoryStore :=
  (store.committed, ⟨store.committed, []⟩)

/-- The store after a change; none fails. -/
def edit (store : MemoryStore) : Edit → MemoryStore
  | .append entry => { store with queued := store.queued ++ [entry] }
  | .truncate height => ofSnapshot (store.withQueued.truncate height)
  | .flush state => ofSnapshot (store.withQueued.apply state)
  | .reset => empty

instance : IndexStore MemoryStore where
  load store := (.ok store.load.1, store.load.2)
  edit change store := (.ok (), store.edit change)

end MemoryStore

end BlockIndex
