import BlockIndex.Store

/-!
# Index caches

A store whose corruption is healed on loading: a corrupt store is reset and counts as empty.  The
cache also counts the entries queued since the last flush and notes whether its last loading found
any.
-/

namespace BlockIndex

/-- A store with what is known of its use. -/
structure IndexCache (σ : Type) where
  store : σ
  /-- Entries queued since the last flush. -/
  pending : Nat
  /-- Whether the last loading found entries. -/
  reused : Bool
  deriving DecidableEq, Repr

namespace IndexCache

variable {σ : Type} [IndexStore σ]

/-- A store not yet used. -/
def ofStore (store : σ) : IndexCache σ := ⟨store, 0, false⟩

/-- The snapshot of the store.  A corrupt store is reset and its snapshot is empty. -/
def load (cache : IndexCache σ) : Except Error Snapshot × IndexCache σ :=
  match IndexStore.load cache.store with
  | (.ok snapshot, store) => (.ok snapshot, { cache with store, reused := !snapshot.isEmpty })
  | (.error (.cacheCorrupt _), store) =>
    match IndexStore.edit .reset store with
    | (.ok (), store) => (.ok Snapshot.empty, { cache with store, reused := false })
    | (.error e, store) => (.error e, { cache with store })
  | (.error e, store) => (.error e, { cache with store })

/-- Makes a change. -/
def edit (change : Edit) (cache : IndexCache σ) : Except Error Unit × IndexCache σ :=
  let result := IndexStore.edit change cache.store
  let cache := { cache with store := result.2 }
  match change with
  | .append _ => (result.1, { cache with pending := cache.pending + 1 })
  | .truncate _ => (result.1, cache)
  | .flush _ =>
    match result.1 with
    | .ok () => (.ok (), { cache with pending := 0 })
    | .error e => (.error e, cache)
  | .reset => (result.1, { cache with pending := 0, reused := false })

end IndexCache

end BlockIndex
