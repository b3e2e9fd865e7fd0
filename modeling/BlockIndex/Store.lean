import BlockIndex.Error
import BlockIndex.Snapshot

/-!
# Index stores

What keeps an index cache between runs.  A store answers its snapshot and accepts edits; an edit
that fails leaves the store in some state of its own, which comes back beside the error.

* `Edit`        what a store can be asked to do;
* `IndexStore`  the two operations of a store;
* `applyEdits`  edits one after the other, up to the first that fails.
-/

namespace BlockIndex

/-- A change to a store. -/
inductive Edit where
  /-- Queues an entry; it lasts from the next flush on. -/
  | append (entry : Entry)
  /-- Forgets all entries at a height and above, queued ones too. -/
  | truncate (height : Nat)
  /-- Writes the queued entries and the progress of a scan. -/
  | flush (state : ScanState)
  /-- Forgets everything. -/
  | reset
  deriving DecidableEq, Repr

/-- A place that keeps snapshots. -/
class IndexStore (σ : Type) where
  /-- All that the store knows.  Entries queued and not flushed are dropped. -/
  load : σ → Except Error Snapshot × σ
  /-- Makes a change. -/
  edit : Edit → σ → Except Error Unit × σ

/-- Makes changes in order, up to the first that fails. -/
def applyEdits {σ : Type} (edit : Edit → σ → Except Error Unit × σ) :
    List Edit → σ → Except Error Unit × σ
  | [], store => (.ok (), store)
  | e :: rest, store =>
    match edit e store with
    | (.ok (), store) => applyEdits edit rest store
    | (.error fault, store) => (.error fault, store)

end BlockIndex
