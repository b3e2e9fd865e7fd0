import BlockIndex.Cache
import BlockIndex.Run.Scan
import BlockIndex.Run.Walk
import BlockIndex.Store.File
import BlockIndex.Store.Memory

/-!
# Preparing a run

From a configuration to a chain ready to be walked: load the cache, check it, scan, write what is
new, and find the range.  Everything is written before the range is found, so a range out of reach
does not lose the scan.

* `plan`         what a run does with a loaded snapshot: the changes of the store, and the walk or
                 error that follows them;
* `prepareWith`  the run over a store;
* `prepare`      the run over a volume.
-/

namespace BlockIndex

/-! ## What is written -/

/-- The lowest fork among the events that reach below what the cache holds. -/
def lowestCacheFork? (events : List ReorgEvent) : Option Nat :=
  ((events.filter ReorgEvent.affectsCache).map ReorgEvent.forkHeight).min?

/-- The linked records from a fork on, stored in place of what was there. -/
def replaceFrom (a : Assembler) (fork : Nat) : List Edit :=
  .truncate fork :: (a.entriesOf (a.linkedFrom fork)).map Edit.append

/-- The fingerprints to keep: fresh ones of the files that were scanned, the previous ones of the
others. -/
def freshFingerprints (files : BlockFiles) (previous : FileMap Fingerprint)
    (scanned : FileMap Nat) : FileMap Fingerprint :=
  FileMap.ofList <| files.values.filterMap fun file =>
    match scanned.get? file.id with
    | some scannedTo => some (file.id, file.fingerprint scannedTo)
    | none => (previous.get? file.id).map fun fp => (file.id, fp)

/-- How far a scan has come. -/
def reachedState (files : BlockFiles) (previous : FileMap Fingerprint) (a : Assembler)
    (outcome : Outcome) : ScanState where
  cursor := outcome.stop
  tip := a.best.tip?
  files := freshFingerprints files previous outcome.scanned
  orphans := a.unresolved

/-- What is written after a scan. -/
def persistEdits (files : BlockFiles) (previous : FileMap Fingerprint) (events : List ReorgEvent)
    (a : Assembler) (outcome : Outcome) : List Edit :=
  let replaced := match lowestCacheFork? events with
    | none => []
    | some fork => replaceFrom a fork
  replaced ++ [.flush (reachedState files previous a outcome)]

/-! ## The run -/

/-- The chain to walk. -/
def chainFor (config : Config) (a : Assembler) : Except Error BestChain :=
  match config.endHash with
  | some hash => a.branchTo hash
  | none => .ok a.best

/-- The walk over an assembled chain. -/
def walkOver (config : Config) (r : Reader) (a : Assembler) (cacheReused : Bool)
    (records reorgs : Nat) : Except Error Walk := do
  let chain ← chainFor config a
  let range ← Range.resolve config a chain
  return ⟨config, a, r, chain, range, cacheReused, records, reorgs⟩

/-- What a run does with the snapshot that it loaded: changes of the store, in order, and what
follows when all have been made. -/
def plan (config : Config) (v : Volume) (files : BlockFiles) (loaded : Snapshot) :
    List Edit × Except Error Walk :=
  match resume (Reader.ofFiles files config.network.magic) v files loaded with
  | (.error e, _) => ([], .error e)
  | (.ok resumed, r) =>
    match scanFrom config v files resumed.assembler resumed.snapshot.cursor with
    | (.error e, p) => (resumed.edits ++ p.edits, .error e)
    | (.ok outcome, p) =>
      let drained := p.assembler.drainReorgs
      let events := drained.1
      let edits := persistEdits files resumed.snapshot.files events drained.2 outcome
      (resumed.edits ++ p.edits ++ edits,
        walkOver config r drained.2.markPersisted (!resumed.snapshot.isEmpty) p.records
          events.length)

/-- Prepares a run over a store. -/
def prepareWith {σ : Type} [IndexStore σ] (config : Config) (v : Volume) (files : BlockFiles)
    (store : σ) : Except Error Walk × σ :=
  match (IndexCache.ofStore store).load with
  | (.error e, cache) => (.error e, cache.store)
  | (.ok loaded, cache) =>
    let planned := plan config v files loaded
    match applyEdits IndexCache.edit planned.1 cache with
    | (.error e, cache) => (.error e, cache.store)
    | (.ok (), cache) => (planned.2, cache.store)

/-- Prepares a run over block files that were found. -/
def prepareOver (config : Config) (v : Volume) (files : BlockFiles) : Except Error Walk × Volume :=
  match config.cachedir with
  | none => ((prepareWith config v files MemoryStore.empty).1, v)
  | some cachedir =>
    match FileStore.openIn v cachedir config.network with
    | (.error e, v) => (.error e, v)
    | (.ok store, v) =>
      let result := prepareWith config v files store
      (result.1, result.2.volume)

/-- Prepares a run. -/
def prepare (config : Config) (v : Volume) : Except Error Walk × Volume :=
  match config.validate with
  | .error e => (.error e, v)
  | .ok () =>
    match BlockFiles.discover v config.blockdir with
    | .error e => (.error e, v)
    | .ok files => prepareOver config v files

/-! ## The whole run -/

/-- Prepares a run and hands its blocks to a handler. -/
def iterate {σ : Type} (config : Config) (volume : σ → Volume) (setVolume : Volume → σ → σ)
    (handle : Visit → σ → Except Error Flow × σ) (state : σ) : Except Error Summary × σ :=
  match prepare config (volume state) with
  | (.error e, v) => (.error e, setVolume v state)
  | (.ok walk, v) => walk.run volume handle (setVolume v state)

end BlockIndex
