import BlockIndex.Proofs.BlockFile.Directory
import BlockIndex.Proofs.Chain.Ancestry
import BlockIndex.Proofs.Cursor
import BlockIndex.Proofs.Run.Blame

/-!
# Caches that are given up

A run gives its cache up where loading finds it corrupt, and where what the check of its snapshot
leaves cannot be replayed.  From there on it goes like a run that finds no cache.

* `Snapshot.isRejected`       what is left of a snapshot after its check cannot be replayed;
* `DatabaseStore.isGivenUp`   a run gives up what it finds in a database;
* `Walk.closed`               a walk that keeps no file open.

Main statements: `plan_rejected` (the edits and the walk of a run that gives its snapshot up),
`applyEdits_givenUp` (its edits leave nothing of what the store held), `corrupt_cache_as_new`.
-/

namespace BlockIndex

/-! ## Giving up -/

/-- Whether what is left of a snapshot after its check cannot be replayed. -/
def Snapshot.isRejected (s : Snapshot) (config : Config) (v : Volume) (files : BlockFiles) : Bool :=
  match (s.staleHeight (Reader.ofFiles files config.network.magic) v files).1 with
  | .error _ => false
  | .ok (stale, checked) =>
    let usable := checked.usable files stale
    match (Assembler.empty.seed usable.entries usable.tip).1 with
    | .ok () => false
    | .error _ => true

/-- Whether a run gives up what it finds in a database. -/
def DatabaseStore.isGivenUp (store : DatabaseStore) (config : Config) (v : Volume)
    (files : BlockFiles) : Bool :=
  match store.load.1 with
  | .error (.cacheCorrupt _) => true
  | .error _ => false
  | .ok s => s.isRejected config v files

/-- The reader without the files that it keeps open. -/
def Reader.closed (r : Reader) : Reader := ofFiles r.files r.magic

def Walk.closed (w : Walk) : Walk := { w with reader := w.reader.closed }

theorem walkOver_closed (config : Config) (r : Reader) (a : Assembler) (reused : Bool)
    (records reorgs : Nat) :
    (walkOver config r a reused records reorgs).map Walk.closed
      = walkOver config r.closed a reused records reorgs := by
  unfold walkOver
  cases chainFor config a with
  | error e => rfl
  | ok chain =>
    cases hrange : Range.resolve config a chain with
    | error e => simp only [bind, Except.bind, hrange, Except.map]
    | ok range =>
      simp only [bind, Except.bind, hrange]
      rfl

/-! ## The run -/

section Plan

variable {config : Config} {v : Volume} {files : BlockFiles} {s : Snapshot}

theorem Cursor.rewindToAll_start (others : List Cursor) : start.rewindToAll others = start := by
  induction others with
  | nil => rfl
  | cons c rest ih =>
    have hfirst : start.rewindTo c = start := if_neg (by simp [lt_def, start])
    rw [rewindToAll_cons, hfirst, ih]

theorem Snapshot.usable_empty (files : BlockFiles) : empty.usable files none = empty := by
  have hcursor : (empty.rewound files).cursor = Cursor.start := Cursor.rewindToAll_start _
  unfold usable rewound withOrphansBelow at *
  dsimp only at hcursor ⊢
  rw [hcursor]
  rfl

/-- A run that finds no cache starts from nothing and changes nothing before it scans. -/
theorem resume_empty (r : Reader) (v : Volume) (files : BlockFiles) :
    resume r v files Snapshot.empty = (.ok ⟨Snapshot.empty, Assembler.empty, []⟩, r) := by
  have hstale : Snapshot.empty.staleHeight r v files = (.ok (none, Snapshot.empty), r) := rfl
  unfold resume
  rw [hstale]
  dsimp only
  rw [Snapshot.usable_empty]
  rfl

/-- A run that gives its snapshot up starts from nothing too, once its store is reset. -/
theorem resume_rejected (h : s.isRejected config v files = true) :
    ∃ (stale : Option Nat) (reader : Reader),
      resume (Reader.ofFiles files config.network.magic) v files s
        = (.ok ⟨Snapshot.empty, Assembler.empty, stale.toList.map Edit.truncate ++ [.reset]⟩, reader)
      ∧ reader.closed = Reader.ofFiles files config.network.magic := by
  have hread := s.staleHeight_answered (Reader.ofFiles files config.network.magic) v files
  unfold Snapshot.isRejected at h
  unfold resume
  generalize s.staleHeight (Reader.ofFiles files config.network.magic) v files = answer at h hread ⊢
  obtain ⟨result, reader⟩ := answer
  cases result with
  | error e => cases h
  | ok found =>
    obtain ⟨stale, checked⟩ := found
    dsimp only at h ⊢
    refine ⟨stale, reader, ?_, ?_⟩
    · have hgone : Resumed.ofSnapshot (checked.usable files stale)
          = ⟨Snapshot.empty, Assembler.empty, [.reset]⟩ := by
        unfold Resumed.ofSnapshot
        split
        · next a hseed =>
          rw [hseed] at h
          cases h
        · rfl
      rw [hgone]
    · unfold Reader.closed
      rw [hread.files, hread.magic]
      rfl

/-- **Giving up.**  The run resets its store and goes on like one that finds no cache. -/
theorem plan_rejected (h : s.isRejected config v files = true) : ∃ stale : Option Nat,
    (plan config v files s).1
        = stale.toList.map Edit.truncate ++ Edit.reset :: (plan config v files .empty).1 ∧
      (plan config v files s).2.map Walk.closed
        = (plan config v files .empty).2.map Walk.closed := by
  obtain ⟨stale, reader, hresume, hclosed⟩ := resume_rejected h
  have hself : (Reader.ofFiles files config.network.magic).closed
      = Reader.ofFiles files config.network.magic := rfl
  refine ⟨stale, ?_⟩
  unfold plan
  rw [hresume, resume_empty]
  dsimp only
  generalize scanFrom config v files Assembler.empty Snapshot.empty.cursor = scanned
  obtain ⟨result, p⟩ := scanned
  cases result with
  | error e => exact ⟨by simp, rfl⟩
  | ok outcome =>
    refine ⟨by simp, ?_⟩
    dsimp only
    rw [walkOver_closed, walkOver_closed, hclosed, hself]

end Plan

/-! ## The tables -/

section Tables

variable {magic : UInt32} {t : Tables} {s : Snapshot}

theorem rows_ok {α β : Type} {read : α → Except Error β} {rs : List α} {bs : List β}
    (h : TableReading.rows read rs = .ok bs) : ∀ row ∈ rs, ∃ b, read row = .ok b := by
  induction rs generalizing bs with
  | nil => exact fun row hrow => absurd hrow List.not_mem_nil
  | cons row rest ih =>
    rw [TableReading.rows] at h
    cases hfirst : read row with
    | error e =>
      rw [hfirst] at h
      cases h
    | ok b =>
      cases hrest : TableReading.rows read rest with
      | error e =>
        rw [hfirst, hrest] at h
        cases h
      | ok others => exact List.forall_mem_cons.2 ⟨⟨b, hfirst⟩, ih hrest⟩

theorem number32_ok {value : Int} {n : Nat} (h : TableReading.number32 value = .ok n) :
    0 ≤ value ∧ value < 0x1_0000_0000 := by
  unfold TableReading.number32 at h
  split at h
  · next hrange => exact hrange
  · cases h

/-- The rows of tables that can be read name files by numbers of 32 bits. -/
theorem fileId_of_snapshot_ok (h : TableReading.snapshot magic t = .ok s) :
    ∀ row ∈ t.entries, 0 ≤ row.fileId ∧ row.fileId < 0x1_0000_0000 := by
  have hrows : ∃ es, TableReading.rows TableReading.entry t.entries = .ok es := by
    unfold TableReading.snapshot at h
    cases hstamps : TableReading.stamps magic t with
    | error e =>
      rw [hstamps] at h
      cases h
    | ok u =>
      cases hentries : TableReading.rows TableReading.entry t.entries with
      | error e =>
        rw [hstamps, hentries] at h
        cases h
      | ok es => exact ⟨es, rfl⟩
  obtain ⟨es, hes⟩ := hrows
  intro row hrow
  obtain ⟨e, he⟩ := rows_ok hes row hrow
  unfold TableReading.entry at he
  cases hheight : TableReading.number32 row.height with
  | error fault =>
    rw [hheight] at he
    cases he
  | ok height =>
    cases hfile : TableReading.number32 row.fileId with
    | error fault =>
      rw [hheight, hfile] at he
      cases he
    | ok fileId => exact number32_ok hfile

theorem earliest?_mem {rows : List EntryRow} {p : Int × Int}
    (h : TableWriting.earliest? rows = some p) : ∃ row ∈ rows, (row.fileId, row.offset) = p := by
  induction rows generalizing p with
  | nil => cases h
  | cons row rest ih =>
    rw [TableWriting.earliest?] at h
    split at h
    · exact ⟨row, List.mem_cons_self, Option.some.inj h⟩
    · next fileId offset hrest =>
      split at h
      · obtain ⟨other, hother, heq⟩ := ih hrest
        exact ⟨other, List.mem_cons_of_mem row hother, heq.trans (Option.some.inj h)⟩
      · exact ⟨row, List.mem_cons_self, Option.some.inj h⟩

/-- What can be read can be cut. -/
theorem truncate_of_snapshot_ok (h : TableReading.snapshot magic t = .ok s) (height : Nat) :
    ∃ u, TableWriting.truncate height t = .ok u := by
  unfold TableWriting.truncate
  dsimp only
  cases hfirst : TableWriting.earliest? (t.entries.filter fun r => (height : Int) ≤ r.height) with
  | none => exact ⟨_, rfl⟩
  | some p =>
    obtain ⟨row, hrow, rfl⟩ := earliest?_mem hfirst
    have hrange := fileId_of_snapshot_ok h row (List.mem_filter.1 hrow).1
    unfold TableWriting.rewindCursor
    dsimp only
    rw [if_pos hrange]
    exact ⟨_, rfl⟩

end Tables

/-! ## The store -/

theorem applyEdits_append {σ : Type} {edit : Edit → σ → Except Error Unit × σ} {es : List Edit}
    {store next : σ} (h : applyEdits edit es store = (.ok (), next)) (fs : List Edit) :
    applyEdits edit (es ++ fs) store = applyEdits edit fs next := by
  induction es generalizing store with
  | nil =>
    obtain rfl := (Prod.mk.inj h).2
    rfl
  | cons e rest ih =>
    rw [List.cons_append, applyEdits]
    rw [applyEdits] at h
    cases hedit : edit e store with
    | mk result mid =>
      rw [hedit] at h
      cases result with
      | error fault => cases h
      | ok u => exact ih h

namespace DatabaseStore

variable {network : Network} {database : Database} {t : Tables} {s : Snapshot}

theorem cache_inMemory (network : Network) :
    (IndexCache.ofStore (inMemory network)).load = (.ok Snapshot.empty, renewed network.magic) := by
  have hlow : Snapshot.empty.IsLow := fun e he => absurd he List.not_mem_nil
  have hload := (holds_inMemory network).open.1
  rw [if_pos hlow] at hload
  obtain ⟨t, ht, _, hcache⟩ := cache_ok hload
  obtain rfl := Option.some.inj ht
  exact hcache

/-- What a store held that is given up is gone after the cut and the reset. -/
theorem applyEdits_givenUp (h : TableReading.snapshot network.magic t = .ok s) (reused : Bool)
    (stale : Option Nat) (rest : List Edit) :
    applyEdits IndexCache.edit (stale.toList.map Edit.truncate ++ Edit.reset :: rest)
        (⟨⟨.tables t, network.magic, []⟩, 0, reused⟩ : IndexCache DatabaseStore)
      = applyEdits IndexCache.edit rest (renewed network.magic) := by
  have hcut : ∃ u, applyEdits IndexCache.edit (stale.toList.map Edit.truncate)
      (⟨⟨.tables t, network.magic, []⟩, 0, reused⟩ : IndexCache DatabaseStore)
        = (.ok (), ⟨⟨.tables u, network.magic, []⟩, 0, reused⟩) := by
    cases stale with
    | none => exact ⟨t, rfl⟩
    | some height =>
      obtain ⟨u, hu⟩ := truncate_of_snapshot_ok h height
      have hedit : IndexCache.edit (.truncate height)
          (⟨⟨.tables t, network.magic, []⟩, 0, reused⟩ : IndexCache DatabaseStore)
            = (.ok (), ⟨⟨.tables u, network.magic, []⟩, 0, reused⟩) := by
        have hcommit : commit ⟨.tables t, network.magic, []⟩ (TableWriting.truncate height)
            = (.ok (), ⟨.tables u, network.magic, []⟩) := by
          have hqueued : TableWriting.queued [] t = t := rfl
          unfold commit
          dsimp only
          rw [hqueued, hu]
        have hclass : IndexStore.edit (.truncate height)
            (⟨.tables t, network.magic, []⟩ : DatabaseStore)
              = (.ok (), ⟨.tables u, network.magic, []⟩) := hcommit
        unfold IndexCache.edit
        dsimp only
        rw [hclass]
      refine ⟨u, ?_⟩
      show applyEdits IndexCache.edit [Edit.truncate height] _ = _
      unfold applyEdits
      rw [hedit]
      rfl
  obtain ⟨u, hu⟩ := hcut
  rw [applyEdits_append hu]
  rfl

end DatabaseStore

/-! ## Corrupt caches -/

/-- How a run ends that makes edits and then answers. -/
def finishRun (edits : List Edit) (walk : Except Error Walk) (cache : IndexCache DatabaseStore) :
    Except Error Walk × DatabaseStore :=
  match applyEdits IndexCache.edit edits cache with
  | (.error e, cache) => (.error e, cache.store)
  | (.ok (), cache) => (walk, cache.store)

theorem prepareWith_of_load {config : Config} {v : Volume} {files : BlockFiles}
    {store : DatabaseStore} {s : Snapshot} {cache : IndexCache DatabaseStore}
    (h : (IndexCache.ofStore store).load = (.ok s, cache)) :
    prepareWith config v files store
      = finishRun (plan config v files s).1 (plan config v files s).2 cache := by
  unfold prepareWith finishRun
  rw [h]
  dsimp only
  cases applyEdits IndexCache.edit (plan config v files s).1 cache with
  | mk result last => cases result <;> rfl

/-- Two runs whose edits lead to one store and whose walks differ in open files only. -/
theorem finishRun_congr {edits others : List Edit} {walk other : Except Error Walk}
    {cache next : IndexCache DatabaseStore}
    (hedits : applyEdits IndexCache.edit edits cache = applyEdits IndexCache.edit others next)
    (hwalk : walk.map Walk.closed = other.map Walk.closed) :
    (finishRun edits walk cache).1.map Walk.closed = (finishRun others other next).1.map Walk.closed ∧
      (finishRun edits walk cache).2 = (finishRun others other next).2 := by
  unfold finishRun
  rw [hedits]
  cases applyEdits IndexCache.edit others next with
  | mk result last =>
    cases result with
    | error e => exact ⟨rfl, rfl⟩
    | ok u => exact ⟨hwalk, rfl⟩

theorem DatabaseStore.run_of_isGivenUp {config : Config} {v : Volume} {files : BlockFiles}
    {database : Database}
    (h : (ofDatabase database config.network).isGivenUp config v files = true) :
    (prepareWith config v files (ofDatabase database config.network)).1.map Walk.closed
        = (prepareWith config v files (inMemory config.network)).1.map Walk.closed ∧
      (prepareWith config v files (ofDatabase database config.network)).2
        = (prepareWith config v files (inMemory config.network)).2 := by
  rw [prepareWith_of_load (cache_inMemory config.network)]
  unfold isGivenUp at h
  split at h
  · next fault hload =>
    rw [prepareWith_of_load (cache_corrupt hload)]
    exact ⟨rfl, rfl⟩
  · cases h
  · next s hload =>
    obtain ⟨t, _, hsnapshot, hcache⟩ := cache_ok hload
    obtain ⟨stale, hedits, hwalk⟩ := plan_rejected h
    rw [prepareWith_of_load hcache]
    have hstore := applyEdits_givenUp hsnapshot (!s.isEmpty) stale
      (plan config v files Snapshot.empty).1
    rw [← hedits] at hstore
    exact finishRun_congr hstore hwalk

/-- **Corruption.**  Whatever a cache holds, no run finds it corrupt; and a run that gives its cache
up ends as one over a new database does: with the same walk or error, but for the block files that it
keeps open, and with the same store. -/
theorem corrupt_cache_as_new (config : Config) (v : Volume) :
    (∀ fault, (prepare config v).1 ≠ .error (.cacheCorrupt fault)) ∧
    ∀ (files : BlockFiles) (database : Database),
      let store := DatabaseStore.ofDatabase database config.network
      let run := prepareWith config v files store
      let fresh := prepareWith config v files (DatabaseStore.inMemory config.network)
      (∀ fault, run.1 ≠ .error (.cacheCorrupt fault)) ∧
        (store.isGivenUp config v files = true →
          run.1.map Walk.closed = fresh.1.map Walk.closed ∧ run.2 = fresh.2) := by
  refine ⟨prepare_blameless config v, ?_⟩
  intro files database store run fresh
  refine ⟨prepareWith_blameless DatabaseStore.edit_blameless config v files store, ?_⟩
  intro hgiven
  obtain ⟨hwalk, hstore⟩ := DatabaseStore.run_of_isGivenUp hgiven
  exact ⟨hwalk, hstore⟩

/-! ### A snapshot that its check shortens and that cannot be replayed -/

/-- A directory of three blocks, each on the one before. -/
def forgedDirectory : Directory :=
  (Directory.at? (.ofHeaders Network.regtest.magic [("blk00000.dat", chainHeaders)])
    ["blocks"]).get (by decide +kernel)

/-- Tables with the first block at a height at which it does not link, and a block at a place where
none stands. -/
def forgedTables : Tables :=
  TableWriting.stamp Network.regtest.magic { Tables.empty with
    entries := chainHeaders.take 2 |>.zipIdx.map fun p =>
      TableWriting.entryRow ⟨p.1.hash, 5 + p.2, 0, 1000 * p.2, 80, p.1⟩ }

theorem corrupt_cache_as_new_forged :
    (DatabaseStore.ofDatabase (.tables forgedTables) .regtest).isGivenUp cachedConfig
        forgedDirectory.volume forgedDirectory.files = true ∧
      (prepareWith cachedConfig forgedDirectory.volume forgedDirectory.files
          (DatabaseStore.ofDatabase (.tables forgedTables) .regtest)).1.map Walk.closed
        = (prepareWith cachedConfig forgedDirectory.volume forgedDirectory.files
          (DatabaseStore.inMemory .regtest)).1.map Walk.closed ∧
      (prepareWith cachedConfig forgedDirectory.volume forgedDirectory.files
          (DatabaseStore.ofDatabase (.tables forgedTables) .regtest)).2
        = (prepareWith cachedConfig forgedDirectory.volume forgedDirectory.files
          (DatabaseStore.inMemory .regtest)).2 := by
  have hgiven : (DatabaseStore.ofDatabase (.tables forgedTables) .regtest).isGivenUp cachedConfig
      forgedDirectory.volume forgedDirectory.files = true := by decide +kernel
  exact ⟨hgiven, ((corrupt_cache_as_new cachedConfig forgedDirectory.volume).2
    forgedDirectory.files (.tables forgedTables)).2 hgiven⟩

end BlockIndex
