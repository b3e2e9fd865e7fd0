import BlockIndex.Proofs.Run.Growth
import BlockIndex.Proofs.Run.Histories
import BlockIndex.Proofs.Store.Simulation
import BlockIndex.Proofs.Volume.Growing

/-!
# Runs over a volume

A run makes its cache directory, opens the database that it finds there, and writes to its file.
What it prepares, and the database that the next run finds, are those of a run over the database
alone.

* `Volume.Caches`    a cache directory can be made or is there, and a database lies in it;
* `Stage.Meets`      a run finds a directory in a volume, once its cache is open;
* `RunsOver`         the volumes that runs with one cache directory leave.

Main statements: `Stage.Meets.prepare` (one run), `RunsOver.prepare` (a run after any history).
-/

namespace BlockIndex

namespace Volume

variable {v : Volume} {cachedir : Path} {database : Database}

/-- The database in a directory, blank if there is none yet. -/
def databaseAt (v : Volume) (dir : NodeNumber) : Database :=
  match v.ownFile? (databasePlace dir) with
  | some file => file.content.asDatabase
  | none => .blank

/-- There is a cache directory, or it can be made, and this database lies in it. -/
structure Caches (v : Volume) (cachedir : Path) (database : Database) : Prop where
  closed : v.Closed
  found : ∃ w dir, v.makeDirectories cachedir = (.ok (), w) ∧ w.Seat cachedir dir ∧
    w.databaseAt dir = database

theorem Houses.databaseAt {dir id : NodeNumber} {file : StoredFile}
    (h : v.Houses cachedir dir id file) : v.databaseAt dir = file.content.asDatabase := by
  unfold Volume.databaseAt ownFile?
  rw [h.occupied, Option.bind_some, h.file]

theorem grows_fileAt {dir id : NodeNumber} {w : Volume} (h : v.Seat cachedir dir)
    (hat : v.fileAt (databasePlace dir) = .ok (id, w)) : v.Grows w := by
  rcases h.fileAt .database with ⟨_, _, _, _, hfound⟩ | ⟨hfree, hmade⟩
  · rw [hfound] at hat
    obtain ⟨_, rfl⟩ := Prod.mk.inj (Except.ok.inj hat)
    exact .refl h.closed
  · rw [hmade] at hat
    obtain ⟨_, rfl⟩ := Prod.mk.inj (Except.ok.inj hat)
    have hname : parseFileId (databasePlace dir).name = none := by
      show parseFileId databaseName = none
      decide +kernel
    exact grows_addNode h.closed h.directory hfree nofun nofun (.inl hname)

/-- Opening takes the database into use, and adds no block file. -/
theorem Caches.openIn (h : v.Caches cachedir database) (hpath : CachePath cachedir)
    (network : Network) : ∃ store dir,
      FileStore.openIn v cachedir network = (.ok store, store.volume) ∧
      store.Seated cachedir dir ∧ store.inner = .ofDatabase database network ∧
      v.Grows store.volume := by
  obtain ⟨w, dir, hmade, hseat, rfl⟩ := h.found
  have hgrows : v.Grows w := by
    have := grows_makeDirectories h.closed cachedir
    rw [hmade] at this
    exact this
  obtain ⟨id, file, x, hat, hhouses, hcases⟩ := hseat.houses_fileAt
  have hdatabase : w.databaseAt dir = file.content.asDatabase := by
    rcases hcases with ⟨_, _, rfl⟩ | ⟨hfree, hempty, _⟩
    · exact hhouses.databaseAt
    · unfold databaseAt ownFile?
      rw [hfree, hempty]
      rfl
  refine ⟨⟨x, cachedir, databasePlace dir, id, network.magic, [], false⟩, dir, ?_,
    ⟨rfl, rfl, file, hhouses⟩, ?_, hgrows.trans (grows_fileAt hseat hat)⟩
  · unfold FileStore.openIn
    rw [hmade]
    dsimp only
    rw [hseat.openDatabase hpath, hat]
  · rw [hdatabase, DatabaseStore.ofDatabase, ← FileStore.database_eq
      ⟨x, cachedir, databasePlace dir, id, network.magic, [], false⟩ hhouses.file]
    rfl

end Volume

/-- The volume that a store is kept in has its database in the cache directory. -/
theorem FileStore.Seated.caches {store : FileStore} {cachedir : Path} {dir : NodeNumber}
    (h : store.Seated cachedir dir) (hpath : CachePath cachedir) :
    store.volume.Caches cachedir store.inner.database := by
  obtain ⟨file, hhouses⟩ := h.houses
  refine ⟨hhouses.seat.closed, store.volume, dir, hhouses.seat.makeDirectories hpath,
    hhouses.seat, ?_⟩
  exact hhouses.databaseAt.trans (database_eq store hhouses.file).symm

/-! ## One run -/

/-- The volume that a run reads block files from: with its cache open, if it has one. -/
def Config.opened (config : Config) (v : Volume) : Volume :=
  match config.cachedir with
  | none => v
  | some cachedir => (FileStore.openIn v cachedir config.network).2

namespace Stage

variable {v : Volume} {stage : Stage} {cachedir : Path} {database : Database}

/-- A run over a volume finds the block files of a directory, and reads them when its cache is
open. -/
structure Meets (stage : Stage) (v : Volume) : Prop where
  found : BlockFiles.discover v stage.config.blockdir = .ok stage.directory.files
  volume : stage.directory.volume = stage.config.opened v

/-- What a run finds at the path of its block files, it still finds when its cache is open. -/
theorem exists_meets {config : Config} {d : Directory}
    (hd : Directory.at? v config.blockdir = some d)
    (hcache : ∀ cachedir, config.cachedir = some cachedir →
      CachePath cachedir ∧ ∃ database, v.Caches cachedir database) :
    ∃ d' : Directory, Meets ⟨config, d'⟩ v ∧ d'.files = d.files ∧
      ∀ id, d'.bytes id = d.bytes id := by
  obtain ⟨rfl, hpath⟩ := Directory.at?_eq_some_iff.1 hd
  have hfound : BlockFiles.discover d.volume config.blockdir = .ok d.files := hpath ▸ d.found
  cases hdir : config.cachedir with
  | none =>
    refine ⟨d, ⟨hfound, ?_⟩, rfl, fun _ => rfl⟩
    show d.volume = config.opened d.volume
    rw [Config.opened, hdir]
  | some cachedir =>
    obtain ⟨hcachedir, database, hcaches⟩ := hcache cachedir hdir
    obtain ⟨store, _, hopened, _, _, hgrows⟩ := hcaches.openIn hcachedir config.network
    refine ⟨d.onto hcaches.closed hgrows, ⟨hfound, ?_⟩, rfl, d.bytes_onto hcaches.closed hgrows⟩
    show store.volume = config.opened d.volume
    rw [Config.opened, hdir]
    dsimp only
    rw [hopened]

/-- **One run.**  A run over a volume prepares what a run over the database of its cache prepares,
and leaves in the cache directory the database that this one leaves. -/
theorem Meets.prepare (h : stage.Meets v) (hvalid : stage.config.validate = .ok ())
    (hpath : CachePath cachedir) (hcaches : v.Caches cachedir database)
    (hcachedir : ∀ other, stage.config.cachedir = some other → other = cachedir) :
    (prepare stage.config v).1 = stage.prepared database ∧
      (prepare stage.config v).2.Caches cachedir (stage.leaves database) := by
  unfold BlockIndex.prepare
  rw [hvalid]
  dsimp only
  rw [h.found]
  dsimp only
  have hvolume := h.volume
  unfold prepareOver Stage.prepared Stage.leaves
  unfold Config.opened at hvolume
  cases hdir : stage.config.cachedir with
  | none =>
    rw [hdir] at hvolume
    dsimp only at hvolume ⊢
    rw [← hvolume]
    exact ⟨rfl, hvolume ▸ hcaches⟩
  | some other =>
    obtain rfl := hcachedir other hdir
    obtain ⟨store, dir, hopened, hseated, hinner, _⟩ :=
      hcaches.openIn hpath stage.config.network
    rw [hdir] at hvolume
    dsimp only at hvolume ⊢
    rw [hopened] at hvolume ⊢
    dsimp only at hvolume ⊢
    have hstore : stage.store database = .ofDatabase database stage.config.network := by
      rw [Stage.store, hdir]
    obtain ⟨hsame, hleft, hdatabase⟩ := (FileStore.simulates hpath dir).prepareWith
      ⟨hseated, hinner⟩ stage.config stage.directory.volume stage.directory.files
    rw [← hvolume]
    unfold Stage.run
    rw [hstore, ← hdatabase]
    exact ⟨hsame, hleft.caches hpath⟩

end Stage

/-! ## Any history -/

/-- A volume after runs that keep their index in one cache directory or in memory, with whatever
happens to the volume in between, as long as the cache directory is left alone.  The last run stands
first. -/
inductive RunsOver (cachedir : Path) : Volume → List Stage → Prop where
  /-- A volume without a database in the cache directory. -/
  | start {v : Volume} (h : v.Caches cachedir .blank) : RunsOver cachedir v []
  | changed {v w : Volume} {history : List Stage} (h : RunsOver cachedir v history)
    (hkept : ∀ database, v.Caches cachedir database → w.Caches cachedir database) :
    RunsOver cachedir w history
  | run {v : Volume} {history : List Stage} (h : RunsOver cachedir v history) {stage : Stage}
    (hmeets : stage.Meets v) (hvalid : stage.config.validate = .ok ())
    (hcachedir : ∀ other, stage.config.cachedir = some other → other = cachedir) :
    RunsOver cachedir (prepare stage.config v).2 (stage :: history)

/-- The database in the cache directory is the one after the same runs over a database alone. -/
theorem RunsOver.caches {cachedir : Path} {v : Volume} {history : List Stage}
    (h : RunsOver cachedir v history) (hpath : CachePath cachedir) :
    v.Caches cachedir (databaseAfter history) := by
  induction h with
  | start h => exact h
  | changed _ hkept ih => exact hkept _ ih
  | run _ hmeets hvalid hcachedir ih => exact (hmeets.prepare hvalid hpath ih hcachedir).2

/-- **Any history.**  After any runs over a volume the next one prepares what it prepares after the
same runs over a database alone, and leaves the database that it leaves there. -/
theorem RunsOver.prepare {cachedir : Path} {v : Volume} {history : List Stage}
    (h : RunsOver cachedir v history) (hpath : CachePath cachedir) {stage : Stage}
    (hmeets : stage.Meets v) (hvalid : stage.config.validate = .ok ())
    (hcachedir : ∀ other, stage.config.cachedir = some other → other = cachedir) :
    (prepare stage.config v).1 = stage.prepared (databaseAfter history) ∧
      (prepare stage.config v).2.Caches cachedir (databaseAfter (stage :: history)) :=
  hmeets.prepare hvalid hpath (h.caches hpath) hcachedir

/-! ### A volume without a cache directory -/

theorem cachePath_cache : CachePath ["cache"] :=
  ⟨by decide +kernel, by decide +kernel, by decide +kernel⟩

/-- The cache directory of the three blocks can be made. -/
theorem caches_grownDirectory : grownDirectory.volume.Caches ["cache"] .blank := by
  obtain ⟨w, hw⟩ : ∃ w, w = (grownDirectory.volume.makeDirectories ["cache"]).2 := ⟨_, rfl⟩
  have hmade : grownDirectory.volume.makeDirectories ["cache"] = (.ok (), w) := by
    rw [hw, ← show (grownDirectory.volume.makeDirectories ["cache"]).1 = .ok () by decide +kernel]
  have hfree : ∀ place, (databasePlace 4).Serves place → w.occupant? place = none := by
    intro place hserves
    rw [hw]
    cases hserves with
    | database => decide +kernel
    | companion c => cases c <;> decide +kernel
  refine ⟨by decide +kernel, w, 4, hmade, ⟨?_, ?_, ?_, fun place hserves id hid => ?_⟩, ?_⟩
  · rw [hw]
    decide +kernel
  · rw [hw]
    decide +kernel
  · rw [hw]
    decide +kernel
  · rw [hfree place hserves] at hid
    cases hid
  · rw [hw]
    decide +kernel

/-- A run over that volume prepares what it prepares over a blank database, and leaves what it
leaves there. -/
example : ∃ d : Directory, d.files = grownDirectory.files ∧
    (prepare cachedConfig grownDirectory.volume).1 = Stage.prepared ⟨cachedConfig, d⟩ .blank ∧
    (prepare cachedConfig grownDirectory.volume).2.Caches ["cache"]
      (databaseAfter [⟨cachedConfig, d⟩]) := by
  have hcachedir : ∀ other, cachedConfig.cachedir = some other → other = ["cache"] :=
    fun _ h => (Option.some.inj h).symm
  have hd : Directory.at? grownDirectory.volume cachedConfig.blockdir = some grownDirectory :=
    Directory.at?_eq_some_iff.2 ⟨rfl, by decide +kernel⟩
  obtain ⟨d, hmeets, hfiles, _⟩ := Stage.exists_meets hd fun other hother =>
    hcachedir other hother ▸ ⟨cachePath_cache, _, caches_grownDirectory⟩
  have hstart : RunsOver ["cache"] grownDirectory.volume [] := .start caches_grownDirectory
  have hrun := hstart.prepare cachePath_cache hmeets rfl hcachedir
  exact ⟨d, hfiles, hrun⟩

end BlockIndex
