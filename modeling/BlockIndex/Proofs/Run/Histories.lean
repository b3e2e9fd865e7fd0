import BlockIndex.Proofs.Run.Planning

/-!
# Histories of runs

Runs one after the other over one database, each over the directory that it finds.

* `Stage`          a run of a history: its options and its directory;
* `storeAfter`     the store after a history of runs for one network;
* `EveryRun`       something holds of every run and the store that it finds;
* `Stage.prepared` what a run prepares, with a cache or without one;
* `databaseAfter`  the database of a cache after a history of runs, each for the network of its
                   options;
* `DatabaseStore.used`, `DatabaseStore.assembled`, `DatabaseStore.scanned`  what a run uses of what it
                   loads, its assembler after the scan, and how many records the scan reads.

Main statement: `databaseAfter_left` (what every run keeps of what it loads holds of what any history
leaves).
-/

namespace BlockIndex

/-- A run of a history: its options, and the directory that it finds. -/
structure Stage where
  config : Config
  directory : Directory

/-- The store of one cache after the runs of a history, the last of which stands first. -/
def storeAfter (network : Network) : List Stage → DatabaseStore
  | [] => .inMemory network
  | stage :: before => (prepareWith stage.config stage.directory.volume stage.directory.files
      (storeAfter network before)).2

/-- Something holds of every run of a history and the store that it finds. -/
def EveryRun (network : Network) (holds : DatabaseStore → Stage → Prop) : List Stage → Prop
  | [] => True
  | stage :: before => holds (storeAfter network before) stage ∧ EveryRun network holds before

namespace DatabaseStore

/-- What a run uses of what it loads. -/
def used (store : DatabaseStore) (config : Config) (d : Directory) : Snapshot :=
  match (resume (Reader.ofFiles d.files config.network.magic) d.volume d.files store.loaded).1 with
  | .ok resumed => resumed.snapshot
  | .error _ => Snapshot.empty

/-- The assembler of a run after its scan. -/
def assembled (store : DatabaseStore) (config : Config) (d : Directory) : Assembler :=
  match (resume (Reader.ofFiles d.files config.network.magic) d.volume d.files store.loaded).1 with
  | .ok resumed =>
    (scanFrom config d.volume d.files resumed.assembler resumed.snapshot.cursor).2.assembler
  | .error _ => Assembler.empty

/-- How many records the scan of a run reads. -/
def scanned (store : DatabaseStore) (config : Config) (d : Directory) : Nat :=
  match (resume (Reader.ofFiles d.files config.network.magic) d.volume d.files store.loaded).1 with
  | .ok resumed =>
    (scanFrom config d.volume d.files resumed.assembler resumed.snapshot.cursor).2.records
  | .error _ => 0

theorem loaded_inMemory (network : Network) : (inMemory network).loaded = Snapshot.empty := by
  rcases (holds_inMemory network).loaded with heq | heq <;> exact heq

end DatabaseStore

namespace Follows

variable {config : Config} {d : Directory} {store : DatabaseStore} {c : Course}

theorem used_eq (h : Follows config d store.loaded c) : store.used config d = c.used := by
  obtain ⟨edits, hresumed⟩ := h.resumed
  unfold DatabaseStore.used
  rw [hresumed]

theorem assembled_eq (h : Follows config d store.loaded c) :
    store.assembled config d = c.assembler := by
  obtain ⟨edits, hresumed⟩ := h.resumed
  unfold DatabaseStore.assembled
  rw [hresumed]
  dsimp only
  rw [h.scan, Progress.feed_start]
  exact Assembler.absorbAll_snd _ _

theorem scanned_eq (h : Follows config d store.loaded c) :
    store.scanned config d = c.fed.length := by
  obtain ⟨edits, hresumed⟩ := h.resumed
  unfold DatabaseStore.scanned
  rw [hresumed]
  dsimp only
  rw [h.scan, Progress.feed_start]

end Follows

/-! ## What is walked -/

section Walked

variable {config : Config} {a : Assembler} {chain : BestChain}

theorem Range.resolve_some {first last : Nat} (hlast : lastHeight config chain = .ok (some last))
    (hfirst : firstHeight config a chain = .ok first) :
    resolve config a chain = if first ≤ last then .ok (some ⟨first, last⟩)
      else .error (.heightUnreachable first chain.tipHeight?) := by
  unfold resolve
  rw [hlast, hfirst]
  rfl

theorem Range.resolve_none {first : Nat} (hlast : lastHeight config chain = .ok none)
    (hfirst : firstHeight config a chain = .ok first) :
    resolve config a chain = if first = 0 then .ok none
      else .error (.heightUnreachable first chain.tipHeight?) := by
  unfold resolve
  rw [hlast, hfirst]
  rfl

variable {reader : Reader} {reused : Bool} {records reorgs : Nat} {w : Walk}

theorem walkOver_parts (h : walkOver config reader a reused records reorgs = .ok w) :
    chainFor config a = .ok w.chain ∧ Range.resolve config a w.chain = .ok w.range ∧
      w = ⟨config, a, reader, w.chain, w.range, reused, records, reorgs⟩ := by
  unfold walkOver at h
  cases hchain : chainFor config a with
  | error e =>
    rw [hchain] at h
    cases h
  | ok chain =>
    cases hrange : Range.resolve config a chain with
    | error e =>
      simp only [bind, Except.bind, hchain, hrange] at h
      cases h
    | ok range =>
      simp only [bind, Except.bind, hchain, hrange, pure, Except.pure] at h
      obtain rfl := Except.ok.inj h
      exact ⟨rfl, hrange, rfl⟩

theorem walkOver_ok (h : walkOver config reader a reused records reorgs = .ok w) :
    w.assembler = a ∧ w.recordsScanned = records := by
  obtain ⟨_, _, hw⟩ := walkOver_parts h
  rw [hw]
  exact ⟨rfl, rfl⟩

end Walked

/-! ## Runs for several networks -/

/-- The store that a run begins with: what it finds in the database of its cache, or a new one if it
keeps none. -/
def Stage.store (stage : Stage) (database : Database) : DatabaseStore :=
  match stage.config.cachedir with
  | none => .inMemory stage.config.network
  | some _ => .ofDatabase database stage.config.network

theorem Stage.magic_store (stage : Stage) (database : Database) :
    (stage.store database).magic = stage.config.network.magic := by
  unfold Stage.store
  split <;> rfl

/-- A run over the store that it begins with, and the store that it leaves. -/
def Stage.run (stage : Stage) (database : Database) : Except Error Walk × DatabaseStore :=
  prepareWith stage.config stage.directory.volume stage.directory.files (stage.store database)

/-- A run that keeps its index in memory, and the store that it leaves. -/
def Stage.runInMemory (stage : Stage) : Except Error Walk × MemoryStore :=
  prepareWith stage.config stage.directory.volume stage.directory.files MemoryStore.empty

/-- What a run prepares over the directory that it finds, with the database of its cache or without
a cache. -/
def Stage.prepared (stage : Stage) (database : Database) : Except Error Walk :=
  match stage.config.cachedir with
  | none => stage.runInMemory.1
  | some _ => (stage.run database).1

/-- What a loading answers after a run: of the database of its cache, or of the store that it kept in
memory. -/
def Stage.reloaded (stage : Stage) (database : Database) : Except Error Snapshot :=
  match stage.config.cachedir with
  | none => .ok stage.runInMemory.2.load.1
  | some _ => (stage.run database).2.load.1

/-- The database of the cache after a run.  Without a cache it is as it was. -/
def Stage.leaves (stage : Stage) (database : Database) : Database :=
  match stage.config.cachedir with
  | none => database
  | some _ => (stage.run database).2.database

/-- The database after the runs of a history, the last of which stands first.  Each run is for the
network of its options. -/
def databaseAfter : List Stage → Database
  | [] => .blank
  | stage :: before => stage.leaves (databaseAfter before)

section Memory

variable {config : Config} {v : Volume} {files : BlockFiles}

theorem MemoryStore.applyEdits (edits : List Edit) (cache : IndexCache MemoryStore) :
    (BlockIndex.applyEdits IndexCache.edit edits cache).1 = .ok () ∧
      (BlockIndex.applyEdits IndexCache.edit edits cache).2.store = cache.store.editAll edits := by
  induction edits generalizing cache with
  | nil => exact ⟨rfl, rfl⟩
  | cons change rest ih =>
    cases change <;> exact ih _

/-- Without a cache a run does what it does with an empty snapshot. -/
theorem prepareWith_memory : prepareWith config v files MemoryStore.empty =
    ((plan config v files Snapshot.empty).2,
      MemoryStore.empty.editAll (plan config v files Snapshot.empty).1) := by
  have hload : (IndexCache.ofStore MemoryStore.empty).load
      = (.ok Snapshot.empty, ⟨MemoryStore.empty, 0, false⟩) := rfl
  have hmade := MemoryStore.applyEdits (plan config v files Snapshot.empty).1
    ⟨MemoryStore.empty, 0, false⟩
  unfold prepareWith
  rw [hload]
  dsimp only
  generalize applyEdits IndexCache.edit (plan config v files Snapshot.empty).1
    (⟨MemoryStore.empty, 0, false⟩ : IndexCache MemoryStore) = made at hmade ⊢
  obtain ⟨result, cache⟩ := made
  obtain ⟨rfl, hstore⟩ := hmade
  exact Prod.ext rfl hstore

/-- What a run keeps in memory is what one that begins with nothing stores. -/
theorem Stage.runInMemory_eq {stage : Stage} {c : Course}
    (h : Follows stage.config stage.directory Snapshot.empty c) : stage.runInMemory =
      ((plan stage.config stage.directory.volume stage.directory.files Snapshot.empty).2,
        MemoryStore.ofSnapshot (c.stored stage.directory)) := by
  unfold Stage.runInMemory
  rw [prepareWith_memory]
  exact congrArg _ h.finish

end Memory

/-- What runs leave: nothing yet, or tables that hold a snapshot of which something holds. -/
def Database.Left (P : UInt32 → Snapshot → Prop) (database : Database) : Prop :=
  database = .blank ∨ ∃ magic t s, database = .tables t ∧ Encodes magic t s ∧ P magic s

section Left

variable {network : Network} {P : UInt32 → Snapshot → Prop} {database : Database}

theorem DatabaseStore.holds_of_encodes {t : Tables} {s : Snapshot}
    (h : Encodes network.magic t s) : (ofDatabase (.tables t) network).Holds s :=
  ⟨t, congrArg some (h.stamp network.magic), h⟩

/-- Tables of another network are given up. -/
theorem DatabaseStore.opens_of_encodes (network : Network) {magic : UInt32} {t : Tables}
    {s : Snapshot} (h : Encodes magic t s) :
    (ofDatabase (.tables t) network).Opens ∧
      ((ofDatabase (.tables t) network).loaded = Snapshot.empty ∨
        network.magic = magic ∧ (ofDatabase (.tables t) network).loaded = s) := by
  have hinit : (ofDatabase (.tables t) network).initialised = some t :=
    congrArg some (h.stamp network.magic)
  by_cases hmagic : network.magic = magic
  · have hholds : (ofDatabase (.tables t) network).Holds s := holds_of_encodes (hmagic ▸ h)
    exact ⟨hholds.opens.1, hholds.loaded.symm.imp_right fun heq => ⟨hmagic, heq⟩⟩
  · -- the text of the stamp tells the networks apart
    have htext : t.setting? "magic" ≠ some (toString network.magic.toNat) := by
      rw [h.network]
      intro htext
      have hread := numeral?_toString (n := magic.toNat) (UInt32.toNat_lt magic)
      rw [Option.some.inj htext, numeral?_toString (UInt32.toNat_lt network.magic)] at hread
      exact hmagic (UInt32.toNat_inj.1 (Option.some.inj hread))
    have hstamps : TableReading.stamps network.magic t
        = .error (.cacheCorrupt (.networkMagic (t.setting? "magic") network.magic.toNat)) := by
      unfold TableReading.stamps
      dsimp only
      rw [if_neg (by rw [h.version]; simp), if_pos htext]
      rfl
    have hload : (DatabaseStore.load (ofDatabase (.tables t) network)).1
        = .error (.cacheCorrupt (.networkMagic (t.setting? "magic") network.magic.toNat)) := by
      unfold DatabaseStore.load
      rw [hinit]
      dsimp only
      unfold TableReading.snapshot
      rw [show (ofDatabase (.tables t) network).magic = network.magic from rfl, hstamps]
      rfl
    obtain ⟨hopens, heq⟩ := opens_of_load (cache_corrupt hload) rfl (mirrors_renewed network.magic)
    exact ⟨hopens, Or.inl heq⟩

/-- A run over a database, and what it leaves there. -/
theorem Stage.run_spec {stage : Stage} {c : Course} (hopens : (stage.store database).Opens)
    (h : Follows stage.config stage.directory (stage.store database).loaded c) :
    (stage.run database).1 = (plan stage.config stage.directory.volume stage.directory.files
        (stage.store database).loaded).2 ∧
      (stage.run database).2.Holds (c.stored stage.directory) ∧
      ∃ t, (stage.run database).2.database = .tables t ∧
        Encodes stage.config.network.magic t (c.stored stage.directory) := by
  obtain ⟨hresult, hmagic, hmirrors⟩ := hopens.run h
  obtain ⟨t, ht, henc⟩ := hmirrors.tables
  rw [hmagic, Stage.magic_store] at henc
  exact ⟨hresult, hmirrors.holds, t, ht, henc⟩

/-- What a run loads from what other runs left. -/
theorem Database.Left.opens (h : database.Left P) (stage : Stage)
    (hempty : P stage.config.network.magic Snapshot.empty) :
    (stage.store database).Opens ∧
      P stage.config.network.magic (stage.store database).loaded := by
  have hnew : (DatabaseStore.inMemory stage.config.network).Opens ∧
      P stage.config.network.magic (DatabaseStore.inMemory stage.config.network).loaded := by
    rw [DatabaseStore.loaded_inMemory]
    exact ⟨(DatabaseStore.holds_inMemory stage.config.network).opens.1, hempty⟩
  unfold Stage.store
  cases stage.config.cachedir with
  | none => exact hnew
  | some cachedir =>
    rcases h with rfl | ⟨magic, t, s, rfl, henc, hs⟩
    · exact hnew
    · obtain ⟨hopens, heq | ⟨rfl, heq⟩⟩ :=
        DatabaseStore.opens_of_encodes stage.config.network henc
      · dsimp only
        rw [heq]
        exact ⟨hopens, hempty⟩
      · dsimp only
        rw [heq]
        exact ⟨hopens, hs⟩

/-- With a cache or without one, a run prepares what one over a database does. -/
theorem Stage.prepared_eq {stage : Stage} {c : Course} (hopens : (stage.store database).Opens)
    (h : Follows stage.config stage.directory (stage.store database).loaded c) :
    stage.prepared database = (plan stage.config stage.directory.volume stage.directory.files
      (stage.store database).loaded).2 := by
  have hrun := (Stage.run_spec hopens h).1
  unfold Stage.prepared
  cases hcache : stage.config.cachedir with
  | none =>
    have hstore : stage.store database = .inMemory stage.config.network := by
      rw [Stage.store, hcache]
    rw [hstore, DatabaseStore.loaded_inMemory] at h ⊢
    exact congrArg Prod.fst (Stage.runInMemory_eq h)
  | some cachedir => exact hrun

/-- What is loaded after a run is what it has stored.  Only a database refuses great heights. -/
theorem Stage.reloaded_eq {stage : Stage} {c : Course} (hopens : (stage.store database).Opens)
    (h : Follows stage.config stage.directory (stage.store database).loaded c) :
    stage.reloaded database
      = if stage.config.cachedir = none ∨ (c.stored stage.directory).IsLow
        then .ok (c.stored stage.directory) else .error (.cacheCorrupt .engine) := by
  have hholds := (Stage.run_spec hopens h).2.1
  unfold Stage.reloaded
  cases hcache : stage.config.cachedir with
  | none =>
    have hstore : stage.store database = .inMemory stage.config.network := by
      rw [Stage.store, hcache]
    rw [hstore, DatabaseStore.loaded_inMemory] at h
    rw [if_pos (Or.inl rfl), Stage.runInMemory_eq h]
    rfl
  | some cachedir =>
    rw [hholds.open.1]
    simp only [reduceCtorEq, false_or]

/-- A run goes on from a snapshot of which something is known. -/
theorem Stage.prepared_spec (stage : Stage) (h : database.Left P)
    (hempty : P stage.config.network.magic Snapshot.empty)
    (hfollows : ∀ s, P stage.config.network.magic s →
      ∃ c, Follows stage.config stage.directory s c) :
    ∃ s, s.Fits ∧ P stage.config.network.magic s ∧ stage.prepared database
      = (plan stage.config stage.directory.volume stage.directory.files s).2 := by
  obtain ⟨hopens, hs⟩ := h.opens stage hempty
  obtain ⟨c, hc⟩ := hfollows _ hs
  exact ⟨_, hopens.loaded_fits, hs, Stage.prepared_eq hopens hc⟩

end Left

/-- **Any history.**  What holds of nothing, what every run keeps of what it loads, and what a run
without a cache does not touch, holds of what a history leaves. -/
theorem databaseAfter_left {P : List Stage → UInt32 → Snapshot → Prop}
    (hempty : ∀ before magic, P before magic Snapshot.empty)
    (hpassed : ∀ before stage magic s, P before magic s → P (stage :: before) magic s)
    (hrun : ∀ (before : List Stage) (stage : Stage) (s : Snapshot), s.Fits →
      P before stage.config.network.magic s → ∃ c, Follows stage.config stage.directory s c ∧
        P (stage :: before) stage.config.network.magic (c.stored stage.directory))
    (history : List Stage) : (databaseAfter history).Left (P history) := by
  induction history with
  | nil => exact Or.inl rfl
  | cons stage before ih =>
    rw [databaseAfter, Stage.leaves]
    cases stage.config.cachedir with
    | none =>
      exact ih.imp_right fun ⟨magic, t, s, ht, henc, hs⟩ =>
        ⟨magic, t, s, ht, henc, hpassed before stage magic s hs⟩
    | some cachedir =>
      obtain ⟨hopens, hloaded⟩ := ih.opens stage (hempty before _)
      obtain ⟨c, hfollows, hstored⟩ := hrun before stage _ hopens.loaded_fits hloaded
      obtain ⟨_, _, t, ht, henc⟩ := Stage.run_spec hopens hfollows
      exact Or.inr ⟨_, t, _, ht, henc, hstored⟩

end BlockIndex
