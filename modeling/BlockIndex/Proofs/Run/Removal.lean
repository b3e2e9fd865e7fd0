import BlockIndex.Proofs.Run.Histories

/-!
# Block files that come and go

Whole block files are added or removed between runs, and what stays is left as it is.  A block may
lie in several files; the index keeps the copy that it saw first.

* `Directory.Keeps`             files that are there before and after hold the same bytes;
* `Steady`                      what a snapshot says of its directory;
* `DatabaseStore.KeepsCopies`   of a block whose kept copy is gone, another copy stands where the
                                run takes its scan up or after it, if there is another at all;
* `DatabaseStore.LosesNothing`  the run knows every block of its directory.

Main statement: `loses_nothing_iff`.  The cursor goes back to what is forgotten, but another copy of
a forgotten block may stand before it, in a file that is not scanned again; such a block is lost.
-/

namespace BlockIndex

/-- Files that are there before and after hold the same bytes. -/
def Directory.Keeps (d e : Directory) : Prop :=
  ∀ id file file', d.files.get? id = some file → e.files.get? id = some file' →
    e.bytes id = d.bytes id

namespace Directory

variable {d e : Directory} {magic : UInt32} {r : Record} {id : Nat} {file : BlockFile}

theorem keeps_iff : d.Keeps e ↔ ∀ p ∈ d.files.toList,
    (e.files.get? p.1).isSome = true → e.bytes p.1 = d.bytes p.1 := by
  constructor
  · intro h p hp hsome
    obtain ⟨file', hfile'⟩ := Option.isSome_iff_exists.1 hsome
    exact h p.1 p.2 file' (FileMap.get?_eq_some_iff.2 hp) hfile'
  · intro h id file file' hfile hfile'
    exact h (id, file) (FileMap.get?_eq_some_iff.1 hfile) (by rw [hfile']; rfl)

instance (d e : Directory) : Decidable (d.Keeps e) := decidable_of_iff' _ keeps_iff

theorem Keeps.recordsIn_eq {file' : BlockFile} (h : d.Keeps e) (hd : d.files.get? id = some file)
    (he : e.files.get? id = some file') : e.recordsIn magic id = d.recordsIn magic id := by
  obtain ⟨_, hscan⟩ := d.scans magic id
  obtain ⟨_, hscan'⟩ := e.scans magic id
  rw [h id file file' hd he] at hscan'
  exact (hscan.unique hscan').1

theorem Keeps.mem_records (h : d.Keeps e) (hr : r ∈ d.records magic)
    (he : e.files.get? r.fileId = some file) : r ∈ e.records magic := by
  rw [mem_records_iff] at hr ⊢
  obtain ⟨_, hd⟩ := exists_file hr
  rw [h.recordsIn_eq hd he]
  exact hr

theorem Keeps.of_mem_records (h : d.Keeps e) (hr : r ∈ e.records magic)
    (hd : d.files.get? r.fileId = some file) : r ∈ d.records magic := by
  rw [mem_records_iff] at hr ⊢
  obtain ⟨_, he⟩ := exists_file hr
  rw [← h.recordsIn_eq hd he]
  exact hr

end Directory

/-! ## What a snapshot says of its directory -/

/-- What a snapshot holds are records of the directory, each block once, and files are scanned up to
boundaries. -/
structure Steady (d : Directory) (magic : UInt32) (s : Snapshot) : Prop where
  forest : Forest s.entries
  entries : ∀ e ∈ s.entries, e.toRecord ∈ d.records magic
  orphans : ∀ o ∈ s.orphans, o ∈ d.records magic
  distinct : (s.entries.map Entry.hash ++ s.orphans.map Record.hash).Nodup
  cursor : d.Aligned magic s.cursor
  files : ∀ id fp, s.files.get? id = some fp →
    (∃ file, d.files.get? id = some file) ∧ Boundary id magic (d.bytes id) fp.scannedTo

/-- Every record before the cursor is known. -/
def Snapshot.Covers (s : Snapshot) (d : Directory) (magic : UInt32) : Prop :=
  ∀ r ∈ d.records magic, r.position < s.cursor → s.Knows r.hash

theorem Snapshot.covers_empty (d : Directory) (magic : UInt32) :
    Snapshot.empty.Covers d magic := by
  intro r _ hlt
  exact absurd hlt (Cursor.start_le r.position)

namespace Steady

variable {d e : Directory} {magic : UInt32} {s u : Snapshot} {stale : Option Nat}

theorem empty (d : Directory) (magic : UInt32) : Steady d magic Snapshot.empty where
  forest := Forest.nil
  entries := by
    intro e he
    simp [Snapshot.empty] at he
  orphans := by
    intro o ho
    simp [Snapshot.empty] at ho
  distinct := List.nodup_nil
  cursor := Directory.aligned_zero 0
  files := by
    intro id fp h
    simp [Snapshot.empty] at h

theorem mem_records (h : Steady d magic s) {r : Record} (hr : r ∈ s.copies) :
    r ∈ d.records magic :=
  Snapshot.forall_copies.2 ⟨h.entries, h.orphans⟩ r hr

theorem readable (h : Steady d magic s) : s.Readable :=
  Snapshot.readable_of_lies fun _ hr => Directory.lies_of_mem (h.mem_records hr)

theorem eq_of_hash (h : Steady d magic s) {r r' : Record} (hr : r ∈ s.copies) (hr' : r' ∈ s.copies)
    (hhash : r.hash = r'.hash) : r = r' := by
  have hnodup : (s.copies.map Record.hash).Nodup := by
    rw [Snapshot.copies, List.map_append, List.map_map]
    exact h.distinct
  exact eq_of_nodup_map hnodup hr hr' hhash

/-- The scan of the directory that follows can be taken up where a run does. -/
theorem aligned_used (h : Steady d magic s) (hkeeps : d.Keeps e)
    (hu : Snapshot.Usable e magic s stale u) : e.Aligned magic u.cursor := by
  refine hu.cursor_spec (P := e.Aligned magic) ?_ ?_ ?_ ?_
  · intro heq file hfile
    cases hd : d.files.get? s.cursor.fileId with
    | some old =>
      rw [hkeeps _ _ _ hd hfile]
      exact h.cursor old hd
    | none =>
      -- the file is new, so the scan is taken up at its beginning
      have hnew : s.files.get? s.cursor.fileId = none := by
        rw [Option.eq_none_iff_forall_ne_some]
        intro fp hfp
        obtain ⟨⟨old, hold⟩, _⟩ := h.files _ fp hfp
        rw [hd] at hold
        simp at hold
      have hle := hu.le_unknown hfile hnew
      rw [heq, Cursor.le_iff] at hle
      have hzero : s.cursor.offset = 0 := by
        dsimp only at hle
        omega
      rw [hzero]
      exact Boundary.zero _ _ _
  · exact fun r hr file hfile =>
      Directory.aligned_position (hkeeps.mem_records (h.mem_records hr) hfile) file hfile
  · exact Directory.aligned_zero
  · intro id file fp hfile hfp _ _
    obtain ⟨⟨old, hold⟩, hboundary⟩ := h.files id fp hfp
    show Boundary id magic (e.bytes id) fp.scannedTo
    rw [hkeeps _ _ _ hold hfile]
    exact hboundary

theorem exact (h : Steady d magic s) (hkeeps : d.Keeps e)
    (hu : Snapshot.Usable e magic s stale u) : u.Exact e magic := by
  have hrecord : ∀ r ∈ d.records magic, ¬ s.Suspect e magic r → r ∈ e.records magic := by
    intro r hr hsuspect
    obtain ⟨file, hfile⟩ := Snapshot.exists_file_of_not_suspect hsuspect
    exact hkeeps.mem_records hr hfile
  exact {
    forest := hu.forest h.forest
    entries := fun f hf => hrecord _ (h.entries f (hu.mem_entries hf)) (hu.entry f hf)
    orphans := fun o ho => hrecord o (h.orphans o (hu.orphans.subset ho)) (hu.orphan o ho)
    aligned := h.aligned_used hkeeps hu }

end Steady

/-! ## One run -/

namespace Steady

variable {config : Config} {d e : Directory} {s : Snapshot} {c : Course}

theorem exists_ran (h : Steady d config.network.magic s) (hkeeps : d.Keeps e) :
    ∃ c, Ran config e s c :=
  ran h.readable fun _ _ hu => (h.exact hkeeps hu).ready

theorem stored (h : Steady d config.network.magic s) (hkeeps : d.Keeps e)
    (hran : Ran config e s c) : Steady e config.network.magic (c.stored e) := by
  have hexact := h.exact hkeeps hran.usable
  exact {
    forest := hran.listed_entries.forest
    entries := fun f hf => hran.mem_records hexact (hran.listed_entries.mem_records hf)
    orphans := fun o ho => hran.mem_records hexact
      (hran.mem_records_of_stored (Snapshot.mem_copies.2 (Or.inr ho)))
    distinct := hran.distinct_stored
    cursor := (hran.aligned hexact.aligned).1
    files := by
      intro id fp hfp
      obtain ⟨file, hfile, ⟨n, hn, rfl⟩ | ⟨_, hold⟩⟩ := hran.fingerprint_cases hfp
      · exact ⟨⟨file, hfile⟩, (hran.aligned hexact.aligned).2 id n hn⟩
      · obtain ⟨⟨old, holdfile⟩, hboundary⟩ := h.files id fp hold
        refine ⟨⟨file, hfile⟩, ?_⟩
        rw [hkeeps _ _ _ holdfile hfile]
        exact hboundary }

/-- **One run.**  It knows every block of its directory just if of each block whose kept copy is
gone another copy comes upon, as long as there is another. -/
theorem knows_all_iff (h : Steady d config.network.magic s) (hkeeps : d.Keeps e)
    (hcovers : s.Covers d config.network.magic) (hran : Ran config e s c) (hleft : c.left = []) :
    (∀ r ∈ e.records config.network.magic, (c.stored e).Knows r.hash) ↔
      ∀ k ∈ s.copies, k ∉ e.records config.network.magic →
        ∀ r ∈ e.records config.network.magic, r.hash = k.hash →
          ∃ r' ∈ e.records config.network.magic, r'.hash = k.hash ∧
            c.used.cursor ≤ r'.position := by
  have hexact := h.exact hkeeps hran.usable
  have hfed : ∀ r, r ∈ c.fed ↔ r ∈ e.records config.network.magic ∧
      c.used.cursor ≤ r.position := by
    intro r
    rw [hran.fed_or_left hexact.aligned, hleft]
    simp
  constructor
  · intro hall k hk hgone r hr hhash
    rcases hran.knows_iff.1 (hall r hr) with hused | hread
    · -- the copy that is used would be the kept one, which is gone
      obtain ⟨k', hk', hhash'⟩ := List.mem_map.1 (Snapshot.mem_hashes_copies.2 hused)
      have heq := h.eq_of_hash (hran.usable.of_mem_copies hk').1 hk (hhash'.trans hhash)
      rw [heq] at hk'
      exact absurd (hexact.mem_records hk') hgone
    · obtain ⟨r', hr', hhash'⟩ := List.mem_map.1 hread
      obtain ⟨hmem, hle⟩ := (hfed r').1 hr'
      exact ⟨r', hmem, hhash'.trans hhash, hle⟩
  · intro hcopies r hr
    rw [hran.knows_iff]
    by_cases hle : c.used.cursor ≤ r.position
    · exact Or.inr (List.mem_map_of_mem ((hfed r).2 ⟨hr, hle⟩))
    have hlt : r.position < c.used.cursor := Cursor.not_le.1 hle
    -- a file before the cursor is known, so the record is not new
    have hold : r ∈ d.records config.network.magic := by
      obtain ⟨file, hfile⟩ := Directory.exists_file (Directory.mem_records_iff.1 hr)
      cases hfp : s.files.get? r.fileId with
      | some fp =>
        obtain ⟨⟨old, hd⟩, _⟩ := h.files _ fp hfp
        exact hkeeps.of_mem_records hr hd
      | none =>
        exact absurd (Cursor.le_trans (hran.usable.le_unknown hfile hfp)
          (Cursor.mk_le_mk (Nat.zero_le _))) hle
    have hknown := hcovers r hold (Cursor.lt_of_lt_of_le hlt hran.usable.back)
    obtain ⟨k, hk, hhash⟩ := List.mem_map.1 (Snapshot.mem_hashes_copies.2 hknown)
    rcases hran.usable.copies_cases hk with hin | hback
    · rw [← hhash]
      exact Or.inl (Snapshot.mem_hashes_copies.1 (List.mem_map_of_mem hin))
    · right
      rw [← hhash]
      by_cases hthere : k ∈ e.records config.network.magic
      · exact List.mem_map_of_mem ((hfed k).2 ⟨hthere, hback⟩)
      · obtain ⟨r', hr', hhash', hle'⟩ := hcopies k hk hthere r hr hhash.symm
        exact List.mem_map.2 ⟨r', (hfed r').2 ⟨hr', hle'⟩, hhash'⟩

end Steady

/-! ## Histories -/

namespace DatabaseStore

/-- A run knows every block of its directory, linked or waiting. -/
def LosesNothing (store : DatabaseStore) (stage : Stage) : Prop :=
  ∀ r ∈ stage.directory.records stage.config.network.magic,
    r.hash ∈ (store.assembled stage.config stage.directory).records.map Record.hash

/-- Of a block whose kept copy is gone, another copy stands where the run takes its scan up or after
it, if the directory holds another at all. -/
def KeepsCopies (store : DatabaseStore) (stage : Stage) : Prop :=
  ∀ k ∈ store.loaded.copies, k ∉ stage.directory.records stage.config.network.magic →
    ∀ r ∈ stage.directory.records stage.config.network.magic, r.hash = k.hash →
      ∃ r' ∈ stage.directory.records stage.config.network.magic, r'.hash = k.hash ∧
        (store.used stage.config stage.directory).cursor ≤ r'.position

instance (store : DatabaseStore) (stage : Stage) : Decidable (store.KeepsCopies stage) :=
  inferInstanceAs (Decidable (∀ k ∈ store.loaded.copies, _ → ∀ r ∈ stage.directory.records _, _ →
    ∃ r' ∈ stage.directory.records _, _ ∧ _))

end DatabaseStore

/-- Runs on one network without a last height, between which whole files are added or removed. -/
def FilesComeAndGo (network : Network) : List Stage → Prop
  | [] => True
  | stage :: before => stage.config.network = network ∧ stage.config.endHeight = none ∧
      (∀ older ∈ before.head?, older.directory.Keeps stage.directory) ∧
      FilesComeAndGo network before

variable {network : Network} {history : List Stage}

theorem Directory.Keeps.refl (d : Directory) : d.Keeps d := fun _ _ _ _ _ => rfl

/-- What the next run loads speaks of a directory of which the next one keeps what stays, and if no
run lost anything, it covers that directory. -/
theorem FilesComeAndGo.steady (h : FilesComeAndGo network history) (e : Directory)
    (hnext : ∀ older ∈ history.head?, older.directory.Keeps e) :
    ∃ d s, (storeAfter network history).Holds s ∧ d.Keeps e ∧
      Steady d network.magic (storeAfter network history).loaded ∧
      (EveryRun network DatabaseStore.LosesNothing history →
        (storeAfter network history).loaded.Covers d network.magic) := by
  induction history generalizing e with
  | nil =>
    have hs : (storeAfter network []).Holds Snapshot.empty := DatabaseStore.holds_inMemory network
    refine ⟨e, _, hs, Directory.Keeps.refl e, ?_, ?_⟩
    · rw [storeAfter, DatabaseStore.loaded_inMemory]
      exact Steady.empty e _
    · intro _
      rw [storeAfter, DatabaseStore.loaded_inMemory]
      exact Snapshot.covers_empty e _
  | cons stage before ih =>
    obtain ⟨rfl, _, hkept, hbefore⟩ := h
    obtain ⟨d, s, hs, hkeeps, hsteady, _⟩ := ih hbefore stage.directory hkept
    obtain ⟨c, hran⟩ := hsteady.exists_ran hkeeps
    have hs' := (hs.run hran.toFollows).2
    refine ⟨stage.directory, _, hs', hnext stage rfl, ?_, ?_⟩
    · exact hs'.loaded_spec (hsteady.stored hkeeps hran) (Steady.empty _ _)
    · intro hevery
      refine hs'.loaded_spec (P := fun u => u.Covers _ _) ?_ (Snapshot.covers_empty _ _)
      intro r hr _
      rw [hran.known_iff, ← hran.assembled_eq]
      exact hevery.1 r hr

/-- **Block files that come and go.**  Every run of a history knows all blocks of its directory just
if, whenever the kept copy of a block goes while another copy stays, one that stays stands where
the run takes its scan up or after it. -/
theorem loses_nothing_iff (h : FilesComeAndGo network history) :
    EveryRun network DatabaseStore.LosesNothing history ↔
      EveryRun network DatabaseStore.KeepsCopies history := by
  induction history with
  | nil => exact Iff.rfl
  | cons stage before ih =>
    obtain ⟨rfl, hend, hkept, hbefore⟩ := h
    obtain ⟨d, s, hs, hkeeps, hsteady, hcovers⟩ := hbefore.steady stage.directory hkept
    obtain ⟨c, hran⟩ := hsteady.exists_ran hkeeps
    have hleft := (hran.whole stage.config rfl (stopHeight_of_endHeight hend) rfl).1
    have hrun : EveryRun stage.config.network DatabaseStore.LosesNothing before →
        ((storeAfter stage.config.network before).LosesNothing stage ↔
          (storeAfter stage.config.network before).KeepsCopies stage) := by
      intro hevery
      rw [DatabaseStore.KeepsCopies, hran.used_eq,
        ← hsteady.knows_all_iff hkeeps (hcovers hevery) hran hleft]
      simp only [hran.known_iff, DatabaseStore.LosesNothing, hran.assembled_eq]
    constructor
    · intro hevery
      exact ⟨(hrun hevery.2).1 hevery.1, (ih hbefore).1 hevery.2⟩
    · intro hevery
      have hrest := (ih hbefore).2 hevery.2
      exact ⟨(hrun hrest).2 hevery.1, hrest⟩

/-! ### A copy that is lost -/

/-- The directory in which files of the given names hold the same first block. -/
def copiesIn (names : List String) : Volume :=
  .ofHeaders Network.regtest.magic (names.map fun name => (name, [Header.on Hash.zero 0]))

/-- One copy; another one in a file before it; the other one alone. -/
def oneCopy : Directory :=
  (Directory.at? (copiesIn ["blk00001.dat"]) ["blocks"]).get (by decide +kernel)

def copyAdded : Directory :=
  (Directory.at? (copiesIn ["blk00000.dat", "blk00001.dat"]) ["blocks"]).get (by decide +kernel)

def copyLeft : Directory :=
  (Directory.at? (copiesIn ["blk00000.dat"]) ["blocks"]).get (by decide +kernel)

/-- Three runs, the last of which stands first. -/
def copyRemoved : List Stage :=
  [⟨cachedConfig, copyLeft⟩, ⟨cachedConfig, copyAdded⟩, ⟨cachedConfig, oneCopy⟩]

/-- The last scan is taken up where the kept copy stood, so the copy before it is not found. -/
theorem copy_lost : FilesComeAndGo .regtest copyRemoved ∧
    ¬ EveryRun .regtest DatabaseStore.LosesNothing copyRemoved := by
  have hadded : oneCopy.Keeps copyAdded := by decide +kernel
  have hleft : copyAdded.Keeps copyLeft := by decide +kernel
  have hhistory : FilesComeAndGo .regtest copyRemoved := by
    refine ⟨rfl, rfl, ?_, rfl, rfl, ?_, rfl, rfl, ?_, trivial⟩
    · intro older holder
      obtain rfl := Option.some.inj holder
      exact hleft
    · intro older holder
      obtain rfl := Option.some.inj holder
      exact hadded
    · intro older holder
      simp at holder
  have hgone : ¬ EveryRun .regtest DatabaseStore.KeepsCopies copyRemoved := by
    intro hevery
    have hlast := hevery.1
    revert hlast
    decide +kernel
  exact ⟨hhistory, fun hevery => hgone ((loses_nothing_iff hhistory).1 hevery)⟩

end BlockIndex
