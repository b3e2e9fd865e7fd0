import BlockIndex.Proofs.Run.Tips
import BlockIndex.Proofs.Run.Walking

/-!
# Runs with and without a cache

Whether a run walks what it would walk over an empty cache.  Between runs block files may grow,
shrink, be rewritten, appear or disappear, as long as a file that keeps its length and its time
keeps its bytes.

* `Directory.Trusts`     files of the same length and time hold the same bytes;
* `Directory.Discerns`   no two different headers share a hash;
* `Settled`              what a snapshot says of the directory over which it was made;
* `DatabaseStore.given`  the records that a run gets, from the cache first and then from its scan.

Main statement: `walks_agree_iff`.  A run gets other records than one over an empty cache, or the same
in another order; both walk the same just if the same chain is best among either.
-/

namespace BlockIndex

namespace Directory

/-- Files of the same length and time hold the same bytes. -/
def Trusts (d e : Directory) : Prop :=
  ∀ id file file', d.files.get? id = some file → e.files.get? id = some file' →
    file.len = file'.len → file.modified = file'.modified → file.modified.isSome = true →
      e.bytes id = d.bytes id

/-- No two different headers in the files share a hash. -/
def Discerns (magic : UInt32) (d e : Directory) : Prop :=
  ∀ r s, d.Lies magic r → e.Lies magic s → r.hash = s.hash → r.header = s.header

variable {d e : Directory} {magic : UInt32} {r : Record}

theorem trusts_iff : d.Trusts e ↔ ∀ p ∈ d.files.toList, ∀ file' ∈ e.files.get? p.1,
    p.2.len = file'.len → p.2.modified = file'.modified → p.2.modified.isSome = true →
      e.bytes p.1 = d.bytes p.1 := by
  constructor
  · intro h p hp file' hfile'
    exact h p.1 p.2 file' (FileMap.get?_eq_some_iff.2 hp) hfile'
  · intro h id file file' hfile hfile'
    exact h (id, file) (FileMap.get?_eq_some_iff.1 hfile) file' hfile'

instance (d e : Directory) : Decidable (d.Trusts e) := decidable_of_iff' _ trusts_iff

instance (magic : UInt32) (bytes : Bytes) (p : Nat) : Decidable (MarkAt magic bytes p) :=
  inferInstanceAs (Decidable (_ <+: _))

/-- The record that lies at an offset, if one does. -/
def lying? (magic : UInt32) (id : Nat) (bytes : Bytes) (offset : Nat) : Option Record :=
  if MarkAt magic bytes offset then (readAt id bytes offset).toOption else none

/-- All records that lie in the directory. -/
def lying (d : Directory) (magic : UInt32) : List Record :=
  d.files.values.flatMap fun file =>
    (List.range (d.bytes file.id).length).filterMap (lying? magic file.id (d.bytes file.id))

theorem mem_lying : r ∈ d.lying magic ↔ d.Lies magic r := by
  have hat : ∀ {id offset}, lying? magic id (d.bytes id) offset = some r ↔
      MarkAt magic (d.bytes id) offset ∧ readAt id (d.bytes id) offset = .ok r := by
    intro id offset
    unfold lying?
    by_cases hmark : MarkAt magic (d.bytes id) offset
    · rw [if_pos hmark, and_iff_right hmark]
      cases readAt id (d.bytes id) offset <;> simp [Except.toOption]
    · rw [if_neg hmark]
      simp [hmark]
  rw [lying, List.mem_flatMap]
  constructor
  · intro h
    obtain ⟨file, hfile, hr⟩ := h
    obtain ⟨offset, _, hr⟩ := List.mem_filterMap.1 hr
    obtain ⟨hmark, hread⟩ := hat.1 hr
    obtain ⟨hid, hoffset, _⟩ := readAt_ok hread
    rw [Lies, hid, hoffset]
    exact ⟨⟨file, get?_of_mem hfile⟩, hmark, hread⟩
  · intro h
    obtain ⟨⟨file, hfile⟩, hmark, hread⟩ := h
    refine ⟨file, mem_values hfile, List.mem_filterMap.2 ⟨r.offset, ?_, ?_⟩⟩
    · rw [List.mem_range, (d.file_id hfile).1]
      have := hmark.room
      omega
    · rw [(d.file_id hfile).1]
      exact hat.2 ⟨hmark, hread⟩

theorem discerns_iff : Discerns magic d e ↔ ∀ r ∈ d.lying magic, ∀ s ∈ e.lying magic,
    r.hash = s.hash → r.header = s.header := by
  constructor
  · intro h r hr s hs
    exact h r s (mem_lying.1 hr) (mem_lying.1 hs)
  · intro h r s hr hs
    exact h r (mem_lying.2 hr) s (mem_lying.2 hs)

instance (magic : UInt32) (d e : Directory) : Decidable (Discerns magic d e) :=
  decidable_of_iff' _ discerns_iff

theorem Trusts.refl (d : Directory) : d.Trusts d := fun _ _ _ _ _ _ _ _ => rfl

/-- A record that lay in one directory lies in another one if it stands there and has room. -/
theorem Lies.stays (h : d.Lies magic r) (hdiscerns : Discerns magic d e) (hstands : e.Stands magic r)
    (hfile : ∃ file, e.files.get? r.fileId = some file)
    (hend : r.endOffset ≤ (e.bytes r.fileId).length) : e.Lies magic r := by
  have hsize : Header.size ≤ r.length := (readAt_ok h.2.2).2.2.2.2.1
  obtain ⟨found, hfound, hhash, hlength, hpos⟩ := hstands.lies hfile hsize hend
  have hheader := hdiscerns r found h hfound hhash.symm
  have hplace := Cursor.mk.inj hpos
  have heq : found = r := by
    cases found
    cases r
    simp_all
  rw [heq] at hfound
  exact hfound

theorem Discerns.consistent (h : Discerns magic d d) (rs : List Record) (hrs : ∀ r ∈ rs, d.Lies magic r) :
    Consistent rs :=
  fun r hr s hs => h r s (hrs r hr) (hrs s hs)

end Directory

/-! ## What a snapshot says of its directory -/

/-- What a snapshot holds lies in the directory, in files that are known as they are. -/
structure Settled (d : Directory) (magic : UInt32) (s : Snapshot) : Prop where
  forest : Forest s.entries
  copies : ∀ r ∈ s.copies, d.Lies magic r
  listed : ∀ r ∈ s.copies, ∃ fp, s.files.get? r.fileId = some fp
  files : ∀ id fp, s.files.get? id = some fp →
    ∃ file, d.files.get? id = some file ∧ fp.len = file.len ∧ fp.modified = file.modified
  tip : IsTip s.entries s.tip

namespace Settled

variable {d e : Directory} {magic : UInt32} {s u : Snapshot} {stale : Option Nat} {r : Record}

theorem empty (d : Directory) (magic : UInt32) : Settled d magic Snapshot.empty where
  forest := Forest.nil
  copies := by
    intro r hr
    simp [Snapshot.copies, Snapshot.empty] at hr
  listed := by
    intro r hr
    simp [Snapshot.copies, Snapshot.empty] at hr
  files := by
    intro id fp h
    simp [Snapshot.empty] at h
  tip := by
    intro x hx
    simp [Snapshot.empty] at hx

theorem readable (h : Settled d magic s) : s.Readable := Snapshot.readable_of_lies h.copies

/-- What passes the check lies in the directory that is checked. -/
theorem stays (h : Settled d magic s) (htrusts : d.Trusts e)
    (hdiscerns : Directory.Discerns magic d e) (hr : r ∈ s.copies)
    (hsuspect : ¬ s.Suspect e magic r) : e.Lies magic r := by
  have hlies := h.copies r hr
  obtain ⟨fp, hfp⟩ := h.listed r hr
  obtain ⟨file, hfile, hlen, hmodified⟩ := h.files _ fp hfp
  rcases Snapshot.not_suspect_cases hsuspect with hstands | hsame
  · -- the record was read again, and its file has not become shorter
    obtain ⟨file', hfile', hlong⟩ :=
      Snapshot.condition_ne_gone_iff.1 fun hgone => hsuspect (Or.inl hgone)
    have hle := hlong fp hfp
    have hend := hlies.fits.2.2
    have hbytes := (Directory.length_bytes hfile).1
    have hbytes' := (Directory.length_bytes hfile').1
    exact hlies.stays hdiscerns hstands ⟨file', hfile'⟩ (by omega)
  · obtain ⟨file', fp', hfile', hfp', hmatches⟩ := Snapshot.condition_eq_unchanged_iff.1 hsame
    rw [hfp] at hfp'
    obtain rfl := Option.some.inj hfp'
    obtain ⟨hlen', hmodified', htimed⟩ := Fingerprint.matchesFile_iff.1 hmatches
    have hbytes : e.bytes r.fileId = d.bytes r.fileId :=
      htrusts _ _ _ hfile hfile' (hlen.symm.trans hlen') (hmodified.symm.trans hmodified')
        (by rw [← hmodified]; exact htimed)
    refine ⟨⟨file', hfile'⟩, ?_⟩
    rw [hbytes]
    exact hlies.2

/-- What of a snapshot is used is ready for a run over the next directory. -/
theorem ready (h : Settled d magic s) (htrusts : d.Trusts e)
    (hdiscerns : Directory.Discerns magic d e) (hu : Snapshot.Usable e magic s stale u) :
    u.Ready e magic where
  forest := hu.forest h.forest
  entries := by
    intro f hf
    have hmem : f.toRecord ∈ s.copies :=
      Snapshot.mem_copies.2 (Or.inl ⟨f, hu.mem_entries hf, rfl⟩)
    exact h.stays htrusts hdiscerns hmem (hu.entry f hf)
  orphans := fun o ho => h.stays htrusts hdiscerns
    (Snapshot.mem_copies.2 (Or.inr (hu.orphans.subset ho))) (hu.orphan o ho)

theorem exists_ran {config : Config} (h : Settled d config.network.magic s) (htrusts : d.Trusts e)
    (hdiscerns : Directory.Discerns config.network.magic d e) : ∃ c, Ran config e s c :=
  ran h.readable fun _ _ hu => h.ready htrusts hdiscerns hu

theorem isTip_used (h : Settled d magic s) (hu : Snapshot.Usable e magic s stale u) :
    IsTip u.entries u.tip :=
  hu.isTip h.forest h.tip

end Settled

/-! ## One run -/

section Run

variable {config : Config} {d e : Directory} {s : Snapshot} {c : Course}

/-- Of every file a fingerprint is kept, and it is the one that the file has. -/
theorem Ran.fingerprint (h : Ran config d s c) (hopen : config.IsOpen) {id : Nat} {file : BlockFile}
    (hfile : d.files.get? id = some file) :
    ∃ fp, (c.stored d).files.get? id = some fp ∧ fp.len = file.len ∧
      fp.modified = file.modified := by
  have hwhole := (h.whole config rfl (stopHeight_of_endHeight hopen.endHeight) rfl).2
  have hscanned := hwhole id file hfile
  rw [h.get?_stored hfile]
  cases hn : c.outcome.scanned.get? id with
  | some n => exact ⟨_, rfl, rfl, rfl⟩
  | none =>
    -- the file stands before the cursor, so it has not changed
    rw [hn] at hscanned
    have hlow : ¬ c.used.cursor.fileId ≤ id := of_decide_eq_false hscanned.symm
    have hsame : s.rescanFrom? file = none := by
      cases hfrom : s.rescanFrom? file with
      | none => rfl
      | some offset =>
        have hle := Cursor.le_iff.1 (h.usable.rescan id file offset hfile hfrom)
        have : c.used.cursor.fileId < id ∨ c.used.cursor.fileId = id ∧ _ := hle
        omega
    obtain ⟨fp, hfp, hmatches⟩ := Snapshot.rescanFrom?_eq_none_iff.1 hsame
    obtain ⟨hlen, hmodified, _⟩ := Fingerprint.matchesFile_iff.1 hmatches
    rw [(d.file_id hfile).1] at hfp
    exact ⟨fp, hfp, hlen, hmodified⟩

/-- What a run stores speaks of its directory. -/
theorem Ran.settled (h : Ran config d s c) (hopen : config.IsOpen)
    (htip : IsTip c.used.entries c.used.tip) : Settled d config.network.magic (c.stored d) := by
  have hlies : ∀ r ∈ (c.stored d).copies, d.Lies config.network.magic r := fun r hr =>
    h.lies (h.mem_records_of_stored hr)
  exact {
    forest := h.listed_entries.forest
    copies := hlies
    listed := by
      intro r hr
      obtain ⟨⟨file, hfile⟩, _⟩ := hlies r hr
      obtain ⟨fp, hfp, _⟩ := h.fingerprint hopen hfile
      exact ⟨fp, hfp⟩
    files := by
      intro id fp hfp
      obtain ⟨file, hfile, _⟩ := h.fingerprint_cases hfp
      obtain ⟨fp', hfp', hlen, hmodified⟩ := h.fingerprint hopen hfile
      rw [hfp] at hfp'
      rw [Option.some.inj hfp']
      exact ⟨file, hfile, hlen, hmodified⟩
    tip := h.toFollows.isTip_stored htip }

theorem Snapshot.Ready.lies_given {magic : UInt32} {u : Snapshot} (h : u.Ready d magic)
    {r : Record} (hr : r ∈ u.copies ++ d.readFrom magic u.cursor) : d.Lies magic r := by
  rcases List.mem_append.1 hr with hr | hr
  · exact h.lies hr
  · exact (Directory.mem_readFrom hr).1

/-- **The best chain of a run**, said of the records that it gets. -/
theorem Ran.isBest (h : Ran config d s c) (hopen : config.IsOpen)
    (hdiscerns : Directory.Discerns config.network.magic d d)
    (htip : IsTip c.used.entries c.used.tip) :
    IsBest (c.used.copies ++ d.readFrom config.network.magic c.used.cursor) c.used.tip
      c.assembler.best.hashes := by
  have hleft := (h.whole config rfl (stopHeight_of_endHeight hopen.endHeight) rfl).1
  have hgiven : c.used.copies ++ d.readFrom config.network.magic c.used.cursor
      = c.used.entries.map Entry.toRecord ++ (c.used.orphans ++ c.fed) := by
    rw [h.split, hleft, List.append_nil, Snapshot.copies, List.append_assoc]
  have hc := hdiscerns.consistent (c.used.copies ++ d.readFrom config.network.magic c.used.cursor)
    fun r hr => h.ready.lies_given hr
  rw [hgiven] at hc ⊢
  rw [Course.assembler, Snapshot.swept_eq]
  exact Assembler.isBest_seeded h.sound.forest h.sound.genuine htip hc

/-- What a run walks is its best chain. -/
theorem Ran.walked_best {store : DatabaseStore} (h : Ran config d store.loaded c)
    (hs : store.Holds s) (hopen : config.IsOpen) (htip : IsTip c.used.entries c.used.tip) :
    walked config d store = walkOf config.startHeight c.assembler.best.hashes := by
  refine h.walked_eq hs hopen ?_
  intro x hx
  obtain ⟨front, htipped⟩ := h.toFollows.tipped htip
  obtain ⟨i, hi⟩ := List.getElem?_of_mem hx
  obtain ⟨r, hr, hhash⟩ := (htipped.rests.grounded i x hi).mem
  exact List.mem_map.2 ⟨r, hr, hhash⟩

end Run

/-! ## Histories -/

/-- The records that a run gets, in this order: those that it keeps from the cache, then those that
its scan reads. -/
def DatabaseStore.given (store : DatabaseStore) (config : Config) (d : Directory) : List Record :=
  (store.used config d).copies ++
    d.readFrom config.network.magic (store.used config d).cursor

/-- Runs on one network without a last height, a first or a last block, between which block files
change in any way, but so that a file that keeps its length and time keeps its bytes.  No two
different headers share a hash. -/
def FilesChange (network : Network) : List Stage → Prop
  | [] => True
  | stage :: before => stage.config.network = network ∧ stage.config.IsOpen ∧
      Directory.Discerns network.magic stage.directory stage.directory ∧
      (∀ older ∈ before.head?, older.directory.Trusts stage.directory ∧
        Directory.Discerns network.magic older.directory stage.directory) ∧
      FilesChange network before

/-- The options of a run that begins at some height. -/
def Config.from (config : Config) (start : Nat) : Config := { config with startHeight := start }

theorem Config.IsOpen.from {config : Config} (h : config.IsOpen) (start : Nat) :
    (config.from start).IsOpen :=
  ⟨h.endHeight, h.startHash, h.endHash⟩

variable {network : Network} {stage : Stage} {before : List Stage}

/-- What the next run loads is settled in a directory of which the next one can be told. -/
theorem FilesChange.settled (h : FilesChange network before) (e : Directory)
    (hself : Directory.Discerns network.magic e e)
    (hnext : ∀ older ∈ before.head?, older.directory.Trusts e ∧
      Directory.Discerns network.magic older.directory e) :
    ∃ d s, (storeAfter network before).Holds s ∧ d.Trusts e ∧
      Directory.Discerns network.magic d e ∧
      Settled d network.magic (storeAfter network before).loaded := by
  induction before generalizing e with
  | nil =>
    have hs : (storeAfter network []).Holds Snapshot.empty := DatabaseStore.holds_inMemory network
    refine ⟨e, _, hs, Directory.Trusts.refl e, hself, ?_⟩
    rw [storeAfter, DatabaseStore.loaded_inMemory]
    exact Settled.empty e _
  | cons stage before ih =>
    obtain ⟨rfl, hopen, hstage, hkept, hbefore⟩ := h
    obtain ⟨d, s, hs, htrusts, hdiscerns, hsettled⟩ := ih hbefore stage.directory hstage hkept
    obtain ⟨c, hran⟩ := hsettled.exists_ran htrusts hdiscerns
    have hs' := (hs.run hran.toFollows).2
    refine ⟨stage.directory, _, hs', (hnext stage rfl).1, (hnext stage rfl).2, ?_⟩
    exact hs'.loaded_spec (hran.settled hopen (hsettled.isTip_used hran.usable))
      (Settled.empty _ _)

/-- A run whose snapshot is settled walks the best chain of the records that it gets. -/
theorem Settled.walks {config : Config} {d e : Directory} {store : DatabaseStore} {s : Snapshot}
    (h : Settled d config.network.magic store.loaded) (htrusts : d.Trusts e)
    (hdiscerns : Directory.Discerns config.network.magic d e)
    (hself : Directory.Discerns config.network.magic e e) (hs : store.Holds s)
    (hopen : config.IsOpen) :
    ∃ chain, (∀ start, walked (config.from start) e store = walkOf start chain) ∧
      IsBest (store.given config e) (store.used config e).tip chain ∧
      Consistent (store.given config e) := by
  have hrun : ∀ start, ∃ c, Ran (config.from start) e store.loaded c ∧
      IsBest (store.given config e) (store.used config e).tip c.assembler.best.hashes ∧
      IsTip c.used.entries c.used.tip := by
    intro start
    obtain ⟨c, hran⟩ : ∃ c, Ran (config.from start) e store.loaded c :=
      exists_ran h htrusts hdiscerns
    have htip := h.isTip_used hran.usable
    have hused : store.used config e = c.used := hran.used_eq
    refine ⟨c, hran, ?_, htip⟩
    rw [DatabaseStore.given, hused]
    exact hran.isBest (hopen.from start) hself htip
  obtain ⟨c, hran, hbest, _⟩ := hrun 0
  have hused : store.used config e = c.used := hran.used_eq
  have hc : Consistent (store.given config e) := by
    apply hself.consistent
    intro r hr
    rw [DatabaseStore.given, hused] at hr
    exact hran.ready.lies_given hr
  refine ⟨c.assembler.best.hashes, ?_, hbest, hc⟩
  intro start
  obtain ⟨c', hran', hbest', htip'⟩ := hrun start
  rw [hran'.walked_best hs (hopen.from start) htip', hbest'.unique hc hbest]
  rfl

theorem DatabaseStore.given_inMemory (network : Network) (config : Config) (d : Directory) :
    (DatabaseStore.inMemory network).given config d = d.records config.network.magic ∧
      ((DatabaseStore.inMemory network).used config d).tip = none := by
  obtain ⟨c, hran⟩ : ∃ c, Ran config d (DatabaseStore.inMemory network).loaded c := by
    rw [loaded_inMemory]
    refine ran (Settled.empty d config.network.magic).readable ?_
    intro stale u hu
    exact ⟨by rw [hu.entries]; exact Forest.nil, by rw [hu.entries]; simp [Snapshot.empty], by
      intro o ho
      simpa [Snapshot.empty] using hu.orphans.subset ho⟩
  have hu := hran.usable
  rw [DatabaseStore.given, hran.used_eq]
  rw [loaded_inMemory] at hu
  have hentries : c.used.entries = [] := hu.entries
  have horphans : c.used.orphans = [] := List.sublist_nil.1 hu.orphans
  have hcursor : c.used.cursor = ⟨0, 0⟩ := Cursor.le_antisymm hu.back (Cursor.start_le _)
  refine ⟨?_, hu.tip⟩
  rw [hcursor, Directory.readFrom_eq (Directory.aligned_zero 0), Snapshot.copies, hentries, horphans]
  show d.recordsFrom _ _ = _
  rw [Directory.recordsFrom, List.filter_eq_self]
  exact fun r _ => decide_eq_true (Cursor.start_le r.position)

/-- **Runs with and without a cache.**  However block files changed before it, a run walks what it
would walk over an empty cache just if one chain is best among the records of its directory, and is
best among those that it gets, with the tip of the cache in front. -/
theorem walks_agree_iff (h : FilesChange network (stage :: before)) :
    (∀ start, walked (stage.config.from start) stage.directory (storeAfter network before)
        = walked (stage.config.from start) stage.directory (.inMemory network)) ↔
      ∃ chain, IsBest (stage.directory.records network.magic) none chain ∧
        IsBest ((storeAfter network before).given stage.config stage.directory)
          ((storeAfter network before).used stage.config stage.directory).tip chain := by
  obtain ⟨rfl, hopen, hself, hkept, hbefore⟩ := h
  obtain ⟨d, s, hs, htrusts, hdiscerns, hsettled⟩ := hbefore.settled stage.directory hself hkept
  obtain ⟨chain, hwalks, hbest, hc⟩ := hsettled.walks htrusts hdiscerns hself hs hopen
  have hempty := Settled.empty stage.directory stage.config.network.magic
  rw [← DatabaseStore.loaded_inMemory stage.config.network] at hempty
  obtain ⟨fresh, hfresh, hbest', hc'⟩ := hempty.walks (Directory.Trusts.refl _) hself hself
    (DatabaseStore.holds_inMemory stage.config.network) hopen
  obtain ⟨hgiven, htip⟩ := DatabaseStore.given_inMemory stage.config.network stage.config
    stage.directory
  rw [hgiven] at hbest' hc'
  rw [htip] at hbest'
  constructor
  · intro hsame
    have heq : chain = fresh := by
      apply walkOf_zero_inj
      rw [← hwalks, ← hfresh]
      exact hsame 0
    rw [heq] at hbest
    exact ⟨fresh, hbest', hbest⟩
  · intro hagree start
    obtain ⟨best, hrecords, hcache⟩ := hagree
    rw [hwalks, hfresh, hbest.unique hc hcache, hbest'.unique hc' hrecords]

/-! ### A tie that is decided otherwise -/

/-- A directory whose files hold a first block each. -/
def firstBlocks (files : List (String × UInt32)) : Volume :=
  .ofHeaders Network.regtest.magic (files.map fun file => (file.1, [Header.on Hash.zero file.2]))

/-- One first block; another one in a file before it. -/
def oneFirst : Directory :=
  (Directory.at? (firstBlocks [("blk00001.dat", 0)]) ["blocks"]).get (by decide +kernel)

def twoFirst : Directory :=
  (Directory.at? (firstBlocks [("blk00000.dat", 1), ("blk00001.dat", 0)]) ["blocks"]).get
    (by decide +kernel)

/-- The heights and hashes that are walked before the first error. -/
def reads (result : Except Error (List (Except Error (Nat × Hash)))) : List (Nat × Hash) :=
  (result.toOption.getD []).filterMap Except.toOption

/-- The tip of the cache stays the tip; without a cache it is the block that is read first. -/
theorem tie_decided_otherwise :
    FilesChange .regtest [⟨cachedConfig, twoFirst⟩, ⟨cachedConfig, oneFirst⟩] ∧
      ¬ ∃ chain, IsBest (twoFirst.records Network.regtest.magic) none chain ∧
        IsBest ((storeAfter .regtest [⟨cachedConfig, oneFirst⟩]).given cachedConfig twoFirst)
          ((storeAfter .regtest [⟨cachedConfig, oneFirst⟩]).used cachedConfig twoFirst).tip chain := by
  have htrusts : oneFirst.Trusts twoFirst := by decide +kernel
  have hone : Directory.Discerns Network.regtest.magic oneFirst oneFirst := by decide +kernel
  have htwo : Directory.Discerns Network.regtest.magic twoFirst twoFirst := by decide +kernel
  have hboth : Directory.Discerns Network.regtest.magic oneFirst twoFirst := by decide +kernel
  have hhistory : FilesChange .regtest [⟨cachedConfig, twoFirst⟩, ⟨cachedConfig, oneFirst⟩] := by
    refine ⟨rfl, ⟨rfl, rfl, rfl⟩, ?_, ?_, rfl, ⟨rfl, rfl, rfl⟩, ?_, ?_, trivial⟩
    · exact htwo
    · intro older holder
      obtain rfl := Option.some.inj holder
      exact ⟨htrusts, hboth⟩
    · exact hone
    · intro older holder
      simp at holder
  have hreads : reads (walked (cachedConfig.from 0) twoFirst
        (storeAfter .regtest [⟨cachedConfig, oneFirst⟩]))
      ≠ reads (walked (cachedConfig.from 0) twoFirst (.inMemory .regtest)) := by
    decide +kernel
  refine ⟨hhistory, fun hagree => hreads ?_⟩
  exact congrArg reads ((walks_agree_iff hhistory).2 hagree 0)

end BlockIndex
