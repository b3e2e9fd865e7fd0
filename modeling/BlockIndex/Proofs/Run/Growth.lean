import BlockIndex.Proofs.Run.Planning

/-!
# Directories that grow

What the store holds while block files only grow and new ones come, over any runs, of which each may
stop its scan early or be cut off after any of its edits.

* `Directory.GrowsTo`  every file is still there, with bytes added to it or none;
* `Accounted`          each record of the directory is stored, or a record of its hash is due: the
                       next scan comes upon it;
* `Reached`            a database after any such history.

Main statements: `Reached.accounted` (every database reached accounts for its directory),
`Reached.stores_all` (after a run whose scan does not stop early, just the blocks of the directory
are stored, each that is connected to a first block at its height).
-/

namespace BlockIndex

/-! ## Growth -/

/-- Every file is still there, with bytes added to it or none.  Any files may have come. -/
def Directory.GrowsTo (d e : Directory) : Prop :=
  ∀ id file, d.files.get? id = some file →
    (∃ file', e.files.get? id = some file') ∧ d.bytes id <+: e.bytes id

namespace Directory

variable {d e : Directory} {magic : UInt32} {r : Record} {id : Nat} {c : Cursor}

theorem growsTo_iff : d.GrowsTo e ↔ ∀ p ∈ d.files.toList,
    (e.files.get? p.1).isSome = true ∧ d.bytes p.1 <+: e.bytes p.1 := by
  constructor
  · intro h p hp
    obtain ⟨⟨file', hfile'⟩, hprefix⟩ := h p.1 p.2 (FileMap.get?_eq_some_iff.2 hp)
    rw [hfile']
    exact ⟨rfl, hprefix⟩
  · intro h id file hfile
    obtain ⟨hsome, hprefix⟩ := h (id, file) (FileMap.get?_eq_some_iff.1 hfile)
    exact ⟨Option.isSome_iff_exists.1 hsome, hprefix⟩

instance (d e : Directory) : Decidable (d.GrowsTo e) := decidable_of_iff' _ growsTo_iff

theorem GrowsTo.mem_records (h : d.GrowsTo e) (hr : r ∈ d.records magic) : r ∈ e.records magic := by
  rw [mem_records_iff] at hr ⊢
  obtain ⟨file, hfile⟩ := exists_file hr
  obtain ⟨_, more, hmore⟩ := h _ _ hfile
  obtain ⟨_, hscan⟩ := d.scans magic r.fileId
  obtain ⟨_, hscan'⟩ := e.scans magic r.fileId
  rw [← hmore] at hscan'
  exact hscan.mem_append hr hscan'

/-- A position is the beginning of a file, or lies at a boundary of a file that there is. -/
def Anchored (d : Directory) (magic : UInt32) (c : Cursor) : Prop :=
  c.offset = 0 ∨ ((∃ file, d.files.get? c.fileId = some file) ∧
    Boundary c.fileId magic (d.bytes c.fileId) c.offset)

theorem Anchored.aligned (h : d.Anchored magic c) : d.Aligned magic c := by
  intro file _
  rcases h with hzero | ⟨_, hboundary⟩
  · rw [hzero]
    exact Boundary.zero _ _ _
  · exact hboundary

theorem anchored_position (hr : r ∈ d.records magic) : d.Anchored magic r.position := by
  obtain ⟨file, hfile⟩ := exists_file (mem_records_iff.1 hr)
  exact Or.inr ⟨⟨file, hfile⟩, aligned_position hr file hfile⟩

theorem GrowsTo.anchored (h : d.GrowsTo e) (hc : d.Anchored magic c) : e.Anchored magic c := by
  rcases hc with hzero | ⟨⟨file, hfile⟩, hboundary⟩
  · exact Or.inl hzero
  · obtain ⟨hfile', more, hmore⟩ := h _ _ hfile
    refine Or.inr ⟨hfile', ?_⟩
    rw [← hmore]
    exact hboundary.append

end Directory

/-! ## What is accounted for -/

/-- A scan comes upon a record: it stands at the cursor or after it, or in a file of which nothing
is known, or in a part of its file that has not been scanned since the file grew. -/
def Snapshot.Due (s : Snapshot) (d : Directory) (r : Record) : Prop :=
  s.cursor ≤ r.position ∨ s.files.get? r.fileId = none ∨
    ∃ fp file, s.files.get? r.fileId = some fp ∧ d.files.get? r.fileId = some file ∧
      fp.len < file.len ∧ fp.scannedTo ≤ r.offset

/-- A snapshot speaks of a directory, and each record of the directory is known or a record of its
hash is due. -/
structure Accounted (d : Directory) (magic : UInt32) (s : Snapshot) : Prop where
  forest : Forest s.entries
  entries : ∀ e ∈ s.entries, e.toRecord ∈ d.records magic
  orphans : ∀ o ∈ s.orphans, o ∈ d.records magic
  cursor : d.Anchored magic s.cursor
  files : ∀ id fp, s.files.get? id = some fp → ∃ file, d.files.get? id = some file ∧
    fp.len ≤ file.len ∧ Boundary id magic ((d.bytes id).take fp.len) fp.scannedTo
  covered : ∀ r ∈ d.records magic, s.Knows r.hash ∨
    ∃ r' ∈ d.records magic, r'.hash = r.hash ∧ s.Due d r'

namespace Accounted

variable {d e : Directory} {magic : UInt32} {s : Snapshot}

theorem empty (d : Directory) (magic : UInt32) : Accounted d magic Snapshot.empty where
  forest := Forest.nil
  entries := by
    intro e he
    simp [Snapshot.empty] at he
  orphans := by
    intro o ho
    simp [Snapshot.empty] at ho
  cursor := Or.inl rfl
  files := by
    intro id fp h
    simp [Snapshot.empty] at h
  covered := by
    intro r hr
    exact Or.inr ⟨r, hr, rfl, Or.inl (Cursor.start_le _)⟩

theorem mem_records (h : Accounted d magic s) {r : Record} (hr : r ∈ s.copies) :
    r ∈ d.records magic :=
  Snapshot.forall_copies.2 ⟨h.entries, h.orphans⟩ r hr

theorem readable (h : Accounted d magic s) : s.Readable :=
  Snapshot.readable_of_lies fun _ hr => Directory.lies_of_mem (h.mem_records hr)

/-! ### Growth -/

/-- A record that a file has gained stands after what was scanned of it. -/
theorem due_of_new (h : Accounted d magic s) (hgrow : d.GrowsTo e) {r : Record}
    (hr : r ∈ e.records magic) (hnew : r ∉ d.records magic) : s.Due e r := by
  cases hfp : s.files.get? r.fileId with
  | none => exact Or.inr (Or.inl hfp)
  | some fp =>
    right
    right
    obtain ⟨file, hfile, hle, hboundary⟩ := h.files _ _ hfp
    obtain ⟨⟨file', hfile'⟩, more, hmore⟩ := hgrow _ _ hfile
    have hlen := (Directory.length_bytes hfile).1
    have hlen' := (Directory.length_bytes hfile').1
    have hin := Directory.mem_records_iff.1 hr
    have hout : r ∉ d.recordsIn magic r.fileId := fun hin => hnew (Directory.mem_records_iff.2 hin)
    obtain ⟨_, hscan⟩ := d.scans magic r.fileId
    obtain ⟨_, hscan'⟩ := e.scans magic r.fileId
    have hlonger : (d.bytes r.fileId).length < (e.bytes r.fileId).length := by
      rw [← hmore, List.length_append]
      cases more with
      | nil =>
        -- nothing was added, so nothing new is found
        rw [List.append_nil] at hmore
        rw [← hmore] at hscan'
        obtain ⟨heq, _⟩ := hscan.unique hscan'
        rw [heq] at hin
        exact absurd hin hout
      | cons b rest =>
        rw [List.length_cons]
        omega
    refine ⟨fp, file', hfp, hfile', by omega, ?_⟩
    have hwhole : d.bytes r.fileId = (d.bytes r.fileId).take fp.len ++
        (d.bytes r.fileId).drop fp.len := (List.take_append_drop _ _).symm
    have hwhole' : e.bytes r.fileId = (d.bytes r.fileId).take fp.len ++
        ((d.bytes r.fileId).drop fp.len ++ more) := by
      rw [← List.append_assoc, ← hwhole]
      exact hmore.symm
    obtain ⟨rs, stop, fault, hpart⟩ := Scans.total r.fileId magic
      ((d.bytes r.fileId).take fp.len) (Nat.zero_le _)
    rw [hwhole] at hscan
    rw [hwhole'] at hscan'
    by_cases hlt : r.offset < fp.scannedTo
    · exact absurd (hpart.mem_append (hboundary.mem_of_append hpart hscan' hin hlt) hscan) hout
    · exact Nat.le_of_not_lt hlt

theorem grow (h : Accounted d magic s) (hgrow : d.GrowsTo e) : Accounted e magic s where
  forest := h.forest
  entries := fun f hf => hgrow.mem_records (h.entries f hf)
  orphans := fun o ho => hgrow.mem_records (h.orphans o ho)
  cursor := hgrow.anchored h.cursor
  files := by
    intro id fp hfp
    obtain ⟨file, hfile, hle, hboundary⟩ := h.files id fp hfp
    obtain ⟨⟨file', hfile'⟩, more, hmore⟩ := hgrow _ _ hfile
    have hlen := (Directory.length_bytes hfile).1
    have hlen' := (Directory.length_bytes hfile').1
    rw [← hmore, List.length_append] at hlen'
    refine ⟨file', hfile', by omega, ?_⟩
    rw [← hmore, List.take_append_of_le_length (by omega)]
    exact hboundary
  covered := by
    intro r hr
    by_cases hold : r ∈ d.records magic
    · rcases h.covered r hold with hknown | ⟨r', hr', hhash, hdue⟩
      · exact Or.inl hknown
      · refine Or.inr ⟨r', hgrow.mem_records hr', hhash, ?_⟩
        rcases hdue with hlate | hnone | ⟨fp, file, hfp, hfile, hlt, hoffset⟩
        · exact Or.inl hlate
        · exact Or.inr (Or.inl hnone)
        · obtain ⟨⟨file', hfile'⟩, more, hmore⟩ := hgrow _ _ hfile
          have hlen := (Directory.length_bytes hfile).1
          have hlen' := (Directory.length_bytes hfile').1
          rw [← hmore, List.length_append] at hlen'
          exact Or.inr (Or.inr ⟨fp, file', hfp, hfile', by omega, hoffset⟩)
    · exact Or.inr ⟨r, hr, rfl, h.due_of_new hgrow hr hold⟩

/-! ### Forgetting and adding entries -/

theorem truncate (h : Accounted d magic s) (height : Nat) :
    Accounted d magic (s.truncate height) where
  forest := h.forest.filter_lt height
  entries := fun f hf => h.entries f (List.mem_filter.1 hf).1
  orphans := h.orphans
  cursor := by
    rcases Cursor.rewindToAll_mem s.cursor
      ((s.entries.filter fun entry => height ≤ entry.height).map Entry.position) with heq | hmem
    · show d.Anchored magic (s.cursor.rewindToAll _)
      rw [heq]
      exact h.cursor
    · obtain ⟨f, hf, heq⟩ := List.mem_map.1 hmem
      show d.Anchored magic (s.cursor.rewindToAll _)
      rw [← heq]
      exact Directory.anchored_position (h.entries f (List.mem_filter.1 hf).1)
  files := h.files
  covered := by
    intro r hr
    have hback : (s.truncate height).cursor ≤ s.cursor := Cursor.rewindToAll_le _ _
    rcases h.covered r hr with (hentry | horphan) | ⟨r', hr', hhash, hdue⟩
    · obtain ⟨f, hf, hhash⟩ := List.mem_map.1 hentry
      by_cases hlow : f.height < height
      · left
        left
        exact List.mem_map.2 ⟨f, List.mem_filter.2 ⟨hf, decide_eq_true hlow⟩, hhash⟩
      · -- the cursor goes back to the entry that is forgotten
        refine Or.inr ⟨f.toRecord, h.entries f hf, hhash, Or.inl ?_⟩
        apply Cursor.rewindToAll_le_mem
        exact List.mem_map.2 ⟨f, List.mem_filter.2 ⟨hf, decide_eq_true (by omega)⟩, rfl⟩
    · exact Or.inl (Or.inr horphan)
    · refine Or.inr ⟨r', hr', hhash, ?_⟩
      rcases hdue with hlate | hrest
      · exact Or.inl (Cursor.le_trans hback hlate)
      · exact Or.inr hrest

theorem forget (h : Accounted d magic s) (stale : Option Nat) :
    Accounted d magic (s.forget stale) := by
  cases stale with
  | none => exact h
  | some height => exact h.truncate height

theorem extend (h : Accounted d magic s) {es : List Entry} (hforest : Forest es)
    (hentries : ∀ f ∈ es, f.toRecord ∈ d.records magic) (hsub : ∀ f ∈ s.entries, f ∈ es) :
    Accounted d magic { s with entries := es } where
  forest := hforest
  entries := hentries
  orphans := h.orphans
  cursor := h.cursor
  files := h.files
  covered := by
    intro r hr
    rcases h.covered r hr with (hentry | horphan) | hdue
    · obtain ⟨f, hf, hhash⟩ := List.mem_map.1 hentry
      exact Or.inl (Or.inl (List.mem_map.2 ⟨f, hsub f hf, hhash⟩))
    · exact Or.inl (Or.inr horphan)
    · exact Or.inr hdue

/-! ### What is used -/

theorem boundary_whole {id : Nat} {fp : Fingerprint}
    (h : Boundary id magic ((d.bytes id).take fp.len) fp.scannedTo) :
    Boundary id magic (d.bytes id) fp.scannedTo := by
  have hwhole : Boundary id magic ((d.bytes id).take fp.len ++ (d.bytes id).drop fp.len)
      fp.scannedTo := h.append
  rw [List.take_append_drop] at hwhole
  exact hwhole

variable {stale : Option Nat} {u : Snapshot}

theorem anchored_used (h : Accounted d magic s) (hu : Snapshot.Usable d magic s stale u) :
    d.Anchored magic u.cursor := by
  refine hu.cursor_spec (P := d.Anchored magic) ?_ ?_ ?_ ?_
  · exact fun _ => h.cursor
  · exact fun r hr => Directory.anchored_position (h.mem_records hr)
  · exact fun _ => Or.inl rfl
  · intro id file fp hfile hfp
    obtain ⟨_, _, _, hboundary⟩ := h.files id fp hfp
    exact Or.inr ⟨⟨file, hfile⟩, boundary_whole hboundary⟩

/-- What is used of an accounted snapshot are records of the directory. -/
theorem exact (h : Accounted d magic s) (hu : Snapshot.Usable d magic s stale u) :
    u.Exact d magic where
  forest := hu.forest h.forest
  entries := fun f hf => h.entries f (hu.mem_entries hf)
  orphans := fun o ho => h.orphans o (hu.orphans.subset ho)
  aligned := (h.anchored_used hu).aligned

/-- A record that is due is found from where the scan starts. -/
theorem used_le_of_due (hu : Snapshot.Usable d magic s stale u) {r : Record}
    (hr : r ∈ d.records magic) (hdue : s.Due d r) : u.cursor ≤ r.position := by
  obtain ⟨file, hfile⟩ := Directory.exists_file (Directory.mem_records_iff.1 hr)
  have hid := (d.file_id hfile).1
  rcases hdue with hlate | hnone | ⟨fp, file', hfp, hfile', hlt, hoffset⟩
  · exact Cursor.le_trans hu.back hlate
  · exact Cursor.le_trans (hu.le_unknown hfile hnone) (Cursor.mk_le_mk (Nat.zero_le _))
  · rw [hfile] at hfile'
    obtain rfl := Option.some.inj hfile'
    refine Cursor.le_trans (hu.rescan r.fileId file fp.scannedTo hfile ?_) ?_
    · unfold Snapshot.rescanFrom?
      rw [hid, hfp]
      dsimp only
      have hother : fp.matchesFile file.len file.modified = false := by
        unfold Fingerprint.matchesFile
        rw [decide_eq_false (by omega)]
        rfl
      rw [if_neg (by omega), hother]
      rfl
    · exact Cursor.mk_le_mk hoffset

/-- Every record of the directory is known from what is used, or one of its hash stands where the
scan is taken up or after it. -/
theorem covered_used (h : Accounted d magic s) (hu : Snapshot.Usable d magic s stale u)
    {r : Record} (hr : r ∈ d.records magic) :
    u.Knows r.hash ∨ ∃ r' ∈ d.records magic, r'.hash = r.hash ∧ u.cursor ≤ r'.position := by
  rcases h.covered r hr with hknown | ⟨r', hr', hhash, hdue⟩
  · obtain ⟨k, hk, hhash⟩ := List.mem_map.1 (Snapshot.mem_hashes_copies.2 hknown)
    rcases hu.copies_cases hk with hin | hle
    · rw [← hhash]
      exact Or.inl (Snapshot.mem_hashes_copies.1 (List.mem_map_of_mem hin))
    · exact Or.inr ⟨k, h.mem_records hk, hhash, hle⟩
  · exact Or.inr ⟨r', hr', hhash, used_le_of_due hu hr' hdue⟩

end Accounted

/-! ## What a run makes of it -/

namespace Accounted

variable {config : Config} {d : Directory} {s : Snapshot} {c : Course}

theorem stored (h : Accounted d config.network.magic s) (hran : Ran config d s c) :
    Accounted d config.network.magic (c.stored d) where
  forest := hran.listed_entries.forest
  entries := fun e he => hran.mem_records (h.exact hran.usable) (hran.listed_entries.mem_records he)
  orphans := fun o ho => hran.mem_records (h.exact hran.usable)
    (hran.mem_records_of_stored (Snapshot.mem_copies.2 (Or.inr ho)))
  cursor := by
    show d.Anchored _ c.outcome.stop
    rcases hran.within.stop with heq | ⟨⟨file, hfile⟩, _⟩
    · rw [heq]
      exact h.anchored_used hran.usable
    · exact Or.inr ⟨⟨file, hfile⟩, (hran.aligned (h.exact hran.usable).aligned).1 file hfile⟩
  files := by
    intro id fp hfp
    obtain ⟨file, hfile, ⟨n, hn, rfl⟩ | ⟨_, hold⟩⟩ := hran.fingerprint_cases hfp
    · refine ⟨file, hfile, Nat.le_refl _, ?_⟩
      show Boundary id _ ((d.bytes id).take file.len) n
      rw [List.take_of_length_le (Nat.le_of_eq (Directory.length_bytes hfile).1)]
      exact (hran.aligned (h.exact hran.usable).aligned).2 id n hn
    · exact h.files id fp hold
  covered := by
    intro r hr
    rcases h.covered_used hran.usable hr with hknown | ⟨r', hr', hhash, hle⟩
    · exact Or.inl (hran.knows_iff.2 (Or.inl hknown))
    · rcases (hran.fed_or_left (h.exact hran.usable).aligned).1 ⟨hr', hle⟩ with hfed | hleft
      · rw [← hhash]
        exact Or.inl (hran.knows_iff.2 (Or.inr (List.mem_map_of_mem hfed)))
      · exact Or.inr ⟨r', hr', hhash, Or.inl (hran.beyond r' hleft)⟩

/-- So does what the store holds when the run ends before its last edit. -/
theorem cut (h : Accounted d config.network.magic s) (hran : Ran config d s c) (count : Nat) :
    Accounted d config.network.magic ((MemoryStore.ofSnapshot s).editAll
      ((plan config d.volume d.files s).1.take count)).committed := by
  rcases hran.cut count with heq | heq | ⟨fork, heq⟩ | heq
  · rw [heq]
    exact h
  · rw [heq]
    exact h.forget c.stale
  · rw [heq]
    refine ((h.forget c.stale).extend hran.listed.forest ?_ ?_).truncate fork
    · exact fun e he => hran.mem_records (h.exact hran.usable) (hran.listed.mem_records he)
    · rw [hran.kept]
      exact fun e he => List.mem_append_left _ he
  · rw [heq]
    exact h.stored hran

theorem exists_ran (h : Accounted d config.network.magic s) : ∃ c, Ran config d s c :=
  ran h.readable fun _ _ hu => (h.exact hu).ready

end Accounted

/-! ## Histories -/

/-- A directory and a database after any history in which block files only grow and new ones come,
with runs on one network that may end after any change of the store. -/
inductive Reached (network : Network) : Directory → DatabaseStore → Prop where
  | fresh (d : Directory) : Reached network d (.inMemory network)
  | grown {d e : Directory} {store : DatabaseStore} (before : Reached network d store)
      (growth : d.GrowsTo e) : Reached network e store
  | opened {d : Directory} {store : DatabaseStore} (before : Reached network d store) :
      Reached network d store.load.2
  | cut {d : Directory} {store : DatabaseStore} (before : Reached network d store)
      (config : Config) (same : config.network = network) (count : Nat) :
      Reached network d (cutRun config d count store)
  | run {d : Directory} {store : DatabaseStore} (before : Reached network d store)
      (config : Config) (same : config.network = network) :
      Reached network d (prepareWith config d.volume d.files store).2

namespace Reached

variable {network : Network} {config : Config} {d : Directory} {store : DatabaseStore}

/-- What is loaded accounts for the directory too, and a run goes on from it. -/
theorem loaded_ran {s : Snapshot} (hs : store.Holds s)
    (h : Accounted d config.network.magic s) :
    Accounted d config.network.magic store.loaded ∧ ∃ c, Ran config d store.loaded c := by
  have hloaded := hs.loaded_spec h (Accounted.empty d _)
  exact ⟨hloaded, hloaded.exists_ran⟩

/-- **Every database reached accounts for its directory.** -/
theorem accounted (h : Reached network d store) :
    ∃ s, store.Holds s ∧ Accounted d network.magic s := by
  induction h with
  | fresh d => exact ⟨_, DatabaseStore.holds_inMemory network, Accounted.empty d _⟩
  | grown before growth ih =>
    obtain ⟨s, hs, h⟩ := ih
    exact ⟨s, hs, h.grow growth⟩
  | opened before ih =>
    obtain ⟨s, hs, h⟩ := ih
    have hopened := hs.open.2.2.holds
    exact ⟨s, hopened, h⟩
  | cut before config same count ih =>
    obtain ⟨s, hs, h⟩ := ih
    rw [← same] at h ⊢
    obtain ⟨hloaded, c, hran⟩ := loaded_ran hs h
    exact ⟨_, hs.cutRun hran.toFollows count, hloaded.cut hran count⟩
  | run before config same ih =>
    obtain ⟨s, hs, h⟩ := ih
    rw [← same] at h ⊢
    obtain ⟨hloaded, c, hran⟩ := loaded_ran hs h
    exact ⟨_, (hs.run hran.toFollows).2, hloaded.stored hran⟩

end Reached

/-! ## Runs that scan everything -/

/-- A run over a store does not stop its scan early: with no last height it would scan the same. -/
def DatabaseStore.ScansAll (store : DatabaseStore) (config : Config) (d : Directory) : Prop :=
  ∀ resumed, (resume (Reader.ofFiles d.files config.network.magic) d.volume d.files
      store.loaded).1 = .ok resumed →
    scanFrom config d.volume d.files resumed.assembler resumed.snapshot.cursor
      = scanFrom { config with endHeight := none } d.volume d.files resumed.assembler
          resumed.snapshot.cursor

theorem DatabaseStore.ScansAll.left_eq {store : DatabaseStore} {config : Config} {d : Directory}
    {c : Course} (h : store.ScansAll config d) (hran : Ran config d store.loaded c) :
    c.left = [] := by
  obtain ⟨edits, hresumed⟩ := hran.resumed
  have hsame := h ⟨c.used, c.used.replayed, edits⟩ (by rw [hresumed])
  exact (hran.whole { config with endHeight := none } rfl (stopHeight_of_endHeight rfl) hsame).1

/-- **A run that scans everything.**  After it the hashes of the stored entries and orphans are
those of the records that a scan of every file from its beginning yields, and the entries are the
blocks that are connected to a first block, each at its distance from it. -/
theorem Reached.stores_all {network : Network} {config : Config} {d : Directory}
    {store : DatabaseStore} (h : Reached network d store) (hsame : config.network = network)
    (hall : store.ScansAll config d) (hconsistent : Consistent (d.records network.magic)) :
    ∃ s, (prepareWith config d.volume d.files store).2.Holds s ∧
      (∀ x, x ∈ s.entries.map Entry.hash ++ s.orphans.map Record.hash ↔
        x ∈ (d.records network.magic).map Record.hash) ∧
      ∀ x k, (∃ e ∈ s.entries, e.hash = x ∧ e.height = k) ↔
        ∃ chain, Rooted (d.records network.magic) x chain ∧ chain.length = k + 1 := by
  obtain ⟨s, hs, haccounted⟩ := h.accounted
  rw [← hsame] at haccounted hconsistent ⊢
  obtain ⟨hloaded, c, hran⟩ := loaded_ran hs haccounted
  have hlinking := Snapshot.linking_swept c.used c.fed
  have hknown : ∀ x, x ∈ c.assembler.records.map Record.hash ↔
      x ∈ (d.records config.network.magic).map Record.hash := by
    intro x
    constructor
    · intro hx
      obtain ⟨r, hr, rfl⟩ := List.mem_map.1 hx
      exact List.mem_map_of_mem (hran.mem_records (hloaded.exact hran.usable) hr)
    · intro hx
      obtain ⟨r, hr, rfl⟩ := List.mem_map.1 hx
      rw [← hran.known_iff]
      rcases hloaded.covered_used hran.usable hr with hused | ⟨r', hr', hhash, hle⟩
      · exact hran.knows_iff.2 (Or.inl hused)
      · rw [← hhash]
        rcases (hran.fed_or_left (hloaded.exact hran.usable).aligned).1 ⟨hr', hle⟩
          with hfed | hleft
        · exact hran.knows_iff.2 (Or.inr (List.mem_map_of_mem hfed))
        · rw [hall.left_eq hran] at hleft
          simp at hleft
  have hsub : ∀ r ∈ c.assembler.records, r ∈ d.records config.network.magic := fun r hr =>
    hran.mem_records (hloaded.exact hran.usable) hr
  have hback : ∀ r ∈ d.records config.network.magic,
      ∃ r' ∈ c.assembler.records, r'.hash = r.hash ∧ r'.header = r.header := by
    intro r hr
    obtain ⟨r', hr', hhash⟩ := List.mem_map.1 ((hknown r.hash).2 (List.mem_map_of_mem hr))
    exact ⟨r', hr', hhash, hconsistent r' (hsub r' hr') r hr hhash⟩
  refine ⟨c.stored d, (hs.run hran.toFollows).2, ?_, ?_⟩
  · intro x
    rw [List.mem_append, ← hknown, ← hran.known_iff]
    rfl
  · intro x k
    have hlisted := hran.listed_entries.heightOf?_iff hlinking.distinct (x := x) (k := k)
    show (∃ e ∈ c.entries, e.hash = x ∧ e.height = k) ↔ _
    rw [← hlisted, Course.assembler, Assembler.heightOf?_iff_rooted hlinking]
    constructor
    · intro hrooted
      obtain ⟨chain, hchain, hlen⟩ := hrooted
      exact ⟨chain, hchain.mono hsub, hlen⟩
    · intro hrooted
      obtain ⟨chain, hchain, hlen⟩ := hrooted
      exact ⟨chain, hchain.transfer hback, hlen⟩

/-! ### A history with a run that stops early and one that is cut off -/

/-- A directory before both of its files have grown. -/
def youngDirectory : Directory :=
  (Directory.at? (.ofHeaders Network.regtest.magic
    [("blk00000.dat", []), ("blk00001.dat", chainHeaders.take 1)]) ["blocks"]).get
      (by decide +kernel)

/-- The same directory when the last block lies in the first file, and the others in the second. -/
def grownDirectory : Directory :=
  (Directory.at? (.ofHeaders Network.regtest.magic
    [("blk00000.dat", chainHeaders.drop 2), ("blk00001.dat", chainHeaders.take 2)]) ["blocks"]).get
      (by decide +kernel)

/-- The options of a run, with the height at which its scan may stop. -/
def untilHeight (stop : Option Nat) : Config :=
  { cachedConfig with endHeight := stop, reorgMargin := 0 }

/-- The store after a run over the young directory that stops at the first block, and one over the
grown directory that is cut off after one edit. -/
def interruptedStore : DatabaseStore :=
  cutRun (untilHeight none) grownDirectory 1
    (prepareWith (untilHeight (some 0)) youngDirectory.volume youngDirectory.files
      (.inMemory .regtest)).2

theorem stores_all_interrupted :
    Reached .regtest grownDirectory interruptedStore ∧
      interruptedStore.ScansAll (untilHeight none) grownDirectory ∧
      Consistent (grownDirectory.records Network.regtest.magic) ∧
      ∃ s, (prepareWith (untilHeight none) grownDirectory.volume grownDirectory.files
          interruptedStore).2.Holds s ∧
        (∀ x, x ∈ s.entries.map Entry.hash ++ s.orphans.map Record.hash ↔
          x ∈ (grownDirectory.records Network.regtest.magic).map Record.hash) ∧
        ∀ x k, (∃ e ∈ s.entries, e.hash = x ∧ e.height = k) ↔ ∃ chain,
          Rooted (grownDirectory.records Network.regtest.magic) x chain ∧ chain.length = k + 1 := by
  have hgrows : youngDirectory.GrowsTo grownDirectory := by decide +kernel
  have hreached : Reached .regtest grownDirectory interruptedStore :=
    .cut (.grown (.run (.fresh youngDirectory) (untilHeight (some 0)) rfl) hgrows)
      (untilHeight none) rfl 1
  have hall : interruptedStore.ScansAll (untilHeight none) grownDirectory := fun _ _ => rfl
  have hconsistent : Consistent (grownDirectory.records Network.regtest.magic) := by
    decide +kernel
  exact ⟨hreached, hall, hconsistent, hreached.stores_all rfl hall hconsistent⟩

end BlockIndex
