import BlockIndex.Proofs.Chain.Reports
import BlockIndex.Proofs.Run.Staleness
import BlockIndex.Proofs.Run.Sweeping
import BlockIndex.Proofs.Store.Mirroring
import BlockIndex.Run.Prepare

/-!
# How a run goes

What a run over a directory does with the snapshot that it loaded, from the check of the snapshot to
the last edit of the store.

* `Snapshot.Sound`  the entries of a snapshot can be replayed;
* `Snapshot.Ready`  what can be used of a snapshot is a forest of blocks that lie in the directory;
* `Snapshot.swept`  the assembler after the scan;
* `Follows`         the course of a run;
* `Ran`             the course of a run that uses nothing but what lies in the directory;
* `Course.stored`   what the store holds after the last edit.

Main statements: `follows` (a run over a sound snapshot takes this course), `Follows.cut` (what the
store holds if the run ends after any of its edits), `Follows.fits`.
-/

namespace BlockIndex

/-- The entries can be replayed: they are a forest, and their hashes are those of their headers. -/
structure Snapshot.Sound (u : Snapshot) : Prop where
  forest : Forest u.entries
  genuine : ∀ e ∈ u.entries, e.header.hash = e.hash

/-- What of a snapshot is used is a forest of blocks that lie in the directory. -/
structure Snapshot.Ready (d : Directory) (magic : UInt32) (u : Snapshot) : Prop where
  forest : Forest u.entries
  entries : ∀ e ∈ u.entries, d.Lies magic e.toRecord
  orphans : ∀ o ∈ u.orphans, d.Lies magic o

/-- What of a snapshot is used are records that a scan of the directory yields, and the scan can be
taken up at its cursor. -/
structure Snapshot.Exact (d : Directory) (magic : UInt32) (u : Snapshot) : Prop where
  forest : Forest u.entries
  entries : ∀ e ∈ u.entries, e.toRecord ∈ d.records magic
  orphans : ∀ o ∈ u.orphans, o ∈ d.records magic
  aligned : d.Aligned magic u.cursor

/-- A hash is that of an entry or of an orphan. -/
def Snapshot.Knows (s : Snapshot) (x : Hash) : Prop :=
  x ∈ s.entries.map Entry.hash ∨ x ∈ s.orphans.map Record.hash

theorem Snapshot.mem_hashes_copies {s : Snapshot} {x : Hash} :
    x ∈ s.copies.map Record.hash ↔ s.Knows x := by
  rw [copies, List.map_append, List.map_map, List.mem_append]
  rfl

theorem Forest.isBelow {es : List Entry} (h : Forest es) (stale : Option Nat) :
    Forest (es.filter (Entry.isBelow stale)) := by
  cases stale with
  | none =>
    have hall : es.filter (Entry.isBelow none) = es := by
      rw [List.filter_eq_self]
      intro e _
      rfl
    rw [hall]
    exact h
  | some height => exact h.filter_lt height

namespace Snapshot

variable {d : Directory} {magic : UInt32} {s u : Snapshot} {stale : Option Nat} {r : Record}

theorem Exact.ready (h : u.Exact d magic) : u.Ready d magic :=
  ⟨h.forest, fun e he => Directory.lies_of_mem (h.entries e he),
    fun o ho => Directory.lies_of_mem (h.orphans o ho)⟩

theorem Exact.mem_records (h : u.Exact d magic) (hr : r ∈ u.copies) : r ∈ d.records magic :=
  forall_copies.2 ⟨h.entries, h.orphans⟩ r hr

theorem Ready.lies (h : u.Ready d magic) (hr : r ∈ u.copies) : d.Lies magic r :=
  forall_copies.2 ⟨h.entries, h.orphans⟩ r hr

theorem Usable.mem_entries (h : Usable d magic s stale u) {e : Entry} (he : e ∈ u.entries) :
    e ∈ s.entries := by
  rw [h.entries] at he
  exact (List.mem_filter.1 he).1

theorem Usable.forest (h : Usable d magic s stale u) (hs : Forest s.entries) :
    Forest u.entries := by
  rw [h.entries]
  exact hs.isBelow stale

/-- What is used was kept, and passed the check. -/
theorem Usable.of_mem_copies (h : Usable d magic s stale u) (hr : r ∈ u.copies) :
    r ∈ s.copies ∧ ¬ s.Suspect d magic r := by
  rcases mem_copies.1 hr with ⟨e, he, rfl⟩ | ho
  · exact ⟨mem_copies.2 (Or.inl ⟨e, h.mem_entries he, rfl⟩), h.entry e he⟩
  · exact ⟨mem_copies.2 (Or.inr (h.orphans.subset ho)), h.orphan r ho⟩

/-- What was kept is used, or the scan is taken up where it stands or before it. -/
theorem Usable.copies_cases (h : Usable d magic s stale u) (hr : r ∈ s.copies) :
    r ∈ u.copies ∨ u.cursor ≤ r.position := by
  rcases mem_copies.1 hr with ⟨e, he, rfl⟩ | ho
  · exact (h.passed e he).imp_left fun hin => mem_copies.2 (Or.inl ⟨e, hin, rfl⟩)
  · exact (h.waiting r ho).imp_left fun hin => mem_copies.2 (Or.inr hin)

theorem Usable.le_unknown (h : Usable d magic s stale u) {id : Nat} {file : BlockFile}
    (hfile : d.files.get? id = some file) (hnew : s.files.get? id = none) : u.cursor ≤ ⟨id, 0⟩ := by
  refine h.rescan id file 0 hfile (rescanFrom?_unknown ?_)
  rw [(d.file_id hfile).1]
  exact hnew

/-- What holds of every place at which a scan can be taken up holds of the one at which it is. -/
theorem Usable.cursor_spec {P : Cursor → Prop} (h : Usable d magic s stale u)
    (hkept : u.cursor = s.cursor → P s.cursor) (hcopy : ∀ r ∈ s.copies, P r.position)
    (hfirst : ∀ id, P ⟨id, 0⟩)
    (hscanned : ∀ id file fp, d.files.get? id = some file → s.files.get? id = some fp →
      P ⟨id, fp.scannedTo⟩) : P u.cursor := by
  rcases h.moved with heq | ⟨e, he, heq⟩ | ⟨o, ho, heq⟩ | hzero | ⟨id, file, offset, hfile, hoffset, heq⟩
  · rw [heq]
    exact hkept heq
  · rw [heq]
    exact hcopy _ (mem_copies.2 (Or.inl ⟨e, he, rfl⟩))
  · rw [heq]
    exact hcopy o (mem_copies.2 (Or.inr ho))
  · have heq : u.cursor = ⟨u.cursor.fileId, 0⟩ := by rw [← hzero]
    rw [heq]
    exact hfirst _
  · rw [heq]
    rcases rescanFrom?_cases hoffset with rfl | ⟨fp, hfp, _, rfl⟩
    · exact hfirst id
    · rw [(d.file_id hfile).1] at hfp
      exact hscanned id file fp hfile hfp

end Snapshot

/-- The assembler after a snapshot was replayed. -/
def Snapshot.replayed (u : Snapshot) : Assembler :=
  (Assembler.seeded u.entries u.tip).insertAll u.orphans

/-- The assembler after some more records were read. -/
def Snapshot.swept (u : Snapshot) (fed : List Record) : Assembler := u.replayed.insertAll fed

/-- The snapshot without its entries from a stale height on. -/
def Snapshot.forget (s : Snapshot) (stale : Option Nat) : Snapshot :=
  match stale with
  | none => s
  | some height => s.truncate height

/-- What is stored anew when a fork reached below what the cache held. -/
def rewritten (a : Assembler) (fork : Option Nat) : List Edit :=
  match fork with
  | none => []
  | some fork => replaceFrom a fork

/-- What can be said of a run. -/
structure Course where
  /-- The height from which on entries are stale. -/
  stale : Option Nat
  /-- What of the snapshot is used. -/
  used : Snapshot
  /-- The records that the scan reads, and those that it would read if it did not stop. -/
  fed : List Record
  left : List Record
  outcome : Outcome
  /-- The entries that are stored while records link. -/
  new : List Entry
  /-- The lowest fork below what the cache held. -/
  fork : Option Nat
  reader : Reader

namespace Course

/-- The assembler after the scan. -/
def assembler (c : Course) : Assembler := c.used.swept c.fed

/-- What is written besides entries. -/
def state (c : Course) (d : Directory) : ScanState :=
  reachedState d.files c.used.files c.assembler c.outcome

/-- The entries after the last edit. -/
def entries (c : Course) : List Entry :=
  match c.fork with
  | none => c.used.entries ++ c.new
  | some fork => ((c.used.entries ++ c.new).filter fun e => e.height < fork) ++
      c.assembler.entriesOf (c.assembler.linkedFrom fork)

/-- What the store holds after the last edit. -/
def stored (c : Course) (d : Directory) : Snapshot :=
  ({ Snapshot.empty with entries := c.entries }).apply (c.state d)

end Course

/-- A run over a directory takes a course with the snapshot that it loaded. -/
structure Follows (config : Config) (d : Directory) (s : Snapshot) (c : Course) : Prop where
  usable : Snapshot.Usable d config.network.magic s c.stale c.used
  sound : c.used.Sound
  opened : c.reader.Over d config.network.magic
  resumed : ∃ edits, resume (Reader.ofFiles d.files config.network.magic) d.volume d.files s
    = (.ok ⟨c.used, c.used.replayed, edits⟩, c.reader)
  scan : scanFrom config d.volume d.files c.used.replayed c.used.cursor
    = (.ok c.outcome, (Progress.start c.used.replayed).feed c.fed)
  sweep : Sweep d config.network.magic c.used.cursor config.stopHeight
    (Progress.start c.used.replayed) (d.files.fromId c.used.cursor.fileId)
    ⟨c.used.cursor, FileMap.empty⟩ c.outcome c.fed c.left
  listed : c.assembler.Listed (c.used.entries ++ c.new)
  edits : (plan config d.volume d.files s).1 = c.stale.toList.map Edit.truncate ++
    (c.new.map Edit.append ++ (rewritten c.assembler c.fork ++ [Edit.flush (c.state d)]))
  forks : c.fork = lowestCacheFork? c.assembler.reorgs
  walk : (plan config d.volume d.files s).2 = walkOver config c.reader
    { c.assembler with reorgs := [], persistedLen := c.assembler.best.length } (!c.used.isEmpty)
    c.fed.length c.assembler.reorgs.length

/-- A run takes a course, and what it uses lies in the directory. -/
structure Ran (config : Config) (d : Directory) (s : Snapshot) (c : Course) : Prop
    extends Follows config d s c where
  ready : Snapshot.Ready d config.network.magic c.used

section Swept

variable {config : Config} {d : Directory} {magic : UInt32} {s u : Snapshot} {fed : List Record}

theorem Snapshot.Ready.sound (h : u.Ready d magic) : u.Sound where
  forest := h.forest
  genuine := fun e he => (h.entries e he).fits.2.1

theorem Snapshot.Usable.sound {stale : Option Nat} (h : Snapshot.Usable d magic s stale u)
    (hs : s.Sound) : u.Sound where
  forest := h.forest hs.forest
  genuine := fun e he => hs.genuine e (h.mem_entries he)

theorem Snapshot.linking_swept (u : Snapshot) (fed : List Record) : (u.swept fed).Linking [] :=
  ((Assembler.Linking.seeded u.entries u.tip).insertAll u.orphans).insertAll fed

theorem Snapshot.swept_eq (u : Snapshot) (fed : List Record) :
    u.swept fed = (Assembler.seeded u.entries u.tip).insertAll (u.orphans ++ fed) :=
  (Assembler.insertAll_append _ _ _).symm

/-- The assembler holds what was replayed, what waited, and what was read. -/
theorem Snapshot.Sound.records_swept (h : u.Sound) (fed : List Record) :
    (u.swept fed).records = u.entries.map Entry.toRecord ++
      Assembler.newRecords (u.entries.map Entry.hash) (u.orphans ++ fed) := by
  have hheld := Assembler.Replayed.seeded h.forest h.genuine u.tip
  rw [swept_eq, Assembler.records_insertAll (Assembler.Linking.seeded _ _), hheld.records,
    List.map_map]
  rfl

theorem Snapshot.Sound.mem_swept (h : u.Sound) {r : Record}
    (hr : r ∈ (u.swept fed).records) : r ∈ u.copies ∨ r ∈ fed := by
  rw [h.records_swept] at hr
  rcases List.mem_append.1 hr with hr | hr
  · exact Or.inl (Snapshot.mem_copies.2 (Or.inl (List.mem_map.1 hr)))
  · obtain ⟨_, before, after, heq, _⟩ := Assembler.mem_newRecords hr
    have hmem : r ∈ u.orphans ++ fed := by
      rw [heq]
      simp
    exact (List.mem_append.1 hmem).imp_left fun ho => Snapshot.mem_copies.2 (Or.inr ho)

/-- A hash is known after the scan just if it was replayed, waited or was read. -/
theorem Snapshot.Sound.mem_hashes_swept (h : u.Sound) {x : Hash} :
    x ∈ (u.swept fed).records.map Record.hash ↔
      x ∈ u.entries.map Entry.hash ∨ x ∈ u.orphans.map Record.hash ∨ x ∈ fed.map Record.hash := by
  have hheld := Assembler.Replayed.seeded h.forest h.genuine u.tip
  rw [swept_eq, Assembler.mem_hashes_insertAll (Assembler.Linking.seeded _ _), hheld.records,
    List.map_map, List.map_append, List.mem_append]
  rfl

end Swept

/-! ## The course of a run -/

section Course

variable {config : Config} {d : Directory} {s u : Snapshot}

theorem ofSnapshot_eq (h : u.Sound) :
    ∃ new, Resumed.ofSnapshot u = ⟨u, u.replayed, new.map Edit.append⟩ ∧
      u.replayed.Listed (u.entries ++ new) := by
  have hheld := Assembler.Replayed.seeded h.forest h.genuine u.tip
  obtain ⟨new, hedits, hlisted⟩ := (hheld.listed h.forest).absorbAll
    (Assembler.Linking.seeded u.entries u.tip) u.orphans
  refine ⟨new, ?_, hlisted⟩
  unfold Resumed.ofSnapshot
  rw [Assembler.seed_forest h.forest h.genuine]
  dsimp only
  rw [hedits, Assembler.absorbAll_snd]
  rfl

/-- **A run over a snapshot** takes its course to the end, if what it uses can be replayed. -/
theorem follows (hs : s.Readable)
    (hsound : ∀ stale u, Snapshot.Usable d config.network.magic s stale u → u.Sound) :
    ∃ c, Follows config d s c := by
  obtain ⟨stale, t, reader, hstale, hover, husable⟩ := Snapshot.staleHeight_spec
    (Reader.over_ofFiles d config.network.magic) hs
  generalize hu : t.usable d.files stale = u at husable
  have hu' := hsound stale u husable
  obtain ⟨first, hresumed, hfirst⟩ := ofSnapshot_eq hu'
  obtain ⟨fed, left, outcome, hscan, hsweep⟩ := scanFrom_spec config d u.replayed u.cursor
  obtain ⟨second, hsecond, hlisted⟩ := hfirst.absorbAll
    ((Assembler.Linking.seeded u.entries u.tip).insertAll u.orphans) fed
  have hresume : resume (Reader.ofFiles d.files config.network.magic) d.volume d.files s
      = (.ok ⟨u, u.replayed, stale.toList.map Edit.truncate ++ first.map Edit.append⟩, reader) := by
    unfold resume
    rw [hstale]
    dsimp only
    rw [hu, hresumed]
  have hfeed := Progress.feed_start u.replayed fed
  rw [hsecond, Assembler.absorbAll_snd] at hfeed
  have hswept : u.replayed.insertAll fed = u.swept fed := rfl
  rw [hswept] at hfeed hlisted
  refine ⟨⟨stale, u, fed, left, outcome, first ++ second,
    lowestCacheFork? (u.swept fed).drainReorgs.1, reader⟩, ?_⟩
  have hplan : plan config d.volume d.files s =
      (stale.toList.map Edit.truncate ++ first.map Edit.append ++ second.map Edit.append ++
        persistEdits d.files u.files (u.swept fed).drainReorgs.1 (u.swept fed).drainReorgs.2 outcome,
        walkOver config reader (u.swept fed).drainReorgs.2.markPersisted (!u.isEmpty) fed.length
          (u.swept fed).drainReorgs.1.length) := by
    unfold plan
    rw [hresume]
    dsimp only
    rw [hscan, hfeed]
  have hpersist : persistEdits d.files u.files (u.swept fed).drainReorgs.1
      (u.swept fed).drainReorgs.2 outcome
        = rewritten (u.swept fed) (lowestCacheFork? (u.swept fed).drainReorgs.1) ++
          [Edit.flush (reachedState d.files u.files (u.swept fed) outcome)] := by
    unfold persistEdits rewritten
    cases lowestCacheFork? (u.swept fed).drainReorgs.1 <;> rfl
  exact {
    usable := husable
    sound := hu'
    opened := hover
    resumed := ⟨_, hresume⟩
    scan := hscan
    sweep := hsweep
    listed := by
      rw [← List.append_assoc]
      exact hlisted
    edits := by
      rw [hplan]
      dsimp only
      rw [hpersist, List.map_append]
      simp only [List.append_assoc]
      rfl
    forks := rfl
    walk := by
      rw [hplan]
      rfl }

/-- **A run over a ready snapshot** takes its course to the end. -/
theorem ran (hs : s.Readable) (hready : ∀ stale u,
      Snapshot.Usable d config.network.magic s stale u → u.Ready d config.network.magic) :
    ∃ c, Ran config d s c := by
  obtain ⟨c, hfollows⟩ := follows hs fun stale u hu => (hready stale u hu).sound
  exact ⟨c, hfollows, hready c.stale c.used hfollows.usable⟩

end Course

/-! ## What is stored -/

namespace MemoryStore

theorem editAll_map_append (m : MemoryStore) (es : List Entry) :
    m.editAll (es.map Edit.append) = { m with queued := m.queued ++ es } := by
  induction es generalizing m with
  | nil =>
    rw [List.append_nil]
    rfl
  | cons e rest ih =>
    show (m.edit (.append e)).editAll (rest.map Edit.append) = _
    rw [ih]
    show (⟨m.committed, m.queued ++ [e] ++ rest⟩ : MemoryStore) = _
    rw [List.append_assoc]
    rfl

theorem editAll_ofSnapshot (s : Snapshot) (es : List Entry) :
    (ofSnapshot s).editAll (es.map Edit.append) = ⟨s, es⟩ := by
  rw [editAll_map_append]
  rfl

theorem editAll_truncate (m : MemoryStore) (height : Nat) (rest : List Edit) :
    m.editAll (Edit.truncate height :: rest)
      = (ofSnapshot (m.withQueued.truncate height)).editAll rest := rfl

theorem editAll_flush (m : MemoryStore) (state : ScanState) :
    m.editAll [Edit.flush state] = ofSnapshot (m.withQueued.apply state) := rfl

theorem foldl_addEntry {es new : List Entry} (h : ((es ++ new).map Entry.hash).Nodup) :
    new.foldl addEntry es = es ++ new := by
  induction new generalizing es with
  | nil => rw [List.append_nil, List.foldl_nil]
  | cons e rest ih =>
    have hadd : addEntry es e = es ++ [e] := by
      unfold addEntry
      rw [if_neg]
      rw [List.any_eq_true]
      intro hany
      obtain ⟨f, hf, heq⟩ := hany
      rw [List.map_append, List.nodup_append] at h
      exact h.2.2 f.hash (List.mem_map.2 ⟨f, hf, rfl⟩) e.hash
        (List.mem_map.2 ⟨e, List.mem_cons_self, rfl⟩) (of_decide_eq_true heq)
    rw [List.append_cons] at h ⊢
    rw [List.foldl_cons, hadd, ih h]

theorem withQueued_eq {s : Snapshot} {new : List Entry}
    (h : ((s.entries ++ new).map Entry.hash).Nodup) :
    (⟨s, new⟩ : MemoryStore).withQueued = { s with entries := s.entries ++ new } := by
  unfold withQueued
  rw [foldl_addEntry h]

end MemoryStore

namespace Follows

variable {config : Config} {d : Directory} {s : Snapshot} {c : Course}

theorem split (h : Follows config d s c) :
    d.readFrom config.network.magic c.used.cursor = c.fed ++ c.left := h.sweep.split

theorem within (h : Follows config d s c) : c.outcome.Within d c.used.cursor :=
  h.sweep.within ⟨Or.inl rfl, by simp⟩

theorem beyond (h : Follows config d s c) : ∀ r ∈ c.left, c.outcome.stop ≤ r.position :=
  h.sweep.beyond

theorem aligned (h : Follows config d s c) (hc : d.Aligned config.network.magic c.used.cursor) :
    c.outcome.Aligned d config.network.magic := h.sweep.aligned hc ⟨hc, by simp⟩

theorem kept (h : Follows config d s c) : (s.forget c.stale).entries = c.used.entries := by
  rw [h.usable.entries]
  unfold Snapshot.forget
  cases c.stale with
  | none =>
    refine (List.filter_eq_self.2 ?_).symm
    intro e _
    rfl
  | some height => rfl

theorem listed_entries (h : Follows config d s c) : c.assembler.Listed c.entries := by
  unfold Course.entries
  cases c.fork with
  | none => exact h.listed
  | some fork => exact h.listed.linkedFrom (Snapshot.linking_swept c.used c.fed).distinct fork

theorem editAll_stale (s : Snapshot) (stale : Option Nat) :
    (MemoryStore.ofSnapshot s).editAll (stale.toList.map Edit.truncate)
      = MemoryStore.ofSnapshot (s.forget stale) := by
  cases stale <;> rfl

/-- The edits from the first new entry on. -/
def laterEdits (c : Course) (d : Directory) : List Edit :=
  c.new.map Edit.append ++ (rewritten c.assembler c.fork ++ [Edit.flush (c.state d)])

theorem withQueued_new (h : Follows config d s c) :
    (⟨s.forget c.stale, c.new⟩ : MemoryStore).withQueued
      = { s.forget c.stale with entries := c.used.entries ++ c.new } := by
  have hnodup := h.listed.forest.nodup
  rw [← h.kept] at hnodup
  rw [MemoryStore.withQueued_eq hnodup, h.kept]

theorem finish_later (h : Follows config d s c) :
    (MemoryStore.ofSnapshot (s.forget c.stale)).editAll (laterEdits c d)
      = MemoryStore.ofSnapshot (c.stored d) := by
  rw [laterEdits, MemoryStore.editAll_append, MemoryStore.editAll_ofSnapshot]
  unfold rewritten
  cases hfork : c.fork with
  | none =>
    dsimp only
    rw [List.nil_append, MemoryStore.editAll_flush, h.withQueued_new, Course.stored,
      Course.entries, hfork]
    rfl
  | some fork =>
    have hlisted := h.listed_entries.forest.nodup
    rw [Course.entries, hfork] at hlisted
    dsimp only
    rw [replaceFrom, List.cons_append, MemoryStore.editAll_truncate, h.withQueued_new,
      MemoryStore.editAll_append, MemoryStore.editAll_ofSnapshot, MemoryStore.editAll_flush,
      MemoryStore.withQueued_eq hlisted, Course.stored, Course.entries, hfork]
    rfl

/-- What the store holds if the run ends before its last edit. -/
theorem cut_later (h : Follows config d s c) {k : Nat} (hk : k < (laterEdits c d).length) :
    let m := (MemoryStore.ofSnapshot (s.forget c.stale)).editAll ((laterEdits c d).take k)
    m.committed = s.forget c.stale ∨ ∃ fork, m.committed = Snapshot.truncate
      { s.forget c.stale with entries := c.used.entries ++ c.new } fork := by
  dsimp only
  rw [laterEdits, List.length_append, List.length_map] at hk
  rw [laterEdits, List.take_append, List.length_map, MemoryStore.editAll_append, ← List.map_take,
    MemoryStore.editAll_ofSnapshot]
  cases hj : k - c.new.length with
  | zero => exact Or.inl rfl
  | succ j =>
    unfold rewritten at hk ⊢
    cases hfork : c.fork with
    | none =>
      rw [hfork] at hk
      simp only [List.nil_append, List.length_singleton] at hk
      omega
    | some fork =>
      rw [hfork] at hk
      simp only [replaceFrom, List.cons_append, List.length_cons, List.length_append,
        List.length_map, List.length_nil] at hk
      dsimp only
      rw [replaceFrom, List.cons_append, List.take_succ_cons, MemoryStore.editAll_truncate,
        List.take_of_length_le (by omega), h.withQueued_new, List.take_append, List.length_map,
        ← List.map_take, MemoryStore.editAll_append, MemoryStore.editAll_ofSnapshot,
        show j - (c.assembler.entriesOf (c.assembler.linkedFrom fork)).length = 0 by omega]
      exact Or.inr ⟨fork, rfl⟩

/-- **The whole run.**  What it leaves in the store. -/
theorem finish (h : Follows config d s c) :
    (MemoryStore.ofSnapshot s).editAll (plan config d.volume d.files s).1
      = MemoryStore.ofSnapshot (c.stored d) := by
  rw [h.edits, MemoryStore.editAll_append, editAll_stale]
  exact h.finish_later

/-- **A run that is cut off.**  Whichever edit is the last, the store then holds what it held
before, less what was stale, or with what linked but cut at a fork, or what the whole run stores. -/
theorem cut (h : Follows config d s c) (k : Nat) :
    let m := (MemoryStore.ofSnapshot s).editAll ((plan config d.volume d.files s).1.take k)
    m.committed = s ∨ m.committed = s.forget c.stale ∨
      (∃ fork, m.committed = Snapshot.truncate
        { s.forget c.stale with entries := c.used.entries ++ c.new } fork) ∨
      m.committed = c.stored d := by
  dsimp only
  have hedits : (plan config d.volume d.files s).1
      = c.stale.toList.map Edit.truncate ++ laterEdits c d := h.edits
  rw [hedits, List.take_append, MemoryStore.editAll_append]
  by_cases hk : (c.stale.toList.map Edit.truncate).length ≤ k
  · rw [List.take_of_length_le hk, editAll_stale]
    by_cases hlast : (laterEdits c d).length ≤ k - (c.stale.toList.map Edit.truncate).length
    · rw [List.take_of_length_le hlast, h.finish_later]
      exact Or.inr (Or.inr (Or.inr rfl))
    · rcases h.cut_later (Nat.lt_of_not_le hlast) with hkept | hfork
      · exact Or.inr (Or.inl hkept)
      · exact Or.inr (Or.inr (Or.inl hfork))
  · -- there is a stale height, and the run ends before the cut there
    have hzero : k = 0 := by
      have hone : c.stale.toList.length ≤ 1 := Option.length_toList_le
      rw [List.length_map] at hk
      omega
    rw [hzero, List.take_zero, Nat.zero_sub, List.take_zero]
    exact Or.inl rfl

end Follows

/-! ## Fingerprints and numbers -/

section Fits

variable {config : Config} {d : Directory} {s : Snapshot} {c : Course} {magic : UInt32}

/-- The fingerprint that is kept of a file, if one is. -/
def fingerprintOf? (previous : FileMap Fingerprint) (scanned : FileMap Nat) (file : BlockFile) :
    Option Fingerprint :=
  match scanned.get? file.id with
  | some scannedTo => some (file.fingerprint scannedTo)
  | none => previous.get? file.id

theorem get?_freshFingerprints (previous : FileMap Fingerprint) (scanned : FileMap Nat) (id : Nat) :
    (freshFingerprints d.files previous scanned).get? id
      = (d.files.get? id).bind (fingerprintOf? previous scanned) := by
  have heq : freshFingerprints d.files previous scanned = FileMap.ofList
      (d.files.values.filterMap fun file =>
        (fingerprintOf? previous scanned file).map fun fp => (file.id, fp)) := by
    unfold freshFingerprints
    congr 2
    funext file
    unfold fingerprintOf?
    cases scanned.get? file.id <;> rfl
  have hsorted : (d.files.values.filterMap fun file =>
      (fingerprintOf? previous scanned file).map fun fp => (file.id, fp)).Pairwise
        fun a b => a.1 < b.1 := by
    refine List.Pairwise.filterMap _ ?_ d.values_sorted
    intro f g hlt p hp q hq
    obtain ⟨_, _, rfl⟩ := Option.map_eq_some_iff.1 hp
    obtain ⟨_, _, rfl⟩ := Option.map_eq_some_iff.1 hq
    exact hlt
  apply Option.ext
  intro fp
  rw [heq, FileMap.get?_ofList hsorted, FileMap.lookup_eq_some_iff hsorted, List.mem_filterMap,
    Option.bind_eq_some_iff]
  constructor
  · intro h
    obtain ⟨file, hfile, hp⟩ := h
    obtain ⟨fp', hfp', hpair⟩ := Option.map_eq_some_iff.1 hp
    obtain ⟨rfl, rfl⟩ := Prod.mk.inj hpair
    exact ⟨file, Directory.get?_of_mem hfile, hfp'⟩
  · intro h
    obtain ⟨file, hfile, hfp⟩ := h
    refine ⟨file, Directory.mem_values hfile, ?_⟩
    rw [hfp, (d.file_id hfile).1]
    rfl

theorem Snapshot.Usable.cursor_fits {stale : Option Nat} {u : Snapshot}
    (h : Snapshot.Usable d magic s stale u) (hs : s.Fits) : u.cursor.Fits := by
  have hback := Cursor.le_iff.1 h.back
  have hfile : s.cursor.fileId < 0x1_0000_0000 := hs.state.cursor.1
  refine ⟨by omega, ?_⟩
  refine h.cursor_spec (P := fun c => c.offset < 0x8000_0000_0000_0000) ?_ ?_ ?_ ?_
  · exact fun _ => hs.state.cursor.2
  · exact fun r hr => (Snapshot.forall_copies.2 ⟨hs.entries, fun o ho => (hs.state.orphans o ho).1⟩
      r hr).2.1
  · exact fun _ => (by decide : 0 < 0x8000_0000_0000_0000)
  · exact fun id _ fp _ hfp => (hs.state.files id fp (FileMap.get?_eq_some_iff.1 hfp)).2.2

theorem Follows.lies_fed (h : Follows config d s c) {r : Record} (hr : r ∈ c.fed) :
    d.Lies config.network.magic r := by
  have hmem : r ∈ d.readFrom config.network.magic c.used.cursor := by
    rw [h.split]
    exact List.mem_append_left _ hr
  exact (Directory.mem_readFrom hmem).1

theorem Ran.lies (h : Ran config d s c) {r : Record} (hr : r ∈ c.assembler.records) :
    d.Lies config.network.magic r := by
  rcases h.sound.mem_swept hr with hused | hfed
  · exact h.ready.lies hused
  · exact h.lies_fed hfed

/-! ### What is known afterwards -/

namespace Follows

theorem mem_records_of_stored (h : Follows config d s c) {r : Record}
    (hr : r ∈ (c.stored d).copies) : r ∈ c.assembler.records := by
  rcases Snapshot.mem_copies.1 hr with ⟨e, he, rfl⟩ | ho
  · exact h.listed_entries.mem_records he
  · exact ((Assembler.mem_unresolved_iff (Snapshot.linking_swept c.used c.fed)).1 ho).1

/-- The fingerprint that is stored of a file: a fresh one if it was scanned, else the one before. -/
theorem get?_stored (h : Follows config d s c) {id : Nat} {file : BlockFile}
    (hfile : d.files.get? id = some file) : (c.stored d).files.get? id =
      match c.outcome.scanned.get? id with
      | some scannedTo => some (file.fingerprint scannedTo)
      | none => s.files.get? id := by
  show (freshFingerprints d.files c.used.files c.outcome.scanned).get? id = _
  rw [get?_freshFingerprints, hfile, Option.bind_some, fingerprintOf?, (d.file_id hfile).1,
    h.usable.files]

/-- A fingerprint that is stored is that of a file that was scanned, or was there before. -/
theorem fingerprint_cases (h : Follows config d s c) {id : Nat} {fp : Fingerprint}
    (hfp : (c.stored d).files.get? id = some fp) : ∃ file, d.files.get? id = some file ∧
      ((∃ n, c.outcome.scanned.get? id = some n ∧ fp = file.fingerprint n) ∨
        c.outcome.scanned.get? id = none ∧ s.files.get? id = some fp) := by
  have hlisted : ∃ file, d.files.get? id = some file := by
    have hbind := (get?_freshFingerprints c.used.files c.outcome.scanned id).symm.trans hfp
    obtain ⟨file, hfile, _⟩ := Option.bind_eq_some_iff.1 hbind
    exact ⟨file, hfile⟩
  obtain ⟨file, hfile⟩ := hlisted
  refine ⟨file, hfile, ?_⟩
  rw [h.get?_stored hfile] at hfp
  cases hn : c.outcome.scanned.get? id with
  | some n =>
    rw [hn] at hfp
    exact Or.inl ⟨n, rfl, (Option.some.inj hfp).symm⟩
  | none =>
    rw [hn] at hfp
    exact Or.inr ⟨rfl, hfp⟩

theorem known_iff (h : Follows config d s c) {x : Hash} :
    (c.stored d).Knows x ↔ x ∈ c.assembler.records.map Record.hash := by
  have hlinking := Snapshot.linking_swept c.used c.fed
  constructor
  · intro hknown
    rcases hknown with hentry | horphan
    · obtain ⟨e, he, rfl⟩ := List.mem_map.1 hentry
      exact List.mem_map.2 ⟨e.toRecord, h.listed_entries.mem_records he, rfl⟩
    · obtain ⟨o, ho, rfl⟩ := List.mem_map.1 horphan
      exact List.mem_map.2 ⟨o, ((Assembler.mem_unresolved_iff hlinking).1 ho).1, rfl⟩
  · intro hmem
    obtain ⟨r, hr, rfl⟩ := List.mem_map.1 hmem
    cases hheight : c.assembler.heightOf? r.hash with
    | none =>
      right
      exact List.mem_map.2 ⟨r, (Assembler.mem_unresolved_iff hlinking).2 ⟨hr, hheight⟩, rfl⟩
    | some k =>
      left
      obtain ⟨e, he, hhash, _⟩ := (h.listed_entries.heightOf?_iff hlinking.distinct).1 hheight
      exact List.mem_map.2 ⟨e, he, hhash⟩

theorem distinct_stored (h : Follows config d s c) :
    ((c.stored d).entries.map Entry.hash ++ (c.stored d).orphans.map Record.hash).Nodup := by
  have hlinking := Snapshot.linking_swept c.used c.fed
  refine List.nodup_append.2 ⟨h.listed_entries.forest.nodup, Assembler.nodup_unresolved hlinking, ?_⟩
  intro x hx y hy heq
  obtain ⟨e, he, rfl⟩ := List.mem_map.1 hx
  obtain ⟨o, ho, rfl⟩ := List.mem_map.1 hy
  have hlinked := (h.listed_entries.heightOf?_iff hlinking.distinct).2 ⟨e, he, heq, rfl⟩
  have hwaits := ((Assembler.mem_unresolved_iff hlinking).1 ho).2
  have hnone : c.assembler.heightOf? o.hash = none := hwaits
  rw [hnone] at hlinked
  simp at hlinked

/-- A hash is known after a run just if it was used or read. -/
theorem knows_iff (h : Follows config d s c) {x : Hash} :
    (c.stored d).Knows x ↔ c.used.Knows x ∨ x ∈ c.fed.map Record.hash := by
  rw [h.known_iff, Course.assembler, h.sound.mem_hashes_swept, Snapshot.Knows, or_assoc]

/-- A run that takes its scan up at an aligned position reads the records there and after it. -/
theorem split_aligned (h : Follows config d s c)
    (hc : d.Aligned config.network.magic c.used.cursor) :
    d.recordsFrom config.network.magic c.used.cursor = c.fed ++ c.left := by
  rw [← Directory.readFrom_eq hc]
  exact h.split

/-- A record of the directory at the cursor or after it was read or left. -/
theorem fed_or_left (h : Follows config d s c)
    (hc : d.Aligned config.network.magic c.used.cursor) {r : Record} :
    r ∈ d.records config.network.magic ∧ c.used.cursor ≤ r.position ↔ r ∈ c.fed ∨ r ∈ c.left := by
  rw [← Directory.mem_recordsFrom, h.split_aligned hc, List.mem_append]

theorem mem_records (h : Follows config d s c) (hexact : c.used.Exact d config.network.magic)
    {r : Record} (hr : r ∈ c.assembler.records) : r ∈ d.records config.network.magic := by
  rcases h.sound.mem_swept hr with hused | hfed
  · exact hexact.mem_records hused
  · exact ((h.fed_or_left hexact.aligned).2 (Or.inl hfed)).1

/-- A scan that goes as far as one without a target leaves nothing, and says of every file from the
cursor's on how far it is scanned. -/
theorem whole (h : Follows config d s c) (other : Config) (hnetwork : other.network = config.network)
    (htarget : other.stopHeight = none)
    (hsame : scanFrom config d.volume d.files c.used.replayed c.used.cursor
      = scanFrom other d.volume d.files c.used.replayed c.used.cursor) :
    c.left = [] ∧ ∀ id file, d.files.get? id = some file →
      (c.outcome.scanned.get? id).isSome = decide (c.used.cursor.fileId ≤ id) := by
  obtain ⟨fed, left, outcome, hscan, hsweep⟩ :=
    scanFrom_spec other d c.used.replayed c.used.cursor
  rw [htarget, hnetwork] at hsweep
  obtain ⟨rfl, hscanned⟩ := hsweep.whole
  rw [h.scan, hscan] at hsame
  obtain ⟨hresult, hprogress⟩ := Prod.mk.inj hsame
  have hrecords := congrArg Progress.records hprogress
  rw [Progress.feed_eq, Progress.feed_eq] at hrecords
  refine ⟨?_, fun id file hfile => by rw [Except.ok.inj hresult, hscanned id file hfile]⟩
  have hlength := congrArg List.length (h.sweep.split.symm.trans hsweep.split)
  rw [List.length_append, List.append_nil] at hlength
  dsimp only at hrecords
  exact List.length_eq_zero_iff.1 (by omega)

end Follows

/-- What the assembler holds after the scan was read, or was kept and passed the check. -/
theorem Follows.held_cases (h : Follows config d s c) {r : Record}
    (hr : r ∈ c.assembler.records) :
    r ∈ c.fed ∨ r ∈ s.copies ∧ ¬ s.Suspect d config.network.magic r := by
  rcases h.sound.mem_swept hr with hused | hfed
  · exact Or.inr (h.usable.of_mem_copies hused)
  · exact Or.inl hfed

theorem Follows.fits_record (h : Follows config d s c) (hs : s.Fits) {r : Record}
    (hr : r ∈ c.assembler.records) : r.Fits ∧ r.Genuine := by
  rcases h.sound.mem_swept hr with hused | hfed
  · rcases Snapshot.mem_copies.1 hused with ⟨e, he, rfl⟩ | horphan
    · exact ⟨hs.entries e (h.usable.mem_entries he), h.sound.genuine e he⟩
    · exact hs.state.orphans r (h.usable.orphans.subset horphan)
  · exact ⟨(h.lies_fed hfed).fits.1, (h.lies_fed hfed).fits.2.1⟩

theorem Follows.stop_fits (h : Follows config d s c) (hs : s.Fits) : c.outcome.stop.Fits := by
  rcases h.within.stop with heq | ⟨⟨file, hfile⟩, hle⟩
  · rw [heq]
    exact h.usable.cursor_fits hs
  · obtain ⟨hlen, hlimit⟩ := Directory.length_bytes hfile
    exact ⟨(d.file_id hfile).2, by omega⟩

theorem Follows.stored_fits (h : Follows config d s c) (hs : s.Fits) : (c.stored d).Fits where
  entries := fun e he => (h.fits_record hs (h.listed_entries.mem_records he)).1
  state :=
    { cursor := h.stop_fits hs
      files := by
        intro id fp hfp
        obtain ⟨file, hfile, ⟨n, hn, rfl⟩ | ⟨_, hold⟩⟩ :=
          h.fingerprint_cases (FileMap.get?_eq_some_iff.2 hfp)
        · obtain ⟨hlen, hlimit⟩ := Directory.length_bytes hfile
          have hle := h.within.scanned id n hn
          refine ⟨(d.file_id hfile).2, hlimit, ?_⟩
          show n < 0x8000_0000_0000_0000
          omega
        · exact hs.state.files id fp (FileMap.get?_eq_some_iff.1 hold)
      orphans := by
        intro r hr
        exact h.fits_record hs
          ((Assembler.mem_unresolved_iff (Snapshot.linking_swept c.used c.fed)).1 hr).1
      sorted := Assembler.unresolved_sorted _
      distinct := Assembler.nodup_unresolved (Snapshot.linking_swept c.used c.fed) }

theorem Follows.fits (h : Follows config d s c) (hs : s.Fits) :
    ∀ e ∈ (plan config d.volume d.files s).1, e.Fits := by
  have hentry : ∀ e ∈ c.used.entries ++ c.new, e.toRecord.Fits := fun e he =>
    (h.fits_record hs (h.listed.mem_records he)).1
  rw [h.edits]
  intro e he
  rcases List.mem_append.1 he with he | he
  · obtain ⟨height, _, rfl⟩ := List.mem_map.1 he
    trivial
  rcases List.mem_append.1 he with he | he
  · obtain ⟨f, hf, rfl⟩ := List.mem_map.1 he
    exact hentry f (List.mem_append_right _ hf)
  rcases List.mem_append.1 he with he | he
  · unfold rewritten at he
    split at he
    · simp at he
    · next fork _ =>
      rcases List.mem_cons.1 he with rfl | he
      · trivial
      · obtain ⟨f, hf, rfl⟩ := List.mem_map.1 he
        exact hentry f ((h.listed.mem_iff f).2 (Assembler.mem_entriesOf_linkedFrom.1 hf).1)
  · rw [List.mem_singleton.1 he]
    exact (h.stored_fits hs).state

end Fits

/-! ## Runs over a database -/

/-- What a run loads from a store. -/
def DatabaseStore.loaded (store : DatabaseStore) : Snapshot :=
  match (IndexCache.ofStore store).load.1 with
  | .ok s => s
  | .error _ => Snapshot.empty

/-- The store after a run of which only so many edits were made. -/
def cutRun (config : Config) (d : Directory) (count : Nat) (store : DatabaseStore) :
    DatabaseStore :=
  match (IndexCache.ofStore store).load with
  | (.error _, cache) => cache.store
  | (.ok loaded, cache) =>
    (applyEdits IndexCache.edit ((plan config d.volume d.files loaded).1.take count) cache).2.store

section Database

variable {config : Config} {d : Directory} {s : Snapshot} {store : DatabaseStore}

/-- A store can be loaded, and then holds what was loaded. -/
def DatabaseStore.Opens (store : DatabaseStore) : Prop :=
  ∃ cache, (IndexCache.ofStore store).load = (.ok store.loaded, cache) ∧
    cache.store.magic = store.magic ∧ cache.store.Mirrors (MemoryStore.ofSnapshot store.loaded)

theorem DatabaseStore.opens_of_load {loaded : Snapshot} {cache : IndexCache DatabaseStore}
    (h : (IndexCache.ofStore store).load = (.ok loaded, cache))
    (hmagic : cache.store.magic = store.magic)
    (hmirrors : cache.store.Mirrors (MemoryStore.ofSnapshot loaded)) :
    store.Opens ∧ store.loaded = loaded := by
  have heq : store.loaded = loaded := by
    unfold DatabaseStore.loaded
    rw [h]
  rw [← heq] at h hmirrors
  exact ⟨⟨cache, h, hmagic, hmirrors⟩, heq⟩

theorem DatabaseStore.Holds.opens (h : store.Holds s) :
    store.Opens ∧ store.loaded = if s.IsLow then s else Snapshot.empty := by
  obtain ⟨loaded, cache, hload, hcase, hmagic, hmirrors⟩ := h.load
  obtain ⟨hopens, heq⟩ := DatabaseStore.opens_of_load hload hmagic hmirrors
  exact ⟨hopens, heq.trans hcase⟩

theorem DatabaseStore.Holds.loaded (h : store.Holds s) :
    store.loaded = s ∨ store.loaded = Snapshot.empty := by
  rw [h.opens.2]
  split
  · exact Or.inl rfl
  · exact Or.inr rfl

/-- What holds of the snapshot that is held, and of nothing, holds of what is loaded. -/
theorem DatabaseStore.Holds.loaded_spec {P : Snapshot → Prop} (h : store.Holds s) (hs : P s)
    (hempty : P Snapshot.empty) : P store.loaded := by
  rcases h.loaded with heq | heq
  · rw [heq]
    exact hs
  · rw [heq]
    exact hempty

theorem DatabaseStore.Opens.loaded_fits (h : store.Opens) : store.loaded.Fits := by
  obtain ⟨_, _, _, hmirrors⟩ := h
  obtain ⟨_, _, henc⟩ := hmirrors.tables
  exact henc.fits

theorem DatabaseStore.Holds.loaded_fits (h : store.Holds s) : store.loaded.Fits :=
  h.opens.1.loaded_fits

/-- **A run over a database.** -/
theorem DatabaseStore.Opens.run (h : store.Opens) {c : Course}
    (hfollows : Follows config d store.loaded c) :
    (prepareWith config d.volume d.files store).1
        = (plan config d.volume d.files store.loaded).2 ∧
      (prepareWith config d.volume d.files store).2.magic = store.magic ∧
      (prepareWith config d.volume d.files store).2.Mirrors
        (MemoryStore.ofSnapshot (c.stored d)) := by
  have hfits := hfollows.fits h.loaded_fits
  obtain ⟨cache, hload, hmagic, hmirrors⟩ := h
  obtain ⟨hok, hmagic', hlast⟩ := hmirrors.applyEdits hfits
  rw [hfollows.finish] at hlast
  unfold prepareWith
  rw [hload]
  dsimp only
  cases happly : applyEdits IndexCache.edit (plan config d.volume d.files store.loaded).1 cache with
  | mk result last =>
    rw [happly] at hok hmagic' hlast
    dsimp only at hok
    rw [hok]
    exact ⟨rfl, hmagic'.trans hmagic, hlast⟩

theorem DatabaseStore.Holds.run (h : store.Holds s) {c : Course}
    (hfollows : Follows config d store.loaded c) :
    (prepareWith config d.volume d.files store).1
        = (plan config d.volume d.files store.loaded).2 ∧
      (prepareWith config d.volume d.files store).2.Holds (c.stored d) := by
  obtain ⟨hresult, _, hmirrors⟩ := h.opens.1.run hfollows
  exact ⟨hresult, hmirrors.holds⟩

theorem DatabaseStore.Holds.cutRun (h : store.Holds s) {c : Course}
    (hfollows : Follows config d store.loaded c) (count : Nat) :
    (BlockIndex.cutRun config d count store).Holds
      ((MemoryStore.ofSnapshot store.loaded).editAll
        ((plan config d.volume d.files store.loaded).1.take count)).committed := by
  have hfits := hfollows.fits h.loaded_fits
  obtain ⟨cache, hload, _, hmirrors⟩ := h.opens.1
  have htaken : ∀ e ∈ (plan config d.volume d.files store.loaded).1.take count, e.Fits :=
    fun e he => hfits e (List.mem_of_mem_take he)
  obtain ⟨_, _, hlast⟩ := hmirrors.applyEdits htaken
  unfold BlockIndex.cutRun
  rw [hload]
  exact hlast.holds

end Database

end BlockIndex
