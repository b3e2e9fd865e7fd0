import BlockIndex.Proofs.BlockFile.Scanning
import BlockIndex.Proofs.Store.Mirroring
import BlockIndex.Run.Prepare

/-!
# What runs blame

A run may fail for many reasons, but never because its cache is corrupt.

* `Blameless`         a result other than that the cache is corrupt;
* `Reader.Answered`   a blameless answer beside a reader of the same files;
* `EditsBlameless`    the edits of a store do not find it corrupt.

Main statements: `plan_blameless`, `prepareWith_blameless`, `prepare_blameless`.
-/

namespace BlockIndex

/-! ## Results that do not blame the cache -/

/-- Whether an error says that the cache is corrupt. -/
def Error.blamesCache : Error → Bool
  | .cacheCorrupt _ => true
  | _ => false

/-- A result other than that the cache is corrupt. -/
def Blameless {α : Type} (result : Except Error α) : Prop :=
  ∀ fault, result ≠ .error (.cacheCorrupt fault)

section Blameless

variable {α β : Type} {result : Except Error α} {e : Error}

theorem blameless_ok (a : α) : Blameless (.ok a : Except Error α) := by
  intro fault h
  cases h

theorem blameless_error (h : e.blamesCache = false) : Blameless (.error e : Except Error α) := by
  intro fault heq
  obtain rfl := Except.error.inj heq
  cases h

theorem Blameless.error (h : Blameless (.error e : Except Error α)) :
    Blameless (.error e : Except Error β) :=
  fun fault heq => h fault (congrArg Except.error (Except.error.inj heq))

theorem Blameless.bind {next : α → Except Error β} (h : Blameless result)
    (hnext : ∀ a, result = .ok a → Blameless (next a)) : Blameless (result >>= next) := by
  cases result with
  | error e => exact h.error
  | ok a => exact hnext a rfl

end Blameless

/-! ## Reading -/

/-- A blameless answer beside a reader of the same files. -/
structure Reader.Answered {α : Type} (r : Reader) (answer : Except Error α × Reader) : Prop where
  blameless : Blameless answer.1
  files : answer.2.files = r.files
  magic : answer.2.magic = r.magic

namespace Reader

variable {α β : Type} {r next : Reader} {result : Except Error α} {v : Volume}

theorem answered_self (h : Blameless result) : r.Answered (result, r) := ⟨h, rfl, rfl⟩

theorem Answered.with (h : r.Answered (result, next)) {other : Except Error β}
    (hother : Blameless other) : r.Answered (other, next) :=
  ⟨hother, h.files, h.magic⟩

theorem Answered.error {e : Error} (h : r.Answered ((.error e : Except Error α), next)) :
    r.Answered ((.error e : Except Error β), next) :=
  h.with h.blameless.error

theorem Answered.trans (h : r.Answered (result, next)) {answer : Except Error β × Reader}
    (hanswer : next.Answered answer) : r.Answered answer :=
  ⟨hanswer.blameless, hanswer.files.trans h.files, hanswer.magic.trans h.magic⟩

theorem target_answered (r : Reader) (v : Volume) (fileId : Nat) :
    r.Answered (r.target v fileId) := by
  unfold target
  split
  · exact answered_self (blameless_error rfl)
  · split
    · exact answered_self (blameless_ok _)
    · split
      · exact answered_self (blameless_error rfl)
      · exact ⟨blameless_ok _, rfl, rfl⟩

theorem readAt_answered (r : Reader) (v : Volume) (fileId offset count : Nat) :
    r.Answered (r.readAt v fileId offset count) := by
  have htarget := r.target_answered v fileId
  unfold readAt
  split
  · next e next h =>
    rw [h] at htarget
    exact htarget.error
  · next path id next h =>
    rw [h] at htarget
    split
    · exact htarget.with (blameless_ok _)
    · exact htarget.with (blameless_error rfl)
    · exact htarget.with (blameless_error rfl)

theorem parseRecord_blameless (magic : UInt32) (fileId offset : Nat) (raw : Bytes) :
    Blameless (parseRecord magic fileId offset raw) := by
  unfold parseRecord
  dsimp only
  split
  · exact blameless_error rfl
  · split
    · exact blameless_ok _
    · exact blameless_error rfl

theorem recordAt_answered (r : Reader) (v : Volume) (fileId offset : Nat) :
    r.Answered (r.recordAt v fileId offset) := by
  have hread := r.readAt_answered v fileId offset (Record.prefixSize + Header.size)
  unfold recordAt
  split
  · next e next h =>
    rw [h] at hread
    exact hread.error
  · next raw next h =>
    rw [h] at hread
    exact hread.with (parseRecord_blameless _ _ _ _)

theorem onDisk_answered (r : Reader) (v : Volume) (record : Record) :
    r.Answered (r.onDisk v record) := by
  have hrecord := r.recordAt_answered v record.fileId record.offset
  unfold onDisk
  split
  · next found next h =>
    rw [h] at hrecord
    exact hrecord.with (blameless_ok _)
  · next next h =>
    rw [h] at hrecord
    exact hrecord.with (blameless_ok _)
  · next e next _ h =>
    rw [h] at hrecord
    exact hrecord.error

theorem allOnDisk_answered (r : Reader) (v : Volume) (rs : List Record) :
    r.Answered (r.allOnDisk v rs) := by
  induction rs generalizing r with
  | nil => exact answered_self (blameless_ok _)
  | cons record rest ih =>
    have hfirst := r.onDisk_answered v record
    unfold allOnDisk
    split
    · next next h =>
      rw [h] at hfirst
      exact hfirst.trans (ih next)
    · next next h =>
      rw [h] at hfirst
      exact hfirst.with (blameless_ok _)
    · next e next h =>
      rw [h] at hfirst
      exact hfirst.error

theorem moved_answered (r : Reader) (v : Volume) (record : α → Record) (as : List α) :
    r.Answered (r.moved v record as) := by
  induction as generalizing r with
  | nil => exact answered_self (blameless_ok _)
  | cons a rest ih =>
    have hfirst := r.onDisk_answered v (record a)
    unfold moved
    split
    · next e next h =>
      rw [h] at hfirst
      exact hfirst.error
    · next found next h =>
      rw [h] at hfirst
      have hrest := hfirst.trans (ih next)
      split
      · next e last h' =>
        rw [h'] at hrest
        exact hrest.error
      · next others last h' =>
        rw [h'] at hrest
        exact hrest.with (blameless_ok _)

end Reader

namespace Snapshot

variable (s : Snapshot) (r : Reader) (v : Volume) (files : BlockFiles)

theorem spotCheck_answered (fileId : Nat) : r.Answered (s.spotCheck r v fileId) := by
  have hends := r.allOnDisk_answered v
    (((Entry.earliest? (s.entriesIn fileId)).toList ++
      (Entry.latest? (s.entriesIn fileId)).toList).map Entry.toRecord)
  unfold spotCheck
  dsimp only
  split
  · next e next h =>
    rw [h] at hends
    exact hends.error
  · next next h =>
    rw [h] at hends
    exact hends.with (blameless_ok _)
  · next next h =>
    rw [h] at hends
    exact hends.with (blameless_ok _)

theorem fullCheck_answered (fileId : Nat) : r.Answered (s.fullCheck r v fileId) := by
  have hentries := r.moved_answered v Entry.toRecord (s.entriesIn fileId)
  unfold fullCheck
  split
  · next e next h =>
    rw [h] at hentries
    exact hentries.error
  · next stale next h =>
    rw [h] at hentries
    have horphans := hentries.trans
      (next.moved_answered v id (s.orphans.filter fun o => o.fileId = fileId))
    split
    · next e last h' =>
      rw [h'] at horphans
      exact horphans.error
    · next lost last h' =>
      rw [h'] at horphans
      exact horphans.with (blameless_ok _)

theorem checkFile_answered (fileId : Nat) : r.Answered (s.checkFile r v files fileId) := by
  have hspot := s.spotCheck_answered r v fileId
  unfold checkFile
  split
  · exact Reader.answered_self (blameless_ok _)
  · exact s.fullCheck_answered r v fileId
  · split
    · next e next h =>
      rw [h] at hspot
      exact hspot.error
    · next height next h =>
      rw [h] at hspot
      exact hspot.with (blameless_ok _)

theorem checkFiles_answered (ids : List Nat) : r.Answered (s.checkFiles r v files ids) := by
  induction ids generalizing s r with
  | nil => exact Reader.answered_self (blameless_ok _)
  | cons fileId rest ih =>
    have hfirst := s.checkFile_answered r v files fileId
    unfold checkFiles
    split
    · next e next h =>
      rw [h] at hfirst
      exact hfirst.error
    · next height t next h =>
      rw [h] at hfirst
      have hrest := hfirst.trans (ih t next)
      split
      · next e last h' =>
        rw [h'] at hrest
        exact hrest.error
      · next other u last h' =>
        rw [h'] at hrest
        exact hrest.with (blameless_ok _)

/-- The check of a snapshot blames files only, and reads with the reader that it got. -/
theorem staleHeight_answered : r.Answered (s.staleHeight r v files) :=
  s.checkFiles_answered r v files s.mentionedFiles

theorem resume_answered : r.Answered (resume r v files s) := by
  have hstale := s.staleHeight_answered r v files
  unfold resume
  split
  · next e next h =>
    rw [h] at hstale
    exact hstale.error
  · next stale checked next h =>
    rw [h] at hstale
    exact hstale.with (blameless_ok _)

end Snapshot

/-! ## Scanning -/

namespace Scanner

theorem readRecord_blameless (s : Scanner) (place : Nat) (after : Bytes) :
    Blameless (s.readRecord place after).1 := by
  unfold readRecord corrupt
  dsimp only
  split
  · exact blameless_error rfl
  split
  · exact blameless_error rfl
  split
  · exact blameless_error rfl
  split
  · exact blameless_error rfl
  split
  · exact blameless_error rfl
  · exact blameless_ok _

theorem next?_blameless {s t : Scanner} {item : Except Error Record}
    (h : s.next? = some (item, t)) : Blameless item := by
  unfold next? at h
  split at h
  · cases h
  · split at h
    · cases h
    · next place after _ =>
      have hitem := s.readRecord_blameless place after
      rw [Option.some.inj h] at hitem
      exact hitem

theorem scanAll_blameless (s : Scanner) : ∀ item ∈ s.scanAll, Blameless item.1 := by
  induction s using scanAll.induct with
  | case1 s hnone =>
    rw [scanAll_of_none hnone]
    exact fun item hitem => absurd hitem List.not_mem_nil
  | case2 s item t hnext hgo ih =>
    rw [scanAll_of_some hnext, hgo]
    exact List.forall_mem_cons.2 ⟨next?_blameless hnext, ih⟩
  | case3 s item t hnext hgo =>
    rw [scanAll_of_some hnext, eq_true_of_ne_false hgo]
    exact List.forall_mem_cons.2
      ⟨next?_blameless hnext, fun other hother => absurd hother List.not_mem_nil⟩

theorem openFile_blameless (v : Volume) (file : BlockFile) (magic : UInt32) (offset : Nat) :
    Blameless (openFile v file magic offset) := by
  unfold openFile
  split
  · exact blameless_error rfl
  · exact blameless_ok _

end Scanner

namespace Progress

theorem scanItems_blameless (p : Progress) (target : Option Nat) (scannedTo : Nat)
    {items : List (Except Error Record × Nat)} (h : ∀ item ∈ items, Blameless item.1) :
    Blameless (p.scanItems target scannedTo items).1 := by
  induction items generalizing p scannedTo with
  | nil => exact blameless_ok _
  | cons item rest ih =>
    have hrest : ∀ other ∈ rest, Blameless other.1 :=
      fun other hother => h other (List.mem_cons_of_mem item hother)
    have hitem := h item List.mem_cons_self
    unfold scanItems
    split
    · next heq => cases heq
    · next record place others heq =>
      obtain ⟨rfl, rfl⟩ := List.cons.inj heq
      dsimp only
      split
      · exact blameless_ok _
      · exact ih _ _ hrest
    · next place others heq =>
      obtain ⟨rfl, rfl⟩ := List.cons.inj heq
      exact ih _ _ hrest
    · next e place others _ heq =>
      obtain ⟨rfl, rfl⟩ := List.cons.inj heq
      exact hitem.error

theorem scanFiles_blameless (p : Progress) (v : Volume) (magic : UInt32) (target : Option Nat)
    (cursor : Cursor) (outcome : Outcome) (files : List BlockFile) :
    Blameless (p.scanFiles v magic target cursor outcome files).1 := by
  induction files generalizing p outcome with
  | nil => exact blameless_ok _
  | cons file rest ih =>
    unfold scanFiles
    split
    · exact ih p outcome
    · next offset _ =>
      have hopen := Scanner.openFile_blameless v file magic offset
      split
      · next e h =>
        rw [h] at hopen
        exact hopen.error
      · next scanner _ =>
        have hitems := p.scanItems_blameless target scanner.scannedTo scanner.scanAll_blameless
        split
        · next e q h =>
          rw [h] at hitems
          exact hitems.error
        · next scannedTo reached q h =>
          dsimp only
          split
          · exact blameless_ok _
          · exact ih q _

end Progress

theorem scanFrom_blameless (config : Config) (v : Volume) (files : BlockFiles) (a : Assembler)
    (cursor : Cursor) : Blameless (scanFrom config v files a cursor).1 := by
  unfold scanFrom
  dsimp only
  split
  · exact blameless_ok _
  · exact Progress.scanFiles_blameless _ _ _ _ _ _ _

/-! ## Walking -/

theorem Assembler.ancestry_blameless (a : Assembler) (height : Nat) (node : Node)
    (path : List Hash) : Blameless (a.ancestry height node path) := by
  induction height generalizing node path with
  | zero => exact blameless_ok _
  | succ height ih =>
    unfold ancestry
    split
    · exact ih _ _
    · exact blameless_error rfl

theorem chainFor_blameless (config : Config) (a : Assembler) : Blameless (chainFor config a) := by
  unfold chainFor Assembler.branchTo
  split
  · split
    · exact blameless_error rfl
    · next node _ =>
      split
      · exact blameless_error rfl
      · next height _ =>
        have hpath := a.ancestry_blameless height node []
        split
        · exact blameless_ok _
        · next e h =>
          rw [h] at hpath
          exact hpath.error
  · exact blameless_ok _

namespace Range

variable (config : Config) (a : Assembler) (chain : BestChain)

theorem lastHeight_blameless : Blameless (lastHeight config chain) := by
  unfold lastHeight
  split
  · exact blameless_ok _
  · exact blameless_error rfl
  · split
    · exact blameless_error rfl
    · exact blameless_ok _

theorem firstHeight_blameless : Blameless (firstHeight config a chain) := by
  unfold firstHeight heightOn
  split
  · split
    · split
      · exact blameless_ok _
      · exact blameless_error rfl
    · exact blameless_error rfl
  · exact blameless_ok _

theorem resolve_blameless : Blameless (resolve config a chain) := by
  refine (lastHeight_blameless config chain).bind fun last _ => ?_
  refine (firstHeight_blameless config a chain).bind fun first _ => ?_
  split
  · split
    · exact blameless_ok _
    · exact blameless_error rfl
  · split
    · exact blameless_ok _
    · exact blameless_error rfl

end Range

theorem walkOver_blameless (config : Config) (r : Reader) (a : Assembler) (reused : Bool)
    (records reorgs : Nat) : Blameless (walkOver config r a reused records reorgs) :=
  (chainFor_blameless config a).bind fun chain _ =>
    (Range.resolve_blameless config a chain).bind fun _ _ => blameless_ok _

/-- What follows a loaded snapshot does not blame it. -/
theorem plan_blameless (config : Config) (v : Volume) (files : BlockFiles) (s : Snapshot) :
    Blameless (plan config v files s).2 := by
  have hresume := s.resume_answered (Reader.ofFiles files config.network.magic) v files
  unfold plan
  split
  · next e r h =>
    rw [h] at hresume
    exact hresume.blameless.error
  · next resumed r h =>
    have hscan := scanFrom_blameless config v files resumed.assembler resumed.snapshot.cursor
    split
    · next e p h' =>
      rw [h'] at hscan
      exact hscan.error
    · exact walkOver_blameless _ _ _ _ _ _

/-! ## Stores -/

/-- The edits of a store do not find it corrupt. -/
def EditsBlameless (σ : Type) [IndexStore σ] : Prop :=
  ∀ (change : Edit) (store : σ), Blameless (IndexStore.edit change store).1

theorem MemoryStore.edit_blameless : EditsBlameless MemoryStore := fun _ _ => blameless_ok _

namespace DatabaseStore

theorem commit_blameless (store : DatabaseStore) {change : Tables → Except Error Tables}
    (h : ∀ t, Blameless (change t)) : Blameless (store.commit change).1 := by
  unfold commit
  split
  · next t _ =>
    have hchange := h (TableWriting.queued store.queued t)
    split
    · exact blameless_ok _
    · next e heq =>
      rw [heq] at hchange
      exact hchange.error
  · exact blameless_error rfl

theorem truncate_blameless (height : Nat) (t : Tables) :
    Blameless (TableWriting.truncate height t) := by
  unfold TableWriting.truncate TableWriting.rewindCursor
  dsimp only
  split
  · exact blameless_ok _
  · next e h =>
    split at h
    · cases h
    · split at h
      · cases h
      · obtain rfl := Except.error.inj h
        exact blameless_error rfl

theorem edit_blameless : EditsBlameless DatabaseStore := by
  intro change store
  cases change with
  | append entry => exact blameless_ok _
  | truncate height => exact store.commit_blameless (truncate_blameless height)
  | flush state => exact store.commit_blameless fun t => blameless_ok _
  | reset => exact blameless_ok _

end DatabaseStore

namespace FileStore

theorem deleteAll_blameless (v : Volume) (paths : List Path) : Blameless (deleteAll v paths).1 := by
  induction paths generalizing v with
  | nil => exact blameless_ok _
  | cons path rest ih =>
    unfold deleteAll
    split
    · exact ih _
    · exact ih _
    · exact blameless_error rfl

theorem reset_blameless (store : FileStore) : Blameless store.reset.1 := by
  have hdelete := deleteAll_blameless store.volume (databaseFiles store.cachedir)
  unfold reset
  dsimp only
  split
  · next e v h =>
    rw [h] at hdelete
    exact hdelete.error
  · split
    · exact blameless_error rfl
    · split
      · exact blameless_error rfl
      · split
        · exact blameless_error rfl
        · exact blameless_ok _

theorem edit_blameless : EditsBlameless FileStore := by
  intro change store
  cases change with
  | append entry => exact blameless_ok _
  | truncate height => exact DatabaseStore.edit_blameless (.truncate height) _
  | flush state => exact DatabaseStore.edit_blameless (.flush state) _
  | reset => exact store.reset_blameless

theorem openIn_blameless (v : Volume) (cachedir : Path) (network : Network) :
    Blameless (openIn v cachedir network).1 := by
  unfold openIn
  split
  · exact blameless_error rfl
  · split
    · exact blameless_error rfl
    · exact blameless_ok _

end FileStore

/-! ## Runs -/

section Caches

variable {σ : Type} [IndexStore σ]

theorem IndexCache.load_blameless (h : EditsBlameless σ) (cache : IndexCache σ) :
    Blameless cache.load.1 := by
  unfold IndexCache.load
  split
  · exact blameless_ok _
  · next fault store _ =>
    have hreset := h .reset store
    split
    · exact blameless_ok _
    · next e next heq =>
      rw [heq] at hreset
      exact hreset.error
  · next e store hne _ => exact fun fault heq => hne fault (Except.error.inj heq)

theorem applyEdits_blameless (h : EditsBlameless σ) (edits : List Edit) (cache : IndexCache σ) :
    Blameless (applyEdits IndexCache.edit edits cache).1 := by
  induction edits generalizing cache with
  | nil => exact blameless_ok _
  | cons change rest ih =>
    have hfirst := h change cache.store
    rw [← IndexCache.edit_fst] at hfirst
    unfold applyEdits
    split
    · exact ih _
    · next e next heq =>
      rw [heq] at hfirst
      exact hfirst.error

/-- A run over a store does not find it corrupt. -/
theorem prepareWith_blameless (h : EditsBlameless σ) (config : Config) (v : Volume)
    (files : BlockFiles) (store : σ) : Blameless (prepareWith config v files store).1 := by
  have hload := IndexCache.load_blameless h (IndexCache.ofStore store)
  unfold prepareWith
  split
  · next e cache heq =>
    rw [heq] at hload
    exact hload.error
  · next loaded cache _ =>
    have hedits := applyEdits_blameless h (plan config v files loaded).1 cache
    dsimp only
    split
    · next e last heq =>
      rw [heq] at hedits
      exact hedits.error
    · exact plan_blameless config v files loaded

end Caches

theorem collect_blameless (found : BlockFiles) (l : List BlockFile) :
    Blameless (BlockFiles.collect found l) := by
  induction l generalizing found with
  | nil => exact blameless_ok _
  | cons file rest ih =>
    unfold BlockFiles.collect
    split
    · exact blameless_error rfl
    · exact ih _

theorem discover_blameless (v : Volume) (dir : Path) : Blameless (BlockFiles.discover v dir) := by
  unfold BlockFiles.discover
  split
  · exact collect_blameless _ _
  · exact blameless_error rfl

theorem Config.validate_blameless (config : Config) : Blameless config.validate := by
  unfold Config.validate
  split
  · exact blameless_error rfl
  · split
    · exact blameless_ok _
    · split
      · exact blameless_error rfl
      · split
        · exact blameless_error rfl
        · exact blameless_ok _

/-- **No run finds its cache corrupt**, whatever the volume holds. -/
theorem prepare_blameless (config : Config) (v : Volume) : Blameless (prepare config v).1 := by
  have hvalid := config.validate_blameless
  have hdiscover := discover_blameless v config.blockdir
  unfold prepare
  split
  · next e h =>
    rw [h] at hvalid
    exact hvalid.error
  split
  · next e h =>
    rw [h] at hdiscover
    exact hdiscover.error
  · next files _ =>
    unfold prepareOver
    split
    · exact prepareWith_blameless MemoryStore.edit_blameless _ _ _ _
    · next cachedir _ =>
      have hopen := FileStore.openIn_blameless v cachedir config.network
      split
      · next e next h =>
        rw [h] at hopen
        exact hopen.error
      · exact prepareWith_blameless FileStore.edit_blameless _ _ _ _

end BlockIndex
