import BlockIndex.Store.File
import BlockIndex.Proofs.Volume.Naming

/-!
# Work on a database in a file

Before work on a database begins, a journal, a log and its index are dealt with beside it.  None of
that touches the file of a database that has tables: what the store holds stays the same.

* `Volume.Beside`  a file, and a directory in which its companions come and go.

Main statements: `Volume.Beside.ready`, `FileStore.found_cases` (what is found is what was there, or
nothing that can be read), `FileStore.inner_withInner` (what is written is there).
-/

namespace BlockIndex

/-! ## Getting ready -/

namespace Volume

variable {v w : Volume} {id owner : NodeNumber} {file : StoredFile} {place : Place}

/-- A file, and the directory of a place beside it. -/
structure Beside (v : Volume) (id : NodeNumber) (file : StoredFile) (directory : NodeNumber) :
    Prop where
  file : v.file? id = some file
  directory : v.isDirectory directory

theorem Beside.ne (h : v.Beside id file place.directory) : id ≠ place.directory := by
  intro heq
  have hdirectory := h.directory
  rw [← heq, isDirectory_of_file h.file] at hdirectory
  cases hdirectory

theorem Beside.of_node? {directory : NodeNumber} (h : v.Beside id file directory)
    (hfile : w.node? id = v.node? id) (hdirectory : w.isDirectory directory) :
    w.Beside id file directory where
  file := by
    rw [file?_eq_some_iff, hfile]
    exact file?_eq_some_iff.1 h.file
  directory := hdirectory

theorem Beside.setMembers (h : v.Beside id file place.directory)
    (members : List (String × NodeNumber)) :
    (v.setMembers place.directory members).Beside id file place.directory := by
  refine h.of_node? ?_ ?_
  · rw [node?_setMembers h.directory, if_neg h.ne]
  · rw [isDirectory_iff, node?_setMembers h.directory, if_pos rfl]
    exact ⟨_, _, rfl⟩

theorem Beside.removeName (h : v.Beside id file place.directory) :
    (v.removeName place).Beside id file place.directory := h.setMembers _

theorem Beside.addNode (h : v.Beside id file place.directory) (node : FileNode) :
    (v.addNode place node).Beside id file place.directory := by
  have hfile := file?_eq_some_iff.1 h.file
  refine h.of_node? ?_ ?_
  · rw [node?_addNode h.directory, if_neg h.ne, if_neg (ne_freshId hfile)]
  · rw [isDirectory_iff, node?_addNode h.directory, if_pos rfl]
    exact ⟨_, _, rfl⟩

theorem Beside.fileAt {made : NodeNumber} (h : v.Beside id file place.directory)
    (hfile : v.fileAt place = .ok (made, w)) : w.Beside id file place.directory := by
  unfold Volume.fileAt at hfile
  split at hfile
  · cases hfile
  · split at hfile
    · obtain ⟨_, rfl⟩ := Prod.mk.inj (Except.ok.inj hfile)
      exact h.addNode _
    · split at hfile
      · obtain ⟨_, rfl⟩ := Prod.mk.inj (Except.ok.inj hfile)
        exact h
      · cases hfile
      · cases hfile
      · cases hfile

theorem Beside.settleJournal (h : v.Beside id file place.directory) :
    (v.settleJournal place).2.Beside id file place.directory := by
  unfold Volume.settleJournal
  dsimp only
  split
  · split
    · exact h
    · dsimp only
      split
      · exact h
      · have hjournal : v.Beside id file (place.companion .journal).directory := h
        exact hjournal.removeName
  · exact h

theorem Beside.takeLog (h : v.Beside id file place.directory) :
    (v.takeLog place).2.Beside id file place.directory := by
  unfold Volume.takeLog
  split
  · exact h
  next log w hlog =>
  have hv : v.Beside id file (place.companion .log).directory := h
  have hw : w.Beside id file (place.companion .logIndex).directory := hv.fileAt hlog
  split
  · exact hw
  next index x hindex =>
  have hx : x.Beside id file (place.companion .log).directory := hw.fileAt hindex
  have hremoved : (x.removeName (place.companion .log)).Beside id file
      (place.companion .logIndex).directory := hx.removeName
  exact hremoved.removeName

/-- Getting a database ready leaves the file of one that was there. -/
theorem Beside.ready {held : Database} (h : v.Beside id file place.directory)
    (hheld : file.content = .database held) :
    (v.ready place id).2.file? id = some file := by
  unfold Volume.ready
  rw [h.file, Option.map_some, hheld]
  dsimp only
  have hsettled := h.settleJournal
  split
  next w hw =>
    rw [hw] at hsettled
    exact hsettled.file
  next w hw =>
    rw [hw] at hsettled
    exact hsettled.takeLog.file

end Volume

/-! ## Stores in a file -/

namespace FileStore

variable {store : FileStore} {t : Tables}

theorem exists_file (ht : store.database = .tables t) :
    ∃ file, store.volume.file? store.id = some file ∧ file.content = .database (.tables t) := by
  unfold database at ht
  split at ht
  next file hfile =>
    refine ⟨file, hfile, ?_⟩
    unfold Content.asDatabase at ht
    split at ht
    · next held hheld => rw [hheld, ht]
    · cases ht
    · cases ht
    · cases ht
  · cases ht

theorem inner_of_file? {w : Volume} (h : w.file? store.id = store.volume.file? store.id)
    (begun : Bool) :
    ({ store with volume := w, atWork := begun } : FileStore).inner = store.inner := by
  unfold inner database
  rw [h]

theorem inner_beginUnder {named : NodeNumber} (ht : store.database = .tables t)
    (hnamed : store.volume.occupant? store.place = some named) :
    (store.beginUnder named).2.inner = store.inner := by
  obtain ⟨file, hfile, hcontent⟩ := exists_file ht
  have hbeside : store.volume.Beside store.id file store.place.directory :=
    ⟨hfile, Volume.isDirectory_of_occupant hnamed⟩
  have hready := hbeside.ready hcontent
  have howner : store.logOwner named = store.id := by
    unfold logOwner
    rw [ht]
  unfold beginUnder
  rw [howner]
  dsimp only
  cases hv : store.volume.ready store.place store.id with
  | mk begun w =>
    rw [hv] at hready
    have hkept : w.file? store.id = store.volume.file? store.id := hready.trans hfile.symm
    cases begun with
    | false => exact inner_of_file? hkept store.atWork
    | true =>
      dsimp only
      rw [if_pos rfl]
      exact inner_of_file? hkept true

/-- Beginning work on a database with tables leaves them. -/
theorem inner_ready (ht : store.database = .tables t) : store.ready.2.inner = store.inner := by
  unfold ready
  split
  · rfl
  · split
    · rfl
    · next named hnamed => exact inner_beginUnder ht hnamed

/-- What work finds is what is there, or nothing that can be read. -/
theorem found_cases (store : FileStore) :
    store.found.2.inner = store.inner ∧
      (store.found.1 = store.database ∨ store.found.1 = .unreadable) := by
  unfold found
  cases hdatabase : store.database with
  | unreadable => exact ⟨rfl, .inl rfl⟩
  | blank => exact ⟨rfl, .inl rfl⟩
  | tables t =>
    have hinner := inner_ready hdatabase
    dsimp only
    split
    · next next hready =>
      rw [hready] at hinner
      exact ⟨hinner, .inr rfl⟩
    · next next hready =>
      rw [hready] at hinner
      exact ⟨hinner, .inl ((congrArg DatabaseStore.database hinner).trans hdatabase)⟩

theorem inner_withInner {inner : DatabaseStore} {old : StoredFile}
    (hfile : store.volume.file? store.id = some old) (ht : inner.database = .tables t) :
    (store.withInner inner).inner = ⟨.tables t, store.magic, inner.queued⟩ := by
  unfold withInner
  rw [ht]
  have hnew : (store.volume.setFile store.id ⟨.database (.tables t), Volume.defaultTime⟩).file?
      store.id = some ⟨.database (.tables t), Volume.defaultTime⟩ := by
    rw [Volume.file?_eq_some_iff, Volume.node?_setFile hfile, if_pos rfl]
  unfold FileStore.inner database writeTables
  dsimp only
  rw [hnew]
  rfl

theorem inner_withInner_of_ne {inner : DatabaseStore} (h : ∀ t, inner.database ≠ .tables t) :
    (store.withInner inner).inner = ⟨store.database, store.magic, inner.queued⟩ := by
  unfold withInner
  cases hdatabase : inner.database with
  | unreadable => rfl
  | blank => rfl
  | tables t => exact absurd hdatabase (h t)

end FileStore

end BlockIndex
