import BlockIndex.Proofs.Store.Seat
import BlockIndex.Run.Prepare

/-!
# Stores that are used alike

Two kinds of store of which each call answers the same and leaves stores that are again alike cannot
be told apart by a run.  A store in a file, in a cache directory that nothing else stands in the way
of, is alike to the database that its file holds.

* `Simulates`          stores that are alike answer alike and stay so;
* `FileStore.Seated`   a store in the file of the database of a cache directory.

Main statements: `Simulates.prepareWith` (a run over stores that are alike), `FileStore.simulates`.
-/

namespace BlockIndex

/-! ## Runs over stores that are alike -/

/-- Whatever is called, stores that are alike answer the same, and stay alike. -/
structure Simulates {σ τ : Type} [IndexStore σ] [IndexStore τ] (Alike : σ → τ → Prop) : Prop where
  load : ∀ s t, Alike s t → (IndexStore.load s).1 = (IndexStore.load t).1 ∧
    Alike (IndexStore.load s).2 (IndexStore.load t).2
  edit : ∀ change s t, Alike s t →
    (IndexStore.edit change s).1 = (IndexStore.edit change t).1 ∧
      Alike (IndexStore.edit change s).2 (IndexStore.edit change t).2

namespace Simulates

variable {σ τ : Type} [IndexStore σ] [IndexStore τ] {Alike : σ → τ → Prop} {s : σ} {t : τ}

/-- Caches of stores that are alike. -/
structure Caches (Alike : σ → τ → Prop) (c : IndexCache σ) (d : IndexCache τ) : Prop where
  store : Alike c.store d.store
  pending : c.pending = d.pending
  reused : c.reused = d.reused

/-- A cache heals corrupt stores that are alike in one way. -/
theorem cacheLoad (h : Simulates Alike) {c : IndexCache σ} {d : IndexCache τ}
    (hcd : Caches Alike c d) : c.load.1 = d.load.1 ∧ Caches Alike c.load.2 d.load.2 := by
  obtain ⟨heq, hnext⟩ := h.load _ _ hcd.store
  unfold IndexCache.load
  generalize IndexStore.load c.store = loaded at heq hnext ⊢
  generalize IndexStore.load d.store = loaded' at heq hnext ⊢
  obtain ⟨result, s⟩ := loaded
  obtain ⟨result', t⟩ := loaded'
  obtain rfl : result = result' := heq
  cases result with
  | ok snapshot => exact ⟨rfl, hnext, hcd.pending, rfl⟩
  | error e =>
    cases e with
    | cacheCorrupt fault =>
      obtain ⟨hreset, hleft⟩ := h.edit .reset s t hnext
      dsimp only
      generalize IndexStore.edit .reset s = reset at hreset hleft ⊢
      generalize IndexStore.edit .reset t = reset' at hreset hleft ⊢
      obtain ⟨outcome, s'⟩ := reset
      obtain ⟨outcome', t'⟩ := reset'
      obtain rfl : outcome = outcome' := hreset
      cases outcome with
      | ok _ => exact ⟨rfl, hleft, hcd.pending, rfl⟩
      | error e => exact ⟨rfl, hleft, hcd.pending, hcd.reused⟩
    | _ => exact ⟨rfl, hnext, hcd.pending, hcd.reused⟩

theorem cacheEdit (h : Simulates Alike) {c : IndexCache σ} {d : IndexCache τ}
    (hcd : Caches Alike c d) (change : Edit) :
    (c.edit change).1 = (d.edit change).1 ∧ Caches Alike (c.edit change).2 (d.edit change).2 := by
  obtain ⟨heq, hnext⟩ := h.edit change _ _ hcd.store
  unfold IndexCache.edit
  cases change with
  | append entry => exact ⟨heq, hnext, congrArg (· + 1) hcd.pending, hcd.reused⟩
  | truncate height => exact ⟨heq, hnext, hcd.pending, hcd.reused⟩
  | flush state =>
    dsimp only
    rw [heq]
    split
    · exact ⟨rfl, hnext, rfl, hcd.reused⟩
    · exact ⟨rfl, hnext, hcd.pending, hcd.reused⟩
  | reset => exact ⟨heq, hnext, rfl, rfl⟩

theorem applyEdits (h : Simulates Alike) {c : IndexCache σ} {d : IndexCache τ}
    (hcd : Caches Alike c d) (edits : List Edit) :
    (applyEdits IndexCache.edit edits c).1 = (applyEdits IndexCache.edit edits d).1 ∧
      Caches Alike (applyEdits IndexCache.edit edits c).2 (applyEdits IndexCache.edit edits d).2 := by
  induction edits generalizing c d with
  | nil => exact ⟨rfl, hcd⟩
  | cons change rest ih =>
    obtain ⟨heq, hnext⟩ := h.cacheEdit hcd change
    unfold BlockIndex.applyEdits
    generalize c.edit change = made at heq hnext ⊢
    generalize d.edit change = made' at heq hnext ⊢
    obtain ⟨result, c'⟩ := made
    obtain ⟨result', d'⟩ := made'
    obtain rfl : result = result' := heq
    cases result with
    | ok _ => exact ih hnext
    | error e => exact ⟨rfl, hnext⟩

/-- **A run does not tell stores apart that are alike.** -/
theorem prepareWith (h : Simulates Alike) (hst : Alike s t) (config : Config) (v : Volume)
    (files : BlockFiles) :
    (prepareWith config v files s).1 = (prepareWith config v files t).1 ∧
      Alike (prepareWith config v files s).2 (prepareWith config v files t).2 := by
  obtain ⟨heq, hnext⟩ := h.cacheLoad (c := .ofStore s) (d := .ofStore t) ⟨hst, rfl, rfl⟩
  unfold BlockIndex.prepareWith
  generalize (IndexCache.ofStore s).load = loaded at heq hnext ⊢
  generalize (IndexCache.ofStore t).load = loaded' at heq hnext ⊢
  obtain ⟨result, c⟩ := loaded
  obtain ⟨result', d⟩ := loaded'
  obtain rfl : result = result' := heq
  cases result with
  | error e => exact ⟨rfl, hnext.store⟩
  | ok snapshot =>
    dsimp only
    obtain ⟨hmade, hleft⟩ := h.applyEdits hnext (plan config v files snapshot).1
    generalize BlockIndex.applyEdits IndexCache.edit (plan config v files snapshot).1 c = made
      at hmade hleft ⊢
    generalize BlockIndex.applyEdits IndexCache.edit (plan config v files snapshot).1 d = made'
      at hmade hleft ⊢
    obtain ⟨outcome, c'⟩ := made
    obtain ⟨outcome', d'⟩ := made'
    obtain rfl : outcome = outcome' := hmade
    cases outcome with
    | error e => exact ⟨rfl, hleft.store⟩
    | ok _ => exact ⟨rfl, hleft.store⟩

end Simulates

/-! ## Stores in a file -/

namespace DatabaseStore

variable {store : DatabaseStore}

/-- A change of a store: its network stays, and its database too unless there are tables now. -/
def Turns (before after : DatabaseStore) : Prop :=
  after.magic = before.magic ∧
    ((∃ t, after.database = .tables t) ∨ after.database = before.database)

theorem turns_load (store : DatabaseStore) : store.Turns store.load.2 := by
  unfold load
  cases store.initialised with
  | none => exact ⟨rfl, .inr rfl⟩
  | some t => exact ⟨rfl, .inl ⟨t, rfl⟩⟩

theorem turns_commit (store : DatabaseStore) (change : Tables → Except Error Tables) :
    store.Turns (store.commit change).2 := by
  obtain ⟨database, magic, queued⟩ := store
  unfold commit
  cases database with
  | unreadable => exact ⟨rfl, .inr rfl⟩
  | blank => exact ⟨rfl, .inr rfl⟩
  | tables t =>
    dsimp only
    split
    · exact ⟨rfl, .inl ⟨_, rfl⟩⟩
    · exact ⟨rfl, .inr rfl⟩

end DatabaseStore

namespace FileStore

variable {store : FileStore} {cachedir : Path} {dir : NodeNumber} {inner : DatabaseStore}

/-- A store in the file of the database of a cache directory. -/
structure Seated (store : FileStore) (cachedir : Path) (dir : NodeNumber) : Prop where
  within : store.cachedir = cachedir
  place : store.place = databasePlace dir
  houses : ∃ file, store.volume.Houses cachedir dir store.id file

theorem database_eq (store : FileStore) {file : StoredFile}
    (h : store.volume.file? store.id = some file) : store.database = file.content.asDatabase := by
  unfold database
  rw [h]

namespace Seated

/-- Work on the database can begin, unless it cannot be read. -/
theorem ready (h : store.Seated cachedir dir) :
    store.ready.2.Seated cachedir dir ∧ store.ready.2.inner = store.inner ∧
      (store.ready.1 = false → store.database = .unreadable) := by
  obtain ⟨file, hhouses⟩ := h.houses
  unfold FileStore.ready
  split
  · exact ⟨h, rfl, nofun⟩
  have howner : store.logOwner store.id = store.id := by
    unfold logOwner
    split
    · split <;> rfl
    · rfl
  rw [h.place, hhouses.occupied]
  dsimp only
  unfold beginUnder
  rw [howner, h.place]
  obtain ⟨begun, w, now, hready, hnow, hsame, hrefused⟩ := hhouses.ready
  rw [hready]
  have hdatabase : ∀ begun : Bool, ({ store with volume := w, atWork := begun } : FileStore).inner
      = store.inner := by
    intro begun
    unfold FileStore.inner
    rw [database_eq { store with volume := w, atWork := begun } hnow.file, hsame,
      ← database_eq store hhouses.file]
  cases begun with
  | false =>
    exact ⟨⟨h.within, rfl, now, hnow⟩, hdatabase store.atWork, fun _ => by
      rw [database_eq store hhouses.file, hrefused rfl]⟩
  | true =>
    dsimp only
    rw [if_pos rfl]
    exact ⟨⟨h.within, rfl, now, hnow⟩, hdatabase true, nofun⟩

/-- What work finds is what is there. -/
theorem found (h : store.Seated cachedir dir) :
    store.found.2.Seated cachedir dir ∧ store.found.2.inner = store.inner ∧
      store.found.1 = store.database := by
  obtain ⟨hseated, hinner, hrefused⟩ := h.ready
  unfold FileStore.found
  cases hdatabase : store.database with
  | unreadable => exact ⟨h, rfl, rfl⟩
  | blank => exact ⟨h, rfl, rfl⟩
  | tables t =>
    dsimp only
    split
    · next after hready =>
      rw [hready, hdatabase] at hrefused
      cases hrefused rfl
    · next after hready =>
      rw [hready] at hseated hinner
      exact ⟨hseated, hinner, (congrArg DatabaseStore.database hinner).trans hdatabase⟩

/-- What is written is in the file. -/
theorem withInner (h : store.Seated cachedir dir) (hturns : store.inner.Turns inner) :
    (store.withInner inner).Seated cachedir dir ∧ (store.withInner inner).inner = inner := by
  obtain ⟨file, hhouses⟩ := h.houses
  obtain ⟨database, magic, queued⟩ := inner
  obtain ⟨rfl, hdatabase⟩ := hturns
  have hother (hne : ∀ t, database ≠ .tables t) :
      (store.withInner ⟨database, store.inner.magic, queued⟩).inner
        = ⟨database, store.inner.magic, queued⟩ := by
    have hsame : database = store.database := hdatabase.resolve_left fun ⟨t, ht⟩ => hne t ht
    rw [inner_withInner_of_ne hne, hsame]
    rfl
  cases database with
  | tables t =>
    exact ⟨⟨h.within, h.place, _, hhouses.setFile _⟩, inner_withInner hhouses.file rfl⟩
  | unreadable => exact ⟨⟨h.within, h.place, file, hhouses⟩, hother nofun⟩
  | blank => exact ⟨⟨h.within, h.place, file, hhouses⟩, hother nofun⟩

theorem load (h : store.Seated cachedir dir) :
    store.load.1 = store.inner.load.1 ∧ store.load.2.Seated cachedir dir ∧
      store.load.2.inner = store.inner.load.2 := by
  obtain ⟨hseated, hinner, hrefused⟩ := h.ready
  unfold FileStore.load
  cases hready : store.ready with
  | mk begun after =>
    rw [hready] at hseated hinner hrefused
    cases begun with
    | false =>
      have hnone : store.inner.initialised = none := by
        unfold DatabaseStore.initialised
        rw [show store.inner.database = .unreadable from hrefused rfl]
      have hload : store.inner.load
          = (.error (.cacheCorrupt .engine), { store.inner with queued := [] }) := by
        unfold DatabaseStore.load
        rw [hnone]
      rw [hload]
      refine ⟨rfl, ⟨hseated.within, hseated.place, hseated.houses⟩, ?_⟩
      exact congrArg (fun inner : DatabaseStore => { inner with queued := [] }) hinner
    | true =>
      dsimp only at hseated hinner ⊢
      rw [← hinner]
      exact ⟨rfl, hseated.withInner after.inner.turns_load⟩

theorem write (h : store.Seated cachedir dir) {change : Edit}
    (hturns : store.inner.Turns (DatabaseStore.edit change store.inner).2)
    (hedit : edit change store = ((DatabaseStore.edit change
        { store.found.2.inner with database := store.found.1 }).1,
      store.found.2.withInner (DatabaseStore.edit change
        { store.found.2.inner with database := store.found.1 }).2)) :
    (edit change store).1 = (DatabaseStore.edit change store.inner).1 ∧
      (edit change store).2.Seated cachedir dir ∧
      (edit change store).2.inner = (DatabaseStore.edit change store.inner).2 := by
  obtain ⟨hseated, hinner, hdatabase⟩ := h.found
  have hsame : ({ store.found.2.inner with database := store.found.1 } : DatabaseStore)
      = store.inner := by
    rw [hinner, hdatabase]
    rfl
  rw [hedit, hsame]
  exact ⟨rfl, hseated.withInner (hinner ▸ hturns)⟩

/-- Work on an empty file begins with tables in which there is nothing. -/
theorem begins (h : store.Seated cachedir dir) (hblank : store.database = .blank) :
    ∃ after, store.ready = (true, after) ∧
      after.inner.initialised = some (TableWriting.stamp store.magic Tables.empty) ∧
      ∀ t, (after.writeTables t).Seated cachedir dir ∧
        (after.writeTables t).inner = ⟨.tables t, store.magic, store.queued⟩ := by
  obtain ⟨hseated, hinner, hrefused⟩ := h.ready
  cases hready : store.ready with
  | mk begun after =>
    rw [hready] at hseated hinner hrefused
    cases begun with
    | false =>
      rw [hblank] at hrefused
      cases hrefused rfl
    | true =>
      refine ⟨after, rfl, ?_, fun t => ?_⟩
      · rw [hinner]
        unfold DatabaseStore.initialised
        rw [show store.inner.database = .blank from hblank]
        rfl
      · obtain ⟨now, hnow⟩ := hseated.houses
        refine ⟨⟨hseated.within, hseated.place, _, hnow.setFile _⟩, ?_⟩
        have hmagic : after.magic = store.magic := congrArg DatabaseStore.magic hinner
        have hqueued : after.queued = store.queued := congrArg DatabaseStore.queued hinner
        have hwritten : (after.withInner ⟨.tables t, after.magic, after.queued⟩).inner
            = ⟨.tables t, after.magic, after.queued⟩ := inner_withInner hnow.file rfl
        rw [← hmagic, ← hqueued]
        exact hwritten

/-- The database begins again in a new file. -/
theorem reset (h : store.Seated cachedir dir) (hpath : CachePath cachedir) :
    store.reset.1 = .ok () ∧ store.reset.2.Seated cachedir dir ∧
      store.reset.2.inner = (DatabaseStore.edit .reset store.inner).2 := by
  obtain ⟨file, hhouses⟩ := h.houses
  obtain ⟨v, hdeleted, hseat, hfree⟩ := hhouses.seat.deleteAll hpath
  obtain ⟨id, made, w, hat, hnew, ⟨hoccupant, _⟩ | ⟨_, hempty, _⟩⟩ := hseat.houses_fileAt
  · rw [hfree] at hoccupant
    cases hoccupant
  have hopened : v.openDatabase (databasePath cachedir) = some (databasePlace dir, id, w) := by
    rw [hseat.openDatabase hpath, hat]
  let begun : FileStore := ⟨w, cachedir, databasePlace dir, id, store.magic, [], false⟩
  have hblank : begun.database = .blank := by
    rw [database_eq begun hnew.file, hempty]
    rfl
  have hbegun : begun.Seated cachedir dir := ⟨rfl, rfl, made, hnew⟩
  obtain ⟨after, hready, hinit, hwritten⟩ := hbegun.begins hblank
  have hreset : store.reset
      = (.ok (), after.writeTables (TableWriting.stamp store.magic Tables.empty)) := by
    unfold FileStore.reset
    dsimp only
    rw [h.within, hdeleted]
    dsimp only
    rw [hopened]
    dsimp only
    rw [hready]
    dsimp only
    rw [hinit]
  rw [hreset]
  obtain ⟨hseated, hinner⟩ := hwritten (TableWriting.stamp store.magic Tables.empty)
  exact ⟨rfl, hseated, hinner⟩

theorem edit (h : store.Seated cachedir dir) (hpath : CachePath cachedir) (change : Edit) :
    (FileStore.edit change store).1 = (DatabaseStore.edit change store.inner).1 ∧
      (FileStore.edit change store).2.Seated cachedir dir ∧
      (FileStore.edit change store).2.inner = (DatabaseStore.edit change store.inner).2 := by
  cases change with
  | append entry => exact ⟨rfl, ⟨h.within, h.place, h.houses⟩, rfl⟩
  | truncate height => exact h.write (store.inner.turns_commit _) rfl
  | flush state => exact h.write (store.inner.turns_commit _) rfl
  | reset => exact h.reset hpath

end Seated

/-- **A store in a file is used as the database in it.** -/
theorem simulates (hpath : CachePath cachedir) (dir : NodeNumber) :
    Simulates fun (store : FileStore) (inner : DatabaseStore) =>
      store.Seated cachedir dir ∧ store.inner = inner where
  load := by
    rintro store _ ⟨h, rfl⟩
    exact h.load
  edit := by
    rintro change store _ ⟨h, rfl⟩
    exact h.edit hpath change

end FileStore

end BlockIndex
