import BlockIndex.Proofs.Store.Mirroring
import BlockIndex.Proofs.Store.Opening
import BlockIndex.Proofs.Store.Statements
import Mathlib.Data.List.Basic

/-!
# Writes that fail

What a store holds after a flush or a truncation has failed, whichever of its statements it was that
the engine refused.  The tables are those of before, but the queue is empty: it was taken before the
transaction began, and nothing gives it back.  The cache goes on counting the entries that were in
it.

* `DatabaseStore.attempt`, `FileStore.attempt`  a change whose statements the engine may refuse;
* `FallibleStore`                               a store of either kind with what is refused;
* `Edit.ComesTo`                                what a write can come to.

Main statements: `attempt_trusted` (if nothing is refused, the change is that of the store),
`FileStore.attempt_comesTo` (a store in a file does to its tables what one without a file does),
`failed_write_exact`.
-/

namespace BlockIndex

/-! ## Writes -/

namespace Edit

/-- The edit changes tables that are there. -/
inductive IsWrite : Edit → Prop where
  | truncate (height : Nat) : IsWrite (.truncate height)
  | flush (state : ScanState) : IsWrite (.flush state)

/-- The rows of entries that a write leaves. -/
def kept : Edit → List EntryRow → List EntryRow
  | .truncate height, rows => rows.filter fun r => r.height < (height : Int)
  | _, rows => rows

/-- What a write of a store can come to: an answer, and the store after it. -/
inductive ComesTo (change : Edit) (before : DatabaseStore) :
    Except Error Unit → DatabaseStore → Prop where
  /-- It fails, and what was queued is gone. -/
  | failed (e : Error) : ComesTo change before (.error e) { before with queued := [] }
  /-- The tables have the rows that it leaves of theirs and of what was queued. -/
  | written {t u : Tables} (held : before.database = .tables t)
      (entries : u.entries = change.kept (TableWriting.queued before.queued t).entries) :
      ComesTo change before (.ok ()) { before with database := .tables u, queued := [] }

variable {change : Edit} {before after : DatabaseStore} {e : Error}

theorem ComesTo.of_error (h : change.ComesTo before (.error e) after) :
    after = { before with queued := [] } := by
  cases h with
  | failed e => rfl

theorem ComesTo.of_ok (h : change.ComesTo before (.ok ()) after) :
    ∃ t u, before.database = .tables t ∧ after.database = .tables u ∧
      u.entries = change.kept (TableWriting.queued before.queued t).entries := by
  cases h with
  | written held entries => exact ⟨_, _, held, rfl, entries⟩

end Edit

theorem entries_scanState (state : ScanState) (t : Tables) :
    (TableWriting.scanState state t).entries = t.entries := by
  have horphans : ∀ (rows : List OrphanRow) (u : Tables),
      (rows.foldl Tables.addOrphan u).entries = u.entries := by
    intro rows
    induction rows with
    | nil => intro u; rfl
    | cons row rest ih =>
      intro u
      rw [List.foldl_cons, ih, Tables.addOrphan]
      split
      · rfl
      · rfl
  have htip := (Encodes.rows_tip state.tip (TableWriting.cursor state.cursor
    ((state.orphans.map TableWriting.orphanRow).foldl Tables.addOrphan
      { t with files := state.files.toList.map fun p => TableWriting.fileRow p.1 p.2
               orphans := [] }))).1
  exact htip.trans (horphans _ _)

theorem entries_rewindCursor {position : Option (Int × Int)} {t u : Tables}
    (h : TableWriting.rewindCursor position t = .ok u) : u.entries = t.entries := by
  unfold TableWriting.rewindCursor at h
  split at h
  · rw [Except.ok.inj h]
  · split at h
    · rw [← Except.ok.inj h]
      rfl
    · cases h

theorem entries_dropLostTip (t : Tables) : (TableWriting.dropLostTip t).entries = t.entries := by
  unfold TableWriting.dropLostTip
  split
  · rfl
  · split
    · rfl
    · split
      · rfl
      · rfl

theorem entries_truncate {height : Nat} {t u : Tables}
    (h : TableWriting.truncate height t = .ok u) :
    u.entries = t.entries.filter fun r => r.height < (height : Int) := by
  unfold TableWriting.truncate at h
  dsimp only at h
  split at h
  · next rewound hrewound =>
    rw [← Except.ok.inj h, entries_dropLostTip, entries_rewindCursor hrewound]
  · cases h

namespace DatabaseStore

variable {refused : Nat → Bool} {change : Edit} {store : DatabaseStore}

/-- A script for the queued entries as a transaction.  The queue is taken before it begins. -/
def transact (refused : Nat → Bool) (script : List Entry → Script Unit) (store : DatabaseStore) :
    Except Error Unit × DatabaseStore :=
  let taken := { store with queued := [] }
  match Connection.transaction refused (script store.queued) ⟨store.database, none, 0⟩ with
  | (some (), c) => (.ok (), { taken with database := c.database })
  | (none, c) => (.error (.cache .engine), { taken with database := c.database })

/-- Makes a change, whose statements the engine may refuse. -/
def attempt (refused : Nat → Bool) (change : Edit) (store : DatabaseStore) :
    Except Error Unit × DatabaseStore :=
  match change with
  | .truncate height => store.transact refused (.truncate height)
  | .flush state => store.transact refused (.flush state)
  | change => edit change store

/-- A transaction is the commit of what its script does, unless a statement is refused. -/
theorem transact_cases {script : List Entry → Script Unit} {f : Tables → Except Error Tables}
    (hscript : ∀ b, script store.queued ≠ .done b)
    (hf : ∀ t, (script store.queued).outcome t = f (TableWriting.queued store.queued t)) :
    store.transact refused script = store.commit f ∨
      (∃ n, refused n) ∧
        store.transact refused script = (.error (.cache .engine), { store with queued := [] }) := by
  have hcases := Connection.transaction_cases refused hscript ⟨store.database, none, 0⟩
  unfold transact
  generalize Connection.transaction refused (script store.queued) ⟨store.database, none, 0⟩ = result
    at hcases ⊢
  obtain ⟨answer, c⟩ := result
  rcases hcases with ⟨rfl, hkept, hwhy⟩ | ⟨t, b, u, ht, hu, rfl, hlast⟩
  · have hkept : c.database = store.database := hkept
    dsimp only
    rw [hkept]
    rcases hwhy with hrefused | hfails
    · exact .inr ⟨hrefused, rfl⟩
    · refine .inl ?_
      unfold commit
      cases hdatabase : store.database with
      | unreadable => rfl
      | blank => rfl
      | tables t =>
        dsimp only
        rw [← hf, Script.outcome, hfails t hdatabase]
  · have ht : store.database = .tables t := ht
    have hlast : c.database = .tables u := hlast
    refine .inl ?_
    unfold commit
    rw [ht]
    dsimp only
    rw [← hf, Script.outcome, hu, hlast]

/-- A change does what the store does, unless a statement is refused. -/
theorem attempt_eq_edit (refused : Nat → Bool) (change : Edit) (store : DatabaseStore) :
    attempt refused change store = edit change store ∨
      (∃ n, refused n) ∧
        attempt refused change store = (.error (.cache .engine), { store with queued := [] }) := by
  cases change with
  | append entry => exact .inl rfl
  | truncate height =>
    have hscript : ∀ b, Script.truncate height store.queued ≠ .done b := fun b h => by cases h
    exact transact_cases hscript (Script.outcome_truncate height store.queued)
  | flush state =>
    have hscript : ∀ b, Script.flush state store.queued ≠ .done b := fun b h => by cases h
    show _ = store.commit (fun t => .ok (TableWriting.scanState state t)) ∨ _
    exact transact_cases hscript (Script.outcome_flush state store.queued)
  | reset => exact .inl rfl

/-- If nothing is refused, a change is that of the store. -/
theorem attempt_trusted (h : ∀ n, refused n = false) (change : Edit) (store : DatabaseStore) :
    attempt refused change store = edit change store := by
  rcases attempt_eq_edit refused change store with heq | ⟨⟨n, hn⟩, _⟩
  · exact heq
  · rw [h n] at hn
    cases hn

theorem commit_comesTo {f : Tables → Except Error Tables}
    (hf : ∀ t u, f t = .ok u → u.entries = change.kept t.entries) (store : DatabaseStore) :
    change.ComesTo store (store.commit f).1 (store.commit f).2 := by
  obtain ⟨database, magic, queued⟩ := store
  unfold commit
  cases database with
  | unreadable => exact .failed _
  | blank => exact .failed _
  | tables t =>
    dsimp only
    cases hu : f (TableWriting.queued queued t) with
    | error e => exact .failed e
    | ok u => exact .written rfl (hf _ u hu)

theorem attempt_comesTo (refused : Nat → Bool) (hwrite : change.IsWrite) (store : DatabaseStore) :
    change.ComesTo store (attempt refused change store).1 (attempt refused change store).2 := by
  rcases attempt_eq_edit refused change store with heq | ⟨_, heq⟩
  · rw [heq]
    cases hwrite with
    | truncate height =>
      have hkept : ∀ t u, TableWriting.truncate height t = .ok u →
          u.entries = (Edit.truncate height).kept t.entries := fun t u hu => entries_truncate hu
      exact store.commit_comesTo hkept
    | flush state =>
      have hkept : ∀ t u,
          (.ok (TableWriting.scanState state t) : Except Error Tables) = .ok u →
            u.entries = (Edit.flush state).kept t.entries := by
        intro t u hu
        rw [← Except.ok.inj hu]
        exact entries_scanState state t
      exact store.commit_comesTo hkept
  · rw [heq]
    exact .failed _

end DatabaseStore

/-! ## Stores in a file -/

namespace FileStore

variable {refused : Nat → Bool} {change : Edit} {store : FileStore} {t : Tables}

/-- Makes a change, whose statements the engine may refuse. -/
def attempt (refused : Nat → Bool) (change : Edit) (store : FileStore) :
    Except Error Unit × FileStore :=
  match change with
  | .append _ => edit change store
  | .reset => edit change store
  | change =>
    let (database, store) := store.found
    let result := DatabaseStore.attempt refused change { store.inner with database }
    (result.1, store.withInner result.2)

theorem attempt_trusted (h : ∀ n, refused n = false) (change : Edit) (store : FileStore) :
    attempt refused change store = edit change store := by
  unfold attempt edit
  cases change with
  | append entry => rfl
  | truncate height => simp only [DatabaseStore.attempt_trusted h]
  | flush state => simp only [DatabaseStore.attempt_trusted h]
  | reset => rfl

/-- A write does to the tables in the file and to the queue what it does without a file. -/
theorem attempt_comesTo (refused : Nat → Bool) (hwrite : change.IsWrite) (store : FileStore) :
    change.ComesTo store.inner (attempt refused change store).1
      (attempt refused change store).2.inner := by
  obtain ⟨hinner, hdatabase⟩ := found_cases store
  have hattempt : attempt refused change store
      = ((DatabaseStore.attempt refused change
            { store.found.2.inner with database := store.found.1 }).1,
          store.found.2.withInner (DatabaseStore.attempt refused change
            { store.found.2.inner with database := store.found.1 }).2) := by
    cases hwrite with
    | truncate height => rfl
    | flush state => rfl
  rw [hattempt, hinner]
  -- what is found is written back, but only if it is tables, and then they are the store's own
  generalize store.found = found at hinner hdatabase ⊢
  obtain ⟨database, opened⟩ := found
  have hopened : opened.database = store.database := congrArg DatabaseStore.database hinner
  have hmagic : opened.magic = store.magic := congrArg DatabaseStore.magic hinner
  have htables : ∀ {t}, database = .tables t → store.database = .tables t := by
    intro t ht
    rcases hdatabase with heq | heq
    · exact heq.symm.trans ht
    · exact absurd (heq.symm.trans ht) (by simp)
  have hcomes := DatabaseStore.attempt_comesTo refused hwrite { store.inner with database }
  generalize DatabaseStore.attempt refused change { store.inner with database } = result
    at hcomes ⊢
  obtain ⟨answer, after⟩ := result
  dsimp only at hcomes ⊢
  cases hcomes with
  | failed e =>
    have hafter : (opened.withInner ⟨database, store.magic, []⟩).inner
        = { store.inner with queued := [] } := by
      by_cases hany : ∃ t, database = .tables t
      · obtain ⟨t, ht⟩ := hany
        obtain ⟨file, hfile, _⟩ := exists_file (hopened.trans (htables ht))
        rw [inner_withInner hfile ht, hmagic, ← htables ht]
        rfl
      · rw [inner_withInner_of_ne fun t ht => hany ⟨t, ht⟩, hmagic, hopened]
        rfl
    rw [show (opened.withInner { store.inner with database, queued := [] }).inner = _ from hafter]
    exact .failed e
  | @written t u held entries =>
    obtain ⟨file, hfile, _⟩ := exists_file (hopened.trans (htables held))
    rw [inner_withInner hfile rfl, hmagic]
    exact .written (htables held) entries

end FileStore

/-! ## Stores of both kinds -/

/-- A store in a database of its own or in a file, and the statements that the engine refuses in
each of its transactions. -/
structure FallibleStore where
  kept : DatabaseStore ⊕ FileStore
  refused : Nat → Bool

namespace FallibleStore

/-- The store without the file around it. -/
def held (store : FallibleStore) : DatabaseStore :=
  match store.kept with
  | .inl store => store
  | .inr store => store.inner

/-- The snapshot in the tables. -/
def load (store : FallibleStore) : Except Error Snapshot × FallibleStore :=
  match store.kept with
  | .inl kept => (kept.load.1, { store with kept := .inl kept.load.2 })
  | .inr kept => (kept.load.1, { store with kept := .inr kept.load.2 })

/-- Makes a change. -/
def edit (change : Edit) (store : FallibleStore) : Except Error Unit × FallibleStore :=
  match store.kept with
  | .inl kept =>
    let result := kept.attempt store.refused change
    (result.1, { store with kept := .inl result.2 })
  | .inr kept =>
    let result := kept.attempt store.refused change
    (result.1, { store with kept := .inr result.2 })

instance : IndexStore FallibleStore where
  load := load
  edit := edit

variable {change : Edit}

theorem edit_trusted {store : FallibleStore} (h : ∀ n, store.refused n = false) (change : Edit) :
    edit change store =
      match store.kept with
      | .inl kept => ((IndexStore.edit change kept).1,
          { store with kept := .inl (IndexStore.edit change kept).2 })
      | .inr kept => ((IndexStore.edit change kept).1,
          { store with kept := .inr (IndexStore.edit change kept).2 }) := by
  unfold edit
  split
  · rw [DatabaseStore.attempt_trusted h]
    rfl
  · rw [FileStore.attempt_trusted h]
    rfl

theorem edit_comesTo (hwrite : change.IsWrite) (store : FallibleStore) :
    change.ComesTo store.held (edit change store).1 (edit change store).2.held := by
  obtain ⟨kept, refused⟩ := store
  cases kept with
  | inl kept => exact kept.attempt_comesTo refused hwrite
  | inr kept => exact kept.attempt_comesTo refused hwrite

end FallibleStore

theorem IndexCache.pending_edit {σ : Type} [IndexStore σ] {change : Edit} {cache : IndexCache σ}
    {e : Error} (hwrite : change.IsWrite) (h : (IndexCache.edit change cache).1 = .error e) :
    (IndexCache.edit change cache).2.pending = cache.pending := by
  cases hwrite with
  | truncate height => rfl
  | flush state =>
    unfold IndexCache.edit at h ⊢
    dsimp only at h ⊢
    split at h
    · cases h
    · rfl

/-- **A failed write.**  When a flush or a truncation fails, at whichever statement, the tables are
those of before and the queue is empty: just what was queued is lost, while the cache counts it as
before.  The same call made again writes what is queued then.  On what the failed one has left it
adds no entry, whatever has become of the database. -/
theorem failed_write_exact (cache : IndexCache FallibleStore) (change : Edit)
    (hwrite : change.IsWrite) (e : Error) (hfail : (IndexCache.edit change cache).1 = .error e) :
    let failed := (IndexCache.edit change cache).2
    failed.store.held = { cache.store.held with queued := [] } ∧
      (failed.store.held = cache.store.held ↔ cache.store.held.queued = []) ∧
      failed.pending = cache.pending ∧
      ∀ later : FallibleStore, (IndexStore.edit change later).1 = .ok () →
        ∃ t u, later.held.database = .tables t ∧
          (IndexStore.edit change later).2.held.database = .tables u ∧
          u.entries = change.kept (TableWriting.queued later.held.queued t).entries ∧
          (later.held.queued = failed.store.held.queued → u.entries = change.kept t.entries) := by
  intro failed
  have hstore : failed.store = (FallibleStore.edit change cache.store).2 :=
    IndexCache.store_edit change cache
  have hresult : (FallibleStore.edit change cache.store).1 = .error e :=
    (IndexCache.edit_fst change cache).symm.trans hfail
  have hcomes := cache.store.edit_comesTo hwrite
  rw [hresult, ← hstore] at hcomes
  refine ⟨hcomes.of_error, ?_, IndexCache.pending_edit hwrite hfail, ?_⟩
  · rw [hcomes.of_error]
    constructor
    · intro h
      exact (congrArg DatabaseStore.queued h).symm
    · intro h
      rw [← h]
  · intro later hlater
    have hagain := later.edit_comesTo hwrite
    rw [show (FallibleStore.edit change later).1 = .ok () from hlater] at hagain
    obtain ⟨t, u, ht, hu, hentries⟩ := hagain.of_ok
    refine ⟨t, u, ht, hu, hentries, ?_⟩
    intro hqueued
    rw [hentries, hqueued, hcomes.of_error]
    rfl

/-- An entry is queued, and the tables have a row whose file cannot be read. -/
def trialCache (refused : Nat → Bool) : IndexCache FallibleStore where
  store := ⟨.inl ⟨.tables { Tables.empty with entries := [⟨[0xab], 7, -1, 0, 81, []⟩] },
    Network.regtest.magic, [default]⟩, refused⟩
  pending := 1
  reused := false

/-- A truncation below that row fails.  When the row is gone it succeeds, without the entry. -/
theorem failed_write_trial :
    let cache := trialCache fun _ => false
    let failed := (IndexCache.edit (.truncate 5) cache).2
    let later : FallibleStore := ⟨.inl ⟨.tables Tables.empty, Network.regtest.magic,
      failed.store.held.queued⟩, fun _ => false⟩
    (Edit.truncate 5).IsWrite ∧
      (IndexCache.edit (.truncate 5) cache).1 = .error (.cache .engine) ∧
      failed.store.held = { cache.store.held with queued := [] } ∧
      failed.store.held ≠ cache.store.held ∧ failed.pending = 1 ∧
      (IndexStore.edit (.truncate 5) later).1 = .ok () ∧
      ∃ u, (IndexStore.edit (.truncate 5) later).2.held.database = .tables u ∧ u.entries = [] := by
  intro cache failed later
  have hfail : (IndexCache.edit (.truncate 5) cache).1 = .error (.cache .engine) := by decide
  have hlater : (IndexStore.edit (.truncate 5) later).1 = .ok () := by
    -- the engine refuses nothing, so this is the truncation of a store
    rw [show IndexStore.edit (.truncate 5) later = FallibleStore.edit (.truncate 5) later from rfl,
      FallibleStore.edit_trusted fun _ => rfl]
    decide
  obtain ⟨hheld, hiff, hpending, hagain⟩ :=
    failed_write_exact cache (.truncate 5) (.truncate 5) _ hfail
  obtain ⟨t, u, ht, hu, _, hentries⟩ := hagain later hlater
  refine ⟨.truncate 5, hfail, hheld, fun h => ?_, hpending, hlater, u, hu, ?_⟩
  · exact absurd (hiff.1 h) (List.cons_ne_nil _ _)
  · rw [hentries rfl, ← Database.tables.inj ht]
    rfl

/-- The twelfth statement commits a flush of one entry. -/
example : (IndexCache.edit (.flush .initial) (trialCache (· = 11))).1 = .error (.cache .engine) ∧
    (IndexCache.edit (.flush .initial) (trialCache (· = 12))).1 = .ok () := by decide

end BlockIndex
