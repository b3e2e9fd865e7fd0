import BlockIndex.Proofs.Chain.Restart
import BlockIndex.Proofs.Run.Histories

/-!
# What a run persists

What a run stores are its linked records, each once and after its parent's, and the records that
wait.  The next run can start from it.

* `Snapshot.Persists`  a snapshot holds just what an assembler knows and brings its best chain back;
* `Follows.persists`   what a run stores holds what its assembler knows;
* `persisted_exact`    so it does whatever runs came before.

Runs may stop early, be for another network than those before, find other files in their directory,
and replace stored branches by others: nothing is asked of a history.
-/

namespace BlockIndex

/-- A snapshot holds just what an assembler knows, and brings its best chain back. -/
structure Snapshot.Persists (s : Snapshot) (a : Assembler) : Prop where
  /-- There is one entry for each linked record. -/
  entries : s.entries.Perm a.linkedEntries
  /-- It stands after the entry of the block's parent, if the block has one. -/
  ordered : ∀ before e after, s.entries = before ++ e :: after → e.header.isGenesis = false →
    ∃ p ∈ before, p.hash = e.header.prevHash
  /-- The orphans are the records that are not linked. -/
  orphans : s.orphans.Perm (a.records.filter fun r => a.heightOf? r.hash = none)
  sorted : s.orphans.Pairwise fun r t => r.position ≤ t.position
  /-- Seeding with the entries and the tip succeeds and gives the best chain. -/
  seeds : ∃ b, Assembler.empty.seed s.entries s.tip = (.ok (), b) ∧ b.best = a.best

/-- What a run can start from: its entries can be replayed, and its positions be read at. -/
structure Snapshot.Lasting (s : Snapshot) : Prop where
  sound : s.Sound
  readable : s.Readable

theorem Snapshot.Lasting.empty : Snapshot.empty.Lasting where
  sound :=
    { forest := Forest.nil
      genuine := by simp [Snapshot.empty] }
  readable := by simp [Snapshot.Readable, Snapshot.empty]

variable {config : Config} {d : Directory} {s : Snapshot} {c : Course}

theorem Snapshot.Lasting.follows (h : s.Lasting) (config : Config) (d : Directory) :
    ∃ c, Follows config d s c :=
  BlockIndex.follows h.readable fun _ _ hu => hu.sound h.sound

namespace Follows

theorem rests (_ : Follows config d s c) : Assembler.Rests c.assembler :=
  ((Assembler.Rests.seeded c.used.entries c.used.tip).insertAll
    (Assembler.Linking.seeded _ _) c.used.orphans).insertAll
      ((Assembler.Linking.seeded _ _).insertAll c.used.orphans) c.fed

/-- Whatever a run holds after its scan can be read at its position. -/
theorem room (h : Follows config d s c) (hs : s.Readable) {r : Record}
    (hr : r ∈ c.assembler.records) : r.offset + 88 < 0x8000_0000_0000_0000 := by
  rcases h.held_cases hr with hfed | ⟨hkept, _⟩
  · have hroom := (h.lies_fed hfed).room
    omega
  · exact Snapshot.readable_iff.1 hs r hkept

/-- What a run stores can be started from again. -/
theorem lasting (h : Follows config d s c) (hfits : s.Fits) (hs : s.Lasting) :
    (c.stored d).Lasting where
  sound :=
    { forest := h.listed_entries.forest
      genuine := fun _ he => (h.fits_record hfits (h.listed_entries.mem_records he)).2 }
  readable := Snapshot.readable_iff.2 fun _ hr =>
    h.room hs.readable (h.mem_records_of_stored hr)

/-- **What a run stores** is what its assembler knows. -/
theorem persists (h : Follows config d s c) (hfits : s.Fits) (hs : s.Lasting) :
    (c.stored d).Persists c.assembler where
  entries := h.listed_entries.perm (Snapshot.linking_swept c.used c.fed).distinct
  ordered := by
    intro before e after heq hchild
    rcases h.listed_entries.forest.splits heq with ⟨hfirst, _⟩ | ⟨_, p, hp, hhash, _⟩
    · rw [hchild] at hfirst
      simp at hfirst
    · exact ⟨p, hp, hhash⟩
  orphans := Assembler.unresolved_perm (Snapshot.linking_swept c.used c.fed)
  sorted := Assembler.unresolved_sorted _
  seeds := by
    have hsound := (h.lasting hfits hs).sound
    exact ⟨_, Assembler.seed_forest hsound.forest hsound.genuine _,
      h.rests.best_seeded (Snapshot.linking_swept c.used c.fed) h.listed_entries hsound.genuine⟩

end Follows

theorem databaseAfter_lasting (history : List Stage) :
    (databaseAfter history).Left fun _ s => s.Lasting :=
  databaseAfter_left (fun _ _ => Snapshot.Lasting.empty) (fun _ _ _ _ hs => hs)
    (fun _ _ _ hfits hs => by
      obtain ⟨c, hfollows⟩ := hs.follows _ _
      exact ⟨c, hfollows, hfollows.lasting hfits hs⟩) history

/-- A snapshot that persists what an assembler knows does so for one with the same blocks linked at
the same heights and the same best chain. -/
theorem Snapshot.Persists.congr {a b : Assembler} (h : s.Persists a) (hnodes : b.nodes = a.nodes)
    (hbest : b.best = a.best) : s.Persists b where
  entries := by
    have hsame : b.linkedEntries = a.linkedEntries := by
      unfold Assembler.linkedEntries
      rw [hnodes]
    rw [hsame]
    exact h.entries
  ordered := h.ordered
  orphans := by
    have hheight : b.heightOf? = a.heightOf? := Assembler.heightOf?_congr hnodes
    have hrecords : b.records = a.records := by
      unfold Assembler.records
      rw [hnodes]
    rw [hrecords, hheight]
    exact h.orphans
  sorted := h.sorted
  seeds := by
    rw [hbest]
    exact h.seeds

/-- **What a run persists** is exact, whatever runs came before and whatever it finds: one entry for
each linked record of its assembler, none before its parent's, and the other records by position.
Seeding with it gives the best chain again, which is that of the walk if there is one.  The next
loading reads all of it, unless it is in a database and a height takes more than 32 bits. -/
theorem persisted_exact (before : List Stage) (stage : Stage) :
    let database := databaseAfter before
    let after := (stage.run database).2
    ∃ s, s.Persists ((stage.store database).assembled stage.config stage.directory) ∧
      (∀ w, stage.prepared database = .ok w → s.Persists w.assembler) ∧ after.Holds s ∧
      after.load.1 = (if s.IsLow then .ok s else .error (.cacheCorrupt .engine)) ∧
      stage.reloaded database = if stage.config.cachedir = none ∨ s.IsLow then .ok s
        else .error (.cacheCorrupt .engine) := by
  dsimp only
  obtain ⟨hopens, hloaded⟩ := (databaseAfter_lasting before).opens stage Snapshot.Lasting.empty
  obtain ⟨c, hfollows⟩ := hloaded.follows stage.config stage.directory
  obtain ⟨_, hholds, _⟩ := Stage.run_spec hopens hfollows
  have hpersists := hfollows.persists hopens.loaded_fits hloaded
  refine ⟨c.stored stage.directory, ?_, ?_, hholds, hholds.open.1, ?_⟩
  · rw [hfollows.assembled_eq]
    exact hpersists
  · intro w hw
    rw [Stage.prepared_eq hopens hfollows, hfollows.walk] at hw
    rw [(walkOver_ok hw).1]
    exact hpersists.congr rfl rfl
  · exact Stage.reloaded_eq hopens hfollows

end BlockIndex
