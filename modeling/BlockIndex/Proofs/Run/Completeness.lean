import BlockIndex.Proofs.Run.Rerun

/-!
# What runs hold is complete

A run reads of a record that it keeps from the cache no more than its first 88 bytes, and often not
even those.  That the rest of it is there still is known from the run that found the record, and from
the lengths of files that were kept since.

* `Snapshot.Traced`   each record of a snapshot lay in a directory of the past, and ends before the end
                      of its file as far as that is known;
* `Follows.traced`    a run keeps this, whatever became of the files;
* `Follows.lies_held` what a run holds lies in its directory.
-/

namespace BlockIndex

/-- What is kept was found by a run of the past, and ends where the file of the fingerprint does or
before. -/
structure Snapshot.Traced (past : List Stage) (magic : UInt32) (s : Snapshot) : Prop where
  origin : ∀ r ∈ s.copies, ∃ old ∈ past, old.directory.Lies magic r
  ends : ∀ r ∈ s.copies, ∃ fp, s.files.get? r.fileId = some fp ∧ r.endOffset ≤ fp.len

theorem Snapshot.Traced.empty (past : List Stage) (magic : UInt32) :
    Snapshot.empty.Traced past magic where
  origin := by simp [Snapshot.copies, Snapshot.empty]
  ends := by simp [Snapshot.copies, Snapshot.empty]

theorem Snapshot.Traced.later {past : List Stage} {magic : UInt32} {s : Snapshot}
    (h : s.Traced past magic) (stage : Stage) : s.Traced (stage :: past) magic where
  origin := by
    intro r hr
    obtain ⟨old, hold, hlies⟩ := h.origin r hr
    exact ⟨old, List.mem_cons_of_mem stage hold, hlies⟩
  ends := h.ends

variable {config : Config} {d : Directory} {s : Snapshot} {c : Course} {past : List Stage}

namespace Follows

theorem ends_stored (h : Follows config d s c) (hs : s.Traced past config.network.magic) {r : Record}
    (hr : r ∈ (c.stored d).copies) {file : BlockFile} (hfile : d.files.get? r.fileId = some file) :
    r.endOffset ≤ file.len := by
  rcases h.held_cases (h.mem_records_of_stored hr) with hfed | ⟨hkept, hpassed⟩
  · have hend := (h.lies_fed hfed).fits.2.2
    rwa [(Directory.length_bytes hfile).1] at hend
  · -- a file of which something is kept has not become shorter
    obtain ⟨fp, hfp, hend⟩ := hs.ends r hkept
    obtain ⟨found, hfound, hlong⟩ :=
      Snapshot.condition_ne_gone_iff.1 fun hgone => hpassed (Or.inl hgone)
    rw [hfile] at hfound
    obtain rfl := Option.some.inj hfound
    exact Nat.le_trans hend (hlong fp hfp)

theorem traced (h : Follows config d s c) (hs : s.Traced past config.network.magic) :
    (c.stored d).Traced (⟨config, d⟩ :: past) config.network.magic where
  origin := by
    intro r hr
    rcases h.held_cases (h.mem_records_of_stored hr) with hfed | ⟨hkept, _⟩
    · exact ⟨⟨config, d⟩, List.mem_cons_self, h.lies_fed hfed⟩
    · obtain ⟨old, hold, hlies⟩ := hs.origin r hkept
      exact ⟨old, List.mem_cons_of_mem _ hold, hlies⟩
  ends := by
    intro r hr
    obtain ⟨file, hfile, _⟩ := Snapshot.condition_ne_gone_iff.1 (h.present hr)
    have hfp := h.get?_stored hfile
    cases hn : c.outcome.scanned.get? r.fileId with
    | some n =>
      rw [hn] at hfp
      exact ⟨_, hfp, h.ends_stored hs hr hfile⟩
    | none =>
      rw [hn] at hfp
      rw [hfp]
      exact hs.ends r (h.kept_of_unscanned hr hn).1

theorem mem_stored (h : Follows config d s c) {r : Record} (hr : r ∈ c.assembler.records) :
    r ∈ (c.stored d).copies :=
  (h.listed_entries.mem_records_iff (Snapshot.linking_swept c.used c.fed)).1 hr

/-- **What a run holds** lies in its directory, if files that keep their length and time keep their
bytes and no two different headers share a hash. -/
theorem lies_held (h : Follows config d s c) (hvouched : s.Vouched past config.network.magic)
    (hs : s.Traced past config.network.magic) (htrusts : ∀ old ∈ past, old.directory.Trusts d)
    (hdiscerns : ∀ old ∈ past, Directory.Discerns config.network.magic old.directory d)
    {r : Record} (hr : r ∈ c.assembler.records) : d.Lies config.network.magic r := by
  have hstored := h.mem_stored hr
  rcases h.held_cases hr with hfed | ⟨hkept, _⟩
  · exact h.lies_fed hfed
  · obtain ⟨old, hold, hlies⟩ := hs.origin r hkept
    obtain ⟨file, hfile, _⟩ := Snapshot.condition_ne_gone_iff.1 (h.present hstored)
    have hend := h.ends_stored hs hstored hfile
    rw [← (Directory.length_bytes hfile).1] at hend
    exact hlies.stays (hdiscerns old hold) (h.stands hvouched htrusts hstored) ⟨file, hfile⟩ hend

end Follows

theorem databaseAfter_traced (history : List Stage) : (databaseAfter history).Left
    fun magic s => s.Vouched history magic ∧ s.Traced history magic := by
  refine databaseAfter_left
    (P := fun past magic s => s.Vouched past magic ∧ s.Traced past magic) ?_ ?_ ?_ history
  · intro past magic
    exact ⟨Snapshot.Vouched.empty past magic, Snapshot.Traced.empty past magic⟩
  · intro past stage magic s hs
    exact ⟨hs.1.later stage, hs.2.later stage⟩
  · intro past stage s hfits hs
    obtain ⟨hvouched, htraced⟩ := hs
    obtain ⟨c, hfollows⟩ := hvouched.lasting.follows stage.config stage.directory
    exact ⟨c, hfollows, hfollows.vouched hfits hvouched, hfollows.traced htraced⟩

end BlockIndex
