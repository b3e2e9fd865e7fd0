import BlockIndex.Proofs.Run.Planning

/-!
# Snapshots of which nothing is forgotten

The check of a snapshot forgets nothing of it, and leaves its cursor where it is, if all that it
keeps stands in a directory whose files are read up to the cursor.

* `Snapshot.Current`        a snapshot that says of a directory what a check of it would find;
* `Snapshot.Current.resume` a run takes all of it up again.
-/

namespace BlockIndex

/-- A snapshot that needs no check against a directory. -/
structure Snapshot.Current (s : Snapshot) (d : Directory) (magic : UInt32) : Prop where
  /-- All that it keeps stands in files that are not gone. -/
  stands : ∀ r ∈ s.copies, s.condition d.files r.fileId ≠ .gone ∧ d.Stands magic r
  below : ∀ o ∈ s.orphans, o.position < s.cursor
  /-- No file has to be read again before the cursor. -/
  rescan : ∀ file ∈ d.files.values, ∀ offset, s.rescanFrom? file = some offset →
    s.cursor ≤ ⟨file.id, offset⟩
  inside : ∀ file, d.files.get? s.cursor.fileId = some file → s.cursor.offset ≤ file.len

namespace Snapshot

variable {d : Directory} {magic : UInt32} {s : Snapshot} {reader : Reader}

theorem dropOrphans_none {drop : Record → Bool} (h : ∀ o ∈ s.orphans, drop o = false) :
    s.dropOrphans drop = s := by
  have hdropped : s.orphans.filter drop = [] := by
    rw [List.filter_eq_nil_iff]
    intro o ho
    rw [h o ho]
    simp
  have hkept : (s.orphans.filter fun o => !drop o) = s.orphans := by
    rw [List.filter_eq_self]
    intro o ho
    rw [h o ho]
    rfl
  rw [dropOrphans, hdropped, hkept]
  rfl

namespace Current

theorem room (h : s.Current d magic) {r : Record} (hr : r ∈ s.copies) :
    (∃ file, d.files.get? r.fileId = some file) ∧ r.offset + 88 < 0x8000_0000_0000_0000 := by
  obtain ⟨hcondition, hend, _⟩ := h.stands r hr
  obtain ⟨file, hfile⟩ := exists_file_of_condition hcondition
  obtain ⟨hlen, hlimit⟩ := Directory.length_bytes hfile
  exact ⟨⟨file, hfile⟩, by omega⟩

theorem mem_copies_of_entriesIn {fileId : Nat} {e : Entry} (he : e ∈ s.entriesIn fileId) :
    e.toRecord ∈ s.copies :=
  mem_copies.2 (Or.inl ⟨e, (mem_entriesIn.1 he).1, rfl⟩)

theorem dropFile (h : s.Current d magic) {fileId : Nat}
    (hgone : s.condition d.files fileId = .gone) : s.dropFile fileId = (none, s) := by
  have hnone : ∀ r ∈ s.copies, r.fileId ≠ fileId := by
    intro r hr hid
    exact (h.stands r hr).1 (hid ▸ hgone)
  have hno : s.entriesIn fileId = [] := by
    rw [List.eq_nil_iff_forall_not_mem]
    intro e he
    exact hnone _ (mem_copies_of_entriesIn he) (mem_entriesIn.1 he).2
  unfold Snapshot.dropFile
  rw [hno, dropOrphans_none fun o ho => decide_eq_false (hnone o (mem_copies.2 (Or.inr ho)))]
  rfl

/-- The first and the last entry of a file that looks as it did are read again. -/
theorem spotCheck (h : s.Current d magic) (hover : reader.Over d magic) (fileId : Nat) :
    ∃ next, s.spotCheck reader d.volume fileId = (.ok none, next) ∧ next.Over d magic := by
  have hends : ∀ r ∈ ((Entry.earliest? (s.entriesIn fileId)).toList
      ++ (Entry.latest? (s.entriesIn fileId)).toList).map Entry.toRecord, r ∈ s.copies := by
    intro r hr
    obtain ⟨e, he, rfl⟩ := List.mem_map.1 hr
    rcases List.mem_append.1 he with he | he
    · exact mem_copies_of_entriesIn (Entry.earliest?_mem (Option.mem_toList.1 he))
    · exact mem_copies_of_entriesIn (Entry.latest?_mem (Option.mem_toList.1 he))
  obtain ⟨b, next, hread, hnext, hb⟩ := hover.allOnDisk _ fun r hr => h.room (hends r hr)
  have htrue : b = true := hb.2 fun r hr => (h.stands r (hends r hr)).2
  refine ⟨next, ?_, hnext⟩
  unfold Snapshot.spotCheck
  dsimp only
  rw [hread, htrue]

theorem fullCheck (h : s.Current d magic) (hover : reader.Over d magic) (fileId : Nat) :
    ∃ next, s.fullCheck reader d.volume fileId = (.ok (none, s), next) ∧ next.Over d magic := by
  obtain ⟨stale, next, hread, hnext, hstale⟩ := hover.moved Entry.toRecord
    (s.entriesIn fileId) fun e he => h.room (mem_copies_of_entriesIn he)
  have horphans : ∀ o ∈ s.orphans.filter fun o => o.fileId = fileId, o ∈ s.copies := fun o ho =>
    mem_copies.2 (Or.inr (List.mem_filter.1 ho).1)
  obtain ⟨lost, last, hread', hlast, hlost⟩ := hnext.moved (id : Record → Record)
    (s.orphans.filter fun o => o.fileId = fileId) fun o ho => h.room (horphans o ho)
  have hstale' : stale = [] := by
    rw [List.eq_nil_iff_forall_not_mem]
    intro e he
    obtain ⟨hin, hmoved⟩ := (hstale e).1 he
    exact hmoved (h.stands _ (mem_copies_of_entriesIn hin)).2
  have hlost' : lost = [] := by
    rw [List.eq_nil_iff_forall_not_mem]
    intro o ho
    obtain ⟨hin, hmoved⟩ := (hlost o).1 ho
    exact hmoved (h.stands o (horphans o hin)).2
  have hdrop : (s.dropOrphans fun o => ([] : List Record).any fun l => l.hash = o.hash) = s :=
    dropOrphans_none fun _ _ => rfl
  refine ⟨last, ?_, hlast⟩
  unfold Snapshot.fullCheck
  dsimp only
  rw [hread]
  dsimp only
  rw [hread', hstale', hlost']
  dsimp only
  rw [hdrop]
  rfl

theorem checkFile (h : s.Current d magic) (hover : reader.Over d magic) (fileId : Nat) :
    ∃ next, s.checkFile reader d.volume d.files fileId = (.ok (none, s), next) ∧
      next.Over d magic := by
  unfold Snapshot.checkFile
  cases hcondition : s.condition d.files fileId with
  | gone =>
    refine ⟨reader, ?_, hover⟩
    dsimp only
    rw [h.dropFile hcondition]
  | unchanged =>
    obtain ⟨next, hread, hnext⟩ := h.spotCheck hover fileId
    refine ⟨next, ?_, hnext⟩
    dsimp only
    rw [hread]
  | changed => exact h.fullCheck hover fileId

theorem checkFiles (h : s.Current d magic) (hover : reader.Over d magic) (ids : List Nat) :
    ∃ next, s.checkFiles reader d.volume d.files ids = (.ok (none, s), next) := by
  induction ids generalizing reader with
  | nil => exact ⟨reader, rfl⟩
  | cons id rest ih =>
    obtain ⟨next, hfile, hnext⟩ := h.checkFile hover id
    obtain ⟨last, hrest⟩ := ih hnext
    refine ⟨last, ?_⟩
    unfold Snapshot.checkFiles
    rw [hfile]
    dsimp only
    rw [hrest]
    rfl

theorem usable (h : s.Current d magic) : s.usable d.files none = s := by
  have hback : ∀ b ∈ s.changedBelow d.files ++ s.cutBelow d.files, s.cursor ≤ b := by
    intro b hb
    rcases List.mem_append.1 hb with hb | hb
    · obtain ⟨file, hfile, _, offset, hoffset, rfl⟩ := mem_changedBelow.1 hb
      exact h.rescan file hfile offset hoffset
    · obtain ⟨file, hfile, hlong, _⟩ := mem_cutBelow.1 hb
      exact absurd (h.inside file hfile) (Nat.not_le_of_lt hlong)
  have hcursor : s.cursor.rewindToAll (s.changedBelow d.files ++ s.cutBelow d.files) = s.cursor := by
    rcases Cursor.rewindToAll_mem s.cursor (s.changedBelow d.files ++ s.cutBelow d.files)
      with heq | hin
    · exact heq
    · exact Cursor.le_antisymm (Cursor.rewindToAll_le _ _) (hback _ hin)
  have horphans : (s.orphans.filter fun o => o.position < s.cursor) = s.orphans := by
    rw [List.filter_eq_self]
    intro o ho
    exact decide_eq_true (h.below o ho)
  unfold Snapshot.usable withOrphansBelow rewound
  dsimp only
  rw [hcursor, horphans]

/-- **All of it is taken up again.** -/
theorem resume (h : s.Current d magic) (hs : s.Sound) :
    ∃ edits next, BlockIndex.resume (Reader.ofFiles d.files magic) d.volume d.files s
      = (.ok ⟨s, s.replayed, edits⟩, next) := by
  obtain ⟨next, hcheck⟩ := h.checkFiles (Reader.over_ofFiles d magic) s.mentionedFiles
  obtain ⟨new, hresumed, _⟩ := ofSnapshot_eq hs
  refine ⟨new.map Edit.append, next, ?_⟩
  unfold BlockIndex.resume staleHeight
  rw [hcheck]
  dsimp only
  rw [h.usable, hresumed]
  rfl

end Current

end Snapshot

/-- A run uses all of a snapshot that needs no check. -/
theorem Follows.used_of_current {config : Config} {d : Directory} {s : Snapshot} {c : Course}
    (h : Follows config d s c) (hs : s.Current d config.network.magic) (hsound : s.Sound) :
    c.used = s := by
  obtain ⟨edits, hresumed⟩ := h.resumed
  obtain ⟨edits', next, hresumed'⟩ := hs.resume hsound
  rw [hresumed'] at hresumed
  exact (congrArg Resumed.snapshot (Except.ok.inj (Prod.mk.inj hresumed).1)).symm

end BlockIndex
