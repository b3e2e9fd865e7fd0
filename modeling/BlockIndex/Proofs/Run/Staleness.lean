import BlockIndex.Proofs.BlockFile.Reading
import BlockIndex.Proofs.Run.Validation

/-!
# What of a snapshot is used

The check of a snapshot against a directory forgets what the directory no longer holds, and moves
the cursor back over everything it forgets and over every file that changed.

* `Snapshot.Suspect`   a record's file is gone, or has changed and holds the record no more;
* `Snapshot.Usable`    what of a snapshot a run starts from.

Main statement: `staleHeight_spec`.  It says what is forgotten at least: the check forgets from a
height on, so it forgets blocks that are still there too.
-/

namespace BlockIndex

namespace Snapshot

/-- A record that the directory may not hold any more. -/
def Suspect (s : Snapshot) (d : Directory) (magic : UInt32) (r : Record) : Prop :=
  s.condition d.files r.fileId = .gone ∨
    (s.condition d.files r.fileId = .changed ∧ ¬ d.Stands magic r)

/-- All positions of a snapshot can be read at. -/
def Readable (s : Snapshot) : Prop :=
  (∀ e ∈ s.entries, e.offset + 88 < 0x8000_0000_0000_0000) ∧ ∀ o ∈ s.orphans, o.offset + 88 < 0x8000_0000_0000_0000

/-- What of a snapshot a run over a directory starts from. -/
structure Usable (d : Directory) (magic : UInt32) (s : Snapshot) (stale : Option Nat)
    (u : Snapshot) : Prop where
  entries : u.entries = s.entries.filter (Entry.isBelow stale)
  files : u.files = s.files
  tip : u.tip = s.tip.filter fun tip => stale.isNone || u.entries.any fun e => e.hash = tip
  orphans : u.orphans.Sublist s.orphans
  below : ∀ o ∈ u.orphans, o.position < u.cursor
  entry : ∀ e ∈ u.entries, ¬ s.Suspect d magic e.toRecord
  orphan : ∀ o ∈ u.orphans, ¬ s.Suspect d magic o
  back : u.cursor ≤ s.cursor
  passed : ∀ e ∈ s.entries, e ∈ u.entries ∨ u.cursor ≤ e.position
  waiting : ∀ o ∈ s.orphans, o ∈ u.orphans ∨ u.cursor ≤ o.position
  rescan : ∀ id file offset, d.files.get? id = some file → s.rescanFrom? file = some offset →
    u.cursor ≤ ⟨id, offset⟩
  moved : u.cursor = s.cursor ∨ (∃ e ∈ s.entries, u.cursor = e.position) ∨
    (∃ o ∈ s.orphans, u.cursor = o.position) ∨ u.cursor.offset = 0 ∨
    ∃ id file offset, d.files.get? id = some file ∧ s.rescanFrom? file = some offset ∧
      u.cursor = ⟨id, offset⟩
  inside : (∀ id fp, s.files.get? id = some fp → fp.scannedTo ≤ fp.len) →
    ∀ file, d.files.get? u.cursor.fileId = some file → u.cursor.offset ≤ file.len

variable {d : Directory} {magic : UInt32} {s t u : Snapshot} {stale : Option Nat} {reader : Reader}

theorem readable_iff :
    s.Readable ↔ ∀ r ∈ s.copies, r.offset + 88 < 0x8000_0000_0000_0000 := by
  simp only [copies, List.forall_mem_append, List.forall_mem_map]
  rfl

theorem readable_of_lies (h : ∀ r ∈ s.copies, d.Lies magic r) : s.Readable := by
  rw [readable_iff]
  intro r hr
  have hroom := (h r hr).room
  omega

theorem exists_file_of_not_suspect {r : Record} (h : ¬ s.Suspect d magic r) :
    ∃ file, d.files.get? r.fileId = some file :=
  exists_file_of_condition fun hgone => h (Or.inl hgone)

/-- A record that is not suspect was read again, or its file looks as it did. -/
theorem not_suspect_cases {r : Record} (h : ¬ s.Suspect d magic r) :
    d.Stands magic r ∨ s.condition d.files r.fileId = .unchanged := by
  cases hcondition : s.condition d.files r.fileId with
  | gone => exact absurd (Or.inl hcondition) h
  | unchanged => exact Or.inr rfl
  | changed =>
    exact Or.inl (Classical.byContradiction fun hmoved => h (Or.inr ⟨hcondition, hmoved⟩))

/-- In a directory a suspect record is in doubt: reading it again says so. -/
theorem Suspect.doubtful {r : Record} (h : s.Suspect d magic r)
    (hroom : r.offset + 88 < 0x8000_0000_0000_0000) : s.Doubtful d.volume d.files magic r := by
  rcases h with hgone | ⟨hchanged, hmoved⟩
  · exact Or.inl hgone
  · have hlisted : s.condition d.files r.fileId ≠ .gone := by
      rw [hchanged]
      simp
    have hfile := exists_file_of_condition hlisted
    exact Or.inr ⟨hchanged, fun hread =>
      hmoved ((Reader.rereads_eq_true_iff_stands hfile hroom).1 hread)⟩

theorem Remains.usable (h : Remains d.volume d.files magic s stale u) (hs : s.Readable) :
    Usable d magic s stale u where
  entries := h.entries
  files := h.known
  tip := h.tip
  orphans := h.orphans
  below := h.below
  entry := by
    intro e he hsuspect
    have hmem : e ∈ s.entries := by
      rw [h.entries] at he
      exact (List.mem_filter.1 he).1
    exact h.certain _ (mem_copies.2 (Or.inl ⟨e, he, rfl⟩)) (hsuspect.doubtful (hs.1 e hmem))
  orphan := by
    intro o ho hsuspect
    have hmem := h.orphans.subset ho
    exact h.certain o (mem_copies.2 (Or.inr ho)) (hsuspect.doubtful (hs.2 o hmem))
  back := h.back
  passed := h.passed
  waiting := h.waiting
  rescan := by
    intro id file offset hfile hoffset
    obtain rfl := (d.file_id hfile).1
    exact h.rescan file (Directory.mem_values hfile) offset hoffset
  moved := by
    rcases h.moved with heq | he | ho | hzero | ⟨file, hfile, offset, hoffset, heq⟩
    · exact Or.inl heq
    · exact Or.inr (Or.inl he)
    · exact Or.inr (Or.inr (Or.inl ho))
    · exact Or.inr (Or.inr (Or.inr (Or.inl hzero)))
    · exact Or.inr (Or.inr (Or.inr (Or.inr
        ⟨file.id, file, offset, Directory.get?_of_mem hfile, hoffset, heq⟩)))
  inside := h.inside fun _ _ hfile => (d.file_id hfile).1

/-- **The check of a snapshot** against a directory comes to an end. -/
theorem staleHeight_spec (h : reader.Over d magic) (hs : s.Readable) :
    ∃ stale t next, s.staleHeight reader d.volume d.files = (.ok (stale, t), next) ∧
      next.Over d magic ∧ Usable d magic s stale (t.usable d.files stale) := by
  obtain ⟨⟨stale, t⟩, next, hcheck, hover, hremains⟩ :=
    (staleHeight_answers (Reader.over_iff_tracks.1 h) s).over fun r hr =>
      ⟨exists_file_of_condition hr.2, readable_iff.1 hs r hr.1⟩
  exact ⟨stale, t, next, hcheck, hover, hremains.usable hs⟩

end Snapshot

end BlockIndex
