import BlockIndex.Proofs.BlockFile.Handles
import BlockIndex.Proofs.Cursor
import BlockIndex.Proofs.FileMap
import BlockIndex.Run.Resume

/-!
# Validation of a snapshot

A snapshot may be anything, and so may the files that it speaks of.  What is used of it stands in
files that look as they did or was read again; what is not used lies at the cursor or after it, and
so does every file that changed.

* `Snapshot.copies`      the records that a snapshot keeps;
* `Snapshot.Doubtful`    a record's file is gone, or it changed and the record is not read again;
* `Snapshot.Checked`     what the check of some files makes of a snapshot;
* `Snapshot.Remains`     what is left of it in the end;
* `Snapshot.Validated`   what of this a scan relies on.

Main statements: `checkFile_answers` (one file), `checkFiles_answers` (all of them),
`Checked.remains` (forgetting and moving back), and `staleHeight_validated`.
-/

namespace BlockIndex

/-- The height lies below a stale one, if there is one. -/
def Entry.isBelow (stale : Option Nat) (e : Entry) : Bool :=
  match stale with
  | none => true
  | some height => e.height < height

theorem Entry.lowestHeight?_le {es : List Entry} {e : Entry} (he : e ∈ es) :
    ∃ height, Entry.lowestHeight? es = some height ∧ height ≤ e.height := by
  induction es with
  | nil => simp at he
  | cons f rest ih =>
    rw [Entry.lowestHeight?]
    rcases List.mem_cons.1 he with rfl | he
    · cases Entry.lowestHeight? rest with
      | none => exact ⟨_, rfl, Nat.le_refl _⟩
      | some height => exact ⟨_, rfl, Nat.min_le_left _ _⟩
    · obtain ⟨height, hheight, hle⟩ := ih he
      rw [hheight]
      exact ⟨_, rfl, Nat.le_trans (Nat.min_le_right _ _) hle⟩

theorem Entry.earliest?_mem {es : List Entry} {e : Entry} (h : Entry.earliest? es = some e) :
    e ∈ es := by
  induction es generalizing e with
  | nil => simp [Entry.earliest?] at h
  | cons f rest ih =>
    rw [Entry.earliest?] at h
    cases hrest : Entry.earliest? rest with
    | none =>
      rw [hrest] at h
      rw [← Option.some.inj h]
      exact List.mem_cons_self
    | some g =>
      rw [hrest] at h
      dsimp only at h
      split at h
      · rw [← Option.some.inj h]
        exact List.mem_cons_of_mem f (ih hrest)
      · rw [← Option.some.inj h]
        exact List.mem_cons_self

theorem Entry.latest?_mem {es : List Entry} {e : Entry} (h : Entry.latest? es = some e) :
    e ∈ es := by
  induction es generalizing e with
  | nil => simp [Entry.latest?] at h
  | cons f rest ih =>
    rw [Entry.latest?] at h
    cases hrest : Entry.latest? rest with
    | none =>
      rw [hrest] at h
      rw [← Option.some.inj h]
      exact List.mem_cons_self
    | some g =>
      rw [hrest] at h
      dsimp only at h
      split at h
      · rw [← Option.some.inj h]
        exact List.mem_cons_self
      · rw [← Option.some.inj h]
        exact List.mem_cons_of_mem f (ih hrest)

theorem lower_le_left {a b : Option Nat} {m : Nat} (h : ∃ k, a = some k ∧ k ≤ m) :
    ∃ k, lower a b = some k ∧ k ≤ m := by
  obtain ⟨k, rfl, hk⟩ := h
  cases b with
  | none => exact ⟨k, rfl, hk⟩
  | some l => exact ⟨min k l, rfl, Nat.le_trans (Nat.min_le_left k l) hk⟩

theorem lower_le_right {a b : Option Nat} {m : Nat} (h : ∃ k, b = some k ∧ k ≤ m) :
    ∃ k, lower a b = some k ∧ k ≤ m := by
  obtain ⟨k, rfl, hk⟩ := h
  cases a with
  | none => exact ⟨k, rfl, hk⟩
  | some l => exact ⟨min l k, rfl, Nat.le_trans (Nat.min_le_right l k) hk⟩

theorem Fingerprint.matchesFile_iff {fp : Fingerprint} {len : Nat} {modified : Option Int} :
    fp.matchesFile len modified = true ↔
      fp.len = len ∧ fp.modified = modified ∧ fp.modified.isSome = true := by
  rw [matchesFile, Bool.and_eq_true, Bool.and_eq_true, decide_eq_true_eq, decide_eq_true_eq,
    and_assoc, and_comm (a := fp.modified.isSome = true)]

namespace Snapshot

/-- The records that a snapshot keeps: one copy of each block. -/
def copies (s : Snapshot) : List Record := s.entries.map Entry.toRecord ++ s.orphans

/-- A record of a file that is gone, or of one that changed where the record is not read again. -/
def Doubtful (s : Snapshot) (v : Volume) (files : BlockFiles) (magic : UInt32) (r : Record) :
    Prop :=
  s.condition files r.fileId = .gone ∨
    (s.condition files r.fileId = .changed ∧ Reader.rereads v files magic r ≠ .ok true)

/-- A record whose file is there may be read again. -/
def Examined (s : Snapshot) (files : BlockFiles) (r : Record) : Prop :=
  r ∈ s.copies ∧ s.condition files r.fileId ≠ .gone

/-- What the check of the files `ids` makes of a snapshot: a height from which on entries are stale,
and the snapshot without its stale orphans. -/
structure Checked (v : Volume) (files : BlockFiles) (magic : UInt32) (ids : List Nat) (s : Snapshot)
    (stale : Option Nat) (t : Snapshot) : Prop where
  entries : t.entries = s.entries
  known : t.files = s.files
  tip : t.tip = s.tip
  orphans : t.orphans.Sublist s.orphans
  stale : ∀ e ∈ s.entries, e.fileId ∈ ids → s.Doubtful v files magic e.toRecord →
    ∃ height, stale = some height ∧ height ≤ e.height
  lost : ∀ o ∈ s.orphans, o.fileId ∈ ids → s.Doubtful v files magic o → o ∉ t.orphans
  back : t.cursor ≤ s.cursor
  passed : ∀ o ∈ s.orphans, o ∈ t.orphans ∨ t.cursor ≤ o.position
  moved : t.cursor = s.cursor ∨ ∃ o ∈ s.orphans, t.cursor = o.position

/-- What is left of a snapshot when entries from a stale height on are forgotten, and the cursor is
moved back over what changed. -/
structure Remains (v : Volume) (files : BlockFiles) (magic : UInt32) (s : Snapshot)
    (stale : Option Nat) (u : Snapshot) : Prop where
  entries : u.entries = s.entries.filter (Entry.isBelow stale)
  known : u.files = s.files
  tip : u.tip = s.tip.filter fun tip => stale.isNone || u.entries.any fun e => e.hash = tip
  orphans : u.orphans.Sublist s.orphans
  below : ∀ o ∈ u.orphans, o.position < u.cursor
  certain : ∀ r ∈ u.copies, ¬ s.Doubtful v files magic r
  back : u.cursor ≤ s.cursor
  passed : ∀ e ∈ s.entries, e ∈ u.entries ∨ u.cursor ≤ e.position
  waiting : ∀ o ∈ s.orphans, o ∈ u.orphans ∨ u.cursor ≤ o.position
  rescan : ∀ file ∈ files.values, ∀ offset, s.rescanFrom? file = some offset →
    u.cursor ≤ ⟨file.id, offset⟩
  moved : u.cursor = s.cursor ∨ (∃ e ∈ s.entries, u.cursor = e.position) ∨
    (∃ o ∈ s.orphans, u.cursor = o.position) ∨ u.cursor.offset = 0 ∨
    ∃ file ∈ files.values, ∃ offset, s.rescanFrom? file = some offset ∧ u.cursor = ⟨file.id, offset⟩
  inside : (∀ id file, files.get? id = some file → file.id = id) →
    (∀ id fp, s.files.get? id = some fp → fp.scannedTo ≤ fp.len) →
    ∀ file, files.get? u.cursor.fileId = some file → u.cursor.offset ≤ file.len

/-- What a scan relies on that starts from `u`, which was made of a snapshot `s`. -/
structure Validated (v : Volume) (files : BlockFiles) (magic : UInt32) (s u : Snapshot) : Prop where
  entries : u.entries.Sublist s.entries
  orphans : u.orphans.Sublist s.orphans
  /-- The file of what is kept is there, and no shorter than it was. -/
  present : ∀ r ∈ u.copies, ∃ file, files.get? r.fileId = some file ∧
    ∀ fp, s.files.get? r.fileId = some fp → fp.len ≤ file.len
  /-- In a file that does not look as it did, what is kept was read again. -/
  reread : ∀ r ∈ u.copies, (∀ file fp, files.get? r.fileId = some file →
      s.files.get? r.fileId = some fp → fp.matchesFile file.len file.modified = false) →
    ∃ found, ((Reader.ofFiles files magic).recordAt v r.fileId r.offset).1 = .ok found ∧
      found.hash = r.hash ∧ found.length = r.length
  /-- What is forgotten lies at the cursor or after it. -/
  entry : ∀ e ∈ s.entries, e ∈ u.entries ∨ u.cursor ≤ e.position
  orphan : ∀ o ∈ s.orphans, o ∈ u.orphans ∨ u.cursor ≤ o.position
  back : u.cursor ≤ s.cursor
  /-- A file that is new or has become shorter is scanned from its beginning. -/
  anew : ∀ file ∈ files.values, (∀ fp, s.files.get? file.id = some fp → file.len < fp.len) →
    u.cursor ≤ ⟨file.id, 0⟩
  /-- A file that does not look as it did is scanned from where it was scanned to at least. -/
  further : ∀ file ∈ files.values, ∀ fp, s.files.get? file.id = some fp →
    fp.matchesFile file.len file.modified = false → u.cursor ≤ ⟨file.id, fp.scannedTo⟩

variable {v : Volume} {files : BlockFiles} {magic : UInt32} {s t u : Snapshot} {id : Nat}
  {ids : List Nat} {stale other : Option Nat} {reader : Reader} {r : Record}

theorem mem_copies : r ∈ s.copies ↔ (∃ e ∈ s.entries, e.toRecord = r) ∨ r ∈ s.orphans := by
  rw [copies, List.mem_append, List.mem_map]

theorem forall_copies {P : Record → Prop} :
    (∀ r ∈ s.copies, P r) ↔ (∀ e ∈ s.entries, P e.toRecord) ∧ ∀ o ∈ s.orphans, P o := by
  rw [copies, List.forall_mem_append, List.forall_mem_map]

theorem doubtful_congr (h : t.files = s.files) :
    t.Doubtful v files magic r ↔ s.Doubtful v files magic r := by
  unfold Doubtful condition
  rw [h]

/-! ## The condition of a file -/

theorem condition_ne_gone_iff : s.condition files id ≠ .gone ↔
    ∃ file, files.get? id = some file ∧
      ∀ fp, s.files.get? id = some fp → fp.len ≤ file.len := by
  unfold condition
  cases files.get? id with
  | none => simp
  | some file =>
    cases s.files.get? id with
    | none => simp
    | some fp =>
      dsimp only
      by_cases hshort : file.len < fp.len
      · rw [if_pos hshort]
        simp only [ne_eq, not_true, Option.some.injEq, exists_eq_left', forall_eq', false_iff]
        omega
      · rw [if_neg hshort]
        simp only [Option.some.injEq, exists_eq_left', forall_eq']
        refine ⟨fun _ => by omega, fun _ => ?_⟩
        split <;> simp

theorem condition_eq_unchanged_iff : s.condition files id = .unchanged ↔
    ∃ file fp, files.get? id = some file ∧ s.files.get? id = some fp ∧
      fp.matchesFile file.len file.modified = true := by
  unfold condition
  cases files.get? id with
  | none => simp
  | some file =>
    cases s.files.get? id with
    | none => simp
    | some fp =>
      dsimp only
      simp only [Option.some.injEq, exists_and_left, exists_eq_left']
      by_cases hshort : file.len < fp.len
      · rw [if_pos hshort, Fingerprint.matchesFile_iff]
        simp only [reduceCtorEq, false_iff]
        omega
      · rw [if_neg hshort]
        cases fp.matchesFile file.len file.modified <;> simp

theorem exists_file_of_condition (h : s.condition files id ≠ .gone) :
    ∃ file, files.get? id = some file := by
  obtain ⟨file, hfile, _⟩ := condition_ne_gone_iff.1 h
  exact ⟨file, hfile⟩

/-! ## Dropping orphans -/

theorem dropOrphans_spec (s : Snapshot) (drop : Record → Bool) :
    (s.dropOrphans drop).orphans.Sublist s.orphans ∧ (s.dropOrphans drop).cursor ≤ s.cursor ∧
      (∀ o ∈ s.orphans, drop o = true → o ∉ (s.dropOrphans drop).orphans) ∧
      (∀ o ∈ s.orphans, o ∈ (s.dropOrphans drop).orphans ∨
        (s.dropOrphans drop).cursor ≤ o.position) ∧
      ((s.dropOrphans drop).cursor = s.cursor ∨
        ∃ o ∈ s.orphans, (s.dropOrphans drop).cursor = o.position) := by
  refine ⟨List.filter_sublist, Cursor.rewindToAll_le _ _, ?_, ?_, ?_⟩
  · intro o _ hdrop hmem
    have := (List.mem_filter.1 hmem).2
    rw [hdrop] at this
    simp at this
  · intro o ho
    cases hdrop : drop o with
    | false => exact Or.inl (List.mem_filter.2 ⟨ho, by rw [hdrop]; rfl⟩)
    | true =>
      right
      exact Cursor.rewindToAll_le_mem _ (List.mem_map.2 ⟨o, List.mem_filter.2 ⟨ho, hdrop⟩, rfl⟩)
  · rcases Cursor.rewindToAll_mem s.cursor ((s.orphans.filter drop).map Record.position)
      with h | h
    · exact Or.inl h
    · obtain ⟨o, ho, heq⟩ := List.mem_map.1 h
      exact Or.inr ⟨o, (List.mem_filter.1 ho).1, heq.symm⟩

/-- Dropping orphans checks a file if it drops all in doubt and the height is low enough. -/
theorem checked_dropOrphans {drop : Record → Bool}
    (hstale : ∀ e ∈ s.entries, e.fileId = id → s.Doubtful v files magic e.toRecord →
      ∃ height, stale = some height ∧ height ≤ e.height)
    (hdrop : ∀ o ∈ s.orphans, o.fileId = id → s.Doubtful v files magic o → drop o = true) :
    Checked v files magic [id] s stale (s.dropOrphans drop) := by
  obtain ⟨hsub, hback, hlost, hpassed, hmoved⟩ := s.dropOrphans_spec drop
  exact {
    entries := rfl
    known := rfl
    tip := rfl
    orphans := hsub
    stale := fun e he hid hdoubt => hstale e he (List.mem_singleton.1 hid) hdoubt
    lost := fun o ho hid hdoubt => hlost o ho (hdrop o ho (List.mem_singleton.1 hid) hdoubt)
    back := hback
    passed := hpassed
    moved := hmoved }

/-! ## Checking files -/

theorem Checked.nil (v : Volume) (files : BlockFiles) (magic : UInt32) (s : Snapshot) :
    Checked v files magic [] s none s where
  entries := rfl
  known := rfl
  tip := rfl
  orphans := List.Sublist.refl _
  stale := by
    intro e _ hid
    simp at hid
  lost := by
    intro o _ hid
    simp at hid
  back := Cursor.le_refl _
  passed := fun o ho => Or.inl ho
  moved := Or.inl rfl

theorem Checked.cons (h : Checked v files magic [id] s stale t)
    (h' : Checked v files magic ids t other u) :
    Checked v files magic (id :: ids) s (lower stale other) u where
  entries := h'.entries.trans h.entries
  known := h'.known.trans h.known
  tip := h'.tip.trans h.tip
  orphans := h'.orphans.trans h.orphans
  stale := by
    intro e he hid hdoubt
    rcases List.mem_cons.1 hid with hid | hid
    · exact lower_le_left (h.stale e he (List.mem_singleton.2 hid) hdoubt)
    · rw [← h.entries] at he
      exact lower_le_right (h'.stale e he hid ((doubtful_congr h.known).2 hdoubt))
  lost := by
    intro o ho hid hdoubt hmem
    have ht := h'.orphans.subset hmem
    rcases List.mem_cons.1 hid with hid | hid
    · exact h.lost o ho (List.mem_singleton.2 hid) hdoubt ht
    · exact h'.lost o ht hid ((doubtful_congr h.known).2 hdoubt) hmem
  back := Cursor.le_trans h'.back h.back
  passed := by
    intro o ho
    rcases h.passed o ho with hmem | hle
    · exact h'.passed o hmem
    · exact Or.inr (Cursor.le_trans h'.back hle)
  moved := by
    rcases h'.moved with heq | ⟨o, ho, heq⟩
    · rw [heq]
      exact h.moved
    · exact Or.inr ⟨o, h.orphans.subset ho, heq⟩

theorem Checked.examined (h : Checked v files magic ids s stale t) (hr : t.Examined files r) :
    s.Examined files r := by
  obtain ⟨hmem, hcondition⟩ := hr
  refine ⟨?_, ?_⟩
  · rw [mem_copies, h.entries] at hmem
    exact mem_copies.2 (hmem.imp_right fun ho => h.orphans.subset ho)
  · unfold condition at hcondition ⊢
    rw [← h.known]
    exact hcondition

theorem mem_entriesIn {e : Entry} : e ∈ s.entriesIn id ↔ e ∈ s.entries ∧ e.fileId = id := by
  rw [entriesIn, List.mem_filter, decide_eq_true_eq]

/-- The entries and the orphans of a file that is there may be read again. -/
theorem examined_of_condition (h : s.condition files id ≠ .gone) :
    (∀ e ∈ s.entriesIn id, s.Examined files e.toRecord) ∧
      ∀ o ∈ s.orphans.filter fun o => o.fileId = id, s.Examined files o := by
  refine ⟨?_, ?_⟩
  · intro e he
    obtain ⟨hentry, hid⟩ := mem_entriesIn.1 he
    refine ⟨mem_copies.2 (Or.inl ⟨e, hentry, rfl⟩), ?_⟩
    show s.condition files e.fileId ≠ .gone
    rw [hid]
    exact h
  · intro o ho
    obtain ⟨horphan, hid⟩ := List.mem_filter.1 ho
    refine ⟨mem_copies.2 (Or.inr horphan), ?_⟩
    rw [of_decide_eq_true hid]
    exact h

theorem checked_dropFile (v : Volume) (files : BlockFiles) (magic : UInt32) (s : Snapshot)
    (fileId : Nat) :
    Checked v files magic [fileId] s (s.dropFile fileId).1 (s.dropFile fileId).2 := by
  apply checked_dropOrphans
  · intro e he hid _
    exact Entry.lowestHeight?_le (mem_entriesIn.2 ⟨he, hid⟩)
  · intro o _ hid _
    exact decide_eq_true hid

/-- Nothing in an unchanged file is in doubt, so any height will do. -/
theorem checked_unchanged {fileId : Nat} (h : s.condition files fileId = .unchanged)
    (stale : Option Nat) : Checked v files magic [fileId] s stale s := by
  have hnone : ∀ r : Record, r.fileId = fileId → ¬ s.Doubtful v files magic r := by
    intro r hid hdoubt
    rw [Doubtful, hid, h] at hdoubt
    simp at hdoubt
  exact { Checked.nil v files magic s with
    stale := fun e _ hid hdoubt => absurd hdoubt (hnone _ (List.mem_singleton.1 hid))
    lost := fun o _ hid hdoubt => absurd hdoubt (hnone o (List.mem_singleton.1 hid)) }

theorem spotCheck_answers (h : reader.Tracks v files magic) {fileId : Nat}
    (hcondition : s.condition files fileId ≠ .gone) :
    Reader.Answers v files magic (s.Examined files) (fun _ => True)
      (s.spotCheck reader v fileId) := by
  obtain ⟨hentries, _⟩ := examined_of_condition hcondition
  have hread := h.allOnDisk (((Entry.earliest? (s.entriesIn fileId)).toList
    ++ (Entry.latest? (s.entriesIn fileId)).toList).map Entry.toRecord)
  unfold spotCheck
  dsimp only
  generalize reader.allOnDisk v _ = run at hread ⊢
  cases hread with
  | error r hr hfailed =>
    refine .error r ?_ hfailed
    obtain ⟨e, he, rfl⟩ := List.mem_map.1 hr
    rcases List.mem_append.1 he with he | he
    · exact hentries e (Entry.earliest?_mem (Option.mem_toList.1 he))
    · exact hentries e (Entry.latest?_mem (Option.mem_toList.1 he))
  | @ok b next _ hnext =>
    cases b with
    | true => exact .ok trivial hnext
    | false => exact .ok trivial hnext

theorem fullCheck_answers (h : reader.Tracks v files magic) {fileId : Nat}
    (hcondition : s.condition files fileId = .changed) :
    Reader.Answers v files magic (s.Examined files)
      (fun x => Checked v files magic [fileId] s x.1 x.2) (s.fullCheck reader v fileId) := by
  obtain ⟨hentries, horphans⟩ := examined_of_condition (s := s) (by rw [hcondition]; simp)
  have hmoved : ∀ r : Record, r.fileId = fileId → s.Doubtful v files magic r →
      Reader.rereads v files magic r ≠ .ok true := by
    intro r hid hdoubt
    rw [Doubtful, hid, hcondition] at hdoubt
    rcases hdoubt with hgone | hchanged
    · cases hgone
    · exact hchanged.2
  have hread := h.moved Entry.toRecord (s.entriesIn fileId)
  unfold fullCheck
  generalize reader.moved v Entry.toRecord (s.entriesIn fileId) = run at hread ⊢
  cases hread with
  | error r hr hfailed =>
    obtain ⟨e, he, rfl⟩ := List.mem_map.1 hr
    exact .error _ (hentries e he) hfailed
  | @ok entries next hstale hnext =>
    dsimp only
    have hread' := hnext.moved (id : Record → Record)
      (s.orphans.filter fun o => o.fileId = fileId)
    generalize next.moved v _ _ = run at hread' ⊢
    cases hread' with
    | error r hr hfailed =>
      obtain ⟨o, ho, rfl⟩ := List.mem_map.1 hr
      exact .error _ (horphans o ho) hfailed
    | @ok lost last hlost hlast =>
      refine .ok (checked_dropOrphans ?_ ?_) hlast
      · intro e he hid hdoubt
        apply Entry.lowestHeight?_le
        exact (hstale e).2 ⟨mem_entriesIn.2 ⟨he, hid⟩, hmoved e.toRecord hid hdoubt⟩
      · intro o ho hid hdoubt
        rw [List.any_eq_true]
        refine ⟨o, (hlost o).2 ⟨List.mem_filter.2 ⟨ho, decide_eq_true hid⟩, ?_⟩, by simp⟩
        exact hmoved o hid hdoubt

/-- **The check of one file**: if nothing is left to read, all in doubt is forgotten. -/
theorem checkFile_answers (h : reader.Tracks v files magic) (s : Snapshot) (fileId : Nat) :
    Reader.Answers v files magic (s.Examined files)
      (fun x => Checked v files magic [fileId] s x.1 x.2) (s.checkFile reader v files fileId) := by
  unfold checkFile
  cases hcondition : s.condition files fileId with
  | gone => exact .ok (checked_dropFile v files magic s fileId) h
  | changed => exact fullCheck_answers h hcondition
  | unchanged =>
    have hread := spotCheck_answers (s := s) h (by rw [hcondition]; simp)
    dsimp only
    generalize s.spotCheck reader v fileId = run at hread ⊢
    cases hread with
    | error r hr hfailed => exact .error r hr hfailed
    | ok _ hnext => exact .ok (checked_unchanged hcondition _) hnext

theorem checkFiles_answers (h : reader.Tracks v files magic) (s : Snapshot) (ids : List Nat) :
    Reader.Answers v files magic (s.Examined files)
      (fun x => Checked v files magic ids s x.1 x.2) (s.checkFiles reader v files ids) := by
  induction ids generalizing s reader with
  | nil => exact .ok (Checked.nil v files magic s) h
  | cons id rest ih =>
    have hfile := checkFile_answers h s id
    unfold checkFiles
    generalize s.checkFile reader v files id = run at hfile ⊢
    cases hfile with
    | error r hr hfailed => exact .error r hr hfailed
    | @ok first next hfirst hnext =>
      obtain ⟨stale, t⟩ := first
      have hrest := ih hnext t
      dsimp only
      generalize t.checkFiles next v files rest = run at hrest ⊢
      cases hrest with
      | error r hr hfailed => exact .error r (hfirst.examined hr) hfailed
      | ok hothers hlast => exact .ok (hfirst.cons hothers) hlast

theorem mem_mentionedFiles : (∀ e ∈ s.entries, e.fileId ∈ s.mentionedFiles) ∧
    ∀ o ∈ s.orphans, o.fileId ∈ s.mentionedFiles := by
  refine ⟨?_, ?_⟩
  · intro e he
    rw [mentionedFiles, FileMap.mem_ids_ofList, List.map_append, List.mem_append]
    exact Or.inl (List.mem_map.2 ⟨_, List.mem_map.2 ⟨e, he, rfl⟩, rfl⟩)
  · intro o ho
    rw [mentionedFiles, FileMap.mem_ids_ofList, List.map_append, List.mem_append]
    exact Or.inr (List.mem_map.2 ⟨_, List.mem_map.2 ⟨o, ho, rfl⟩, rfl⟩)

/-! ## What remains -/

/-- Forgetting entries from a stale height on. -/
theorem kept_spec (t : Snapshot) (stale : Option Nat) :
    ∃ kept : Snapshot, (match stale with
        | none => t
        | some height => t.truncate height) = kept ∧
      kept.entries = t.entries.filter (Entry.isBelow stale) ∧ kept.files = t.files ∧
      kept.orphans = t.orphans ∧ kept.cursor ≤ t.cursor ∧
      kept.tip = (t.tip.filter fun tip => stale.isNone || kept.entries.any fun e => e.hash = tip) ∧
      (∀ e ∈ t.entries, e ∈ kept.entries ∨ kept.cursor ≤ e.position) ∧
      (kept.cursor = t.cursor ∨ ∃ e ∈ t.entries, kept.cursor = e.position) := by
  cases stale with
  | none =>
    have hall : t.entries.filter (Entry.isBelow none) = t.entries := by
      rw [List.filter_eq_self]
      intro e _
      rfl
    refine ⟨t, rfl, hall.symm, rfl, rfl, Cursor.le_refl _, ?_, fun e he => Or.inl he, Or.inl rfl⟩
    cases t.tip with
    | none => rfl
    | some tip => rfl
  | some height =>
    refine ⟨_, rfl, rfl, rfl, rfl, Cursor.rewindToAll_le _ _, rfl, ?_, ?_⟩
    · intro e he
      by_cases hlow : e.height < height
      · exact Or.inl (List.mem_filter.2 ⟨he, decide_eq_true hlow⟩)
      · right
        apply Cursor.rewindToAll_le_mem
        exact List.mem_map.2 ⟨e, List.mem_filter.2 ⟨he, decide_eq_true (by omega)⟩, rfl⟩
    · rcases Cursor.rewindToAll_mem t.cursor
        ((t.entries.filter fun entry => height ≤ entry.height).map Entry.position) with h | h
      · exact Or.inl h
      · obtain ⟨e, he, heq⟩ := List.mem_map.1 h
        exact Or.inr ⟨e, (List.mem_filter.1 he).1, heq.symm⟩

theorem rescanFrom?_unknown {file : BlockFile} (h : s.files.get? file.id = none) :
    s.rescanFrom? file = some 0 := by
  unfold rescanFrom?
  rw [h]

/-- A file is scanned again from its beginning, or from where it was scanned to. -/
theorem rescanFrom?_cases {file : BlockFile} {offset : Nat} (h : s.rescanFrom? file = some offset) :
    offset = 0 ∨
      ∃ fp, s.files.get? file.id = some fp ∧ fp.len ≤ file.len ∧ offset = fp.scannedTo := by
  unfold rescanFrom? at h
  split at h
  · exact Or.inl (Option.some.inj h).symm
  · next fp hfp =>
    split at h
    · exact Or.inl (Option.some.inj h).symm
    · next hlen =>
      split at h
      · simp at h
      · exact Or.inr ⟨fp, hfp, Nat.le_of_not_lt hlen, (Option.some.inj h).symm⟩

theorem rescanFrom?_eq_none_iff {file : BlockFile} : s.rescanFrom? file = none ↔
    ∃ fp, s.files.get? file.id = some fp ∧ fp.matchesFile file.len file.modified = true := by
  unfold rescanFrom?
  cases s.files.get? file.id with
  | none => simp
  | some fp =>
    dsimp only
    simp only [Option.some.injEq, exists_eq_left']
    by_cases hshort : file.len < fp.len
    · rw [if_pos hshort, Fingerprint.matchesFile_iff]
      simp only [reduceCtorEq, false_iff]
      omega
    · rw [if_neg hshort]
      cases fp.matchesFile file.len file.modified <;> simp

theorem mem_cutBelow {position : Cursor} : position ∈ s.cutBelow files ↔
    ∃ file, files.get? s.cursor.fileId = some file ∧ file.len < s.cursor.offset ∧
      position = ⟨file.id, 0⟩ := by
  unfold cutBelow
  cases files.get? s.cursor.fileId with
  | none => simp
  | some file =>
    dsimp only
    by_cases hlong : file.len < s.cursor.offset <;> simp [hlong]

theorem mem_changedBelow {position : Cursor} : position ∈ s.changedBelow files ↔
    ∃ file ∈ files.values, file.id ≤ s.cursor.fileId ∧
      ∃ offset, s.rescanFrom? file = some offset ∧ position = ⟨file.id, offset⟩ := by
  unfold changedBelow
  constructor
  · intro hin
    obtain ⟨file, hfile, hmap⟩ := List.mem_filterMap.1 hin
    obtain ⟨hlisted, hlow⟩ := List.mem_filter.1 hfile
    obtain ⟨offset, hoffset, rfl⟩ := Option.map_eq_some_iff.1 hmap
    exact ⟨file, hlisted, of_decide_eq_true hlow, offset, hoffset, rfl⟩
  · rintro ⟨file, hfile, hlow, offset, hoffset, rfl⟩
    refine List.mem_filterMap.2 ⟨file, List.mem_filter.2 ⟨hfile, decide_eq_true hlow⟩, ?_⟩
    rw [hoffset]
    rfl

theorem rewound_cases (files : BlockFiles) (s : Snapshot) :
    (s.rewound files).cursor = s.cursor ∨
      (∃ file ∈ files.values, ∃ offset, s.rescanFrom? file = some offset ∧
        (s.rewound files).cursor = ⟨file.id, offset⟩) ∨
      (s.rewound files).cursor.offset = 0 := by
  rcases Cursor.rewindToAll_mem s.cursor (s.changedBelow files ++ s.cutBelow files)
    with heq | hin
  · exact Or.inl heq
  rcases List.mem_append.1 hin with hin | hin
  · obtain ⟨file, hfile, _, offset, hoffset, heq⟩ := mem_changedBelow.1 hin
    exact Or.inr (Or.inl ⟨file, hfile, offset, hoffset, heq⟩)
  · obtain ⟨file, _, _, heq⟩ := mem_cutBelow.1 hin
    exact Or.inr (Or.inr (congrArg Cursor.offset heq))

theorem rewound_le (files : BlockFiles) (s : Snapshot) : (s.rewound files).cursor ≤ s.cursor :=
  Cursor.rewindToAll_le _ _

theorem rewound_le_rescan {file : BlockFile} {offset : Nat} (hfile : file ∈ files.values)
    (hoffset : s.rescanFrom? file = some offset) :
    (s.rewound files).cursor ≤ ⟨file.id, offset⟩ := by
  by_cases hlow : file.id ≤ s.cursor.fileId
  · apply Cursor.rewindToAll_le_mem
    exact List.mem_append_left _ (mem_changedBelow.2 ⟨file, hfile, hlow, offset, hoffset, rfl⟩)
  · exact Cursor.le_trans (rewound_le files s) (Cursor.le_of_fileId_lt (Nat.lt_of_not_le hlow))

theorem rewound_inside (hids : ∀ id file, files.get? id = some file → file.id = id)
    (hscanned : ∀ id fp, s.files.get? id = some fp → fp.scannedTo ≤ fp.len)
    {file : BlockFile} (hfile : files.get? (s.rewound files).cursor.fileId = some file) :
    (s.rewound files).cursor.offset ≤ file.len := by
  rcases rewound_cases files s with heq | ⟨other, hother, offset, hoffset, heq⟩ | hzero
  · rw [heq] at hfile ⊢
    -- the cursor would have moved to the beginning of a file that ends before it
    refine Nat.le_of_not_lt fun hlt => ?_
    have hcut : (s.rewound files).cursor ≤ ⟨file.id, 0⟩ := by
      apply Cursor.rewindToAll_le_mem
      exact List.mem_append_right _ (mem_cutBelow.2 ⟨file, hfile, hlt, rfl⟩)
    rw [heq, hids _ _ hfile, Cursor.le_iff] at hcut
    dsimp only at hcut
    omega
  · rw [heq] at hfile ⊢
    obtain ⟨id, hid⟩ := FileMap.mem_values_iff.1 hother
    rw [hids _ _ hid, hid] at hfile
    obtain rfl := Option.some.inj hfile
    rcases rescanFrom?_cases hoffset with rfl | ⟨fp, hfp, hlen, rfl⟩
    · exact Nat.zero_le _
    · exact Nat.le_trans (hscanned _ fp hfp) hlen
  · rw [hzero]
    exact Nat.zero_le _

/-- **What remains of a snapshot** that was checked. -/
theorem Checked.remains (h : Checked v files magic s.mentionedFiles s stale t) :
    Remains v files magic s stale (t.usable files stale) := by
  obtain ⟨kept, hkept, hentries, hknown, horphans, hback, htip, hpassed, hmoved⟩ :=
    kept_spec t stale
  have hu : t.usable files stale = (kept.rewound files).withOrphansBelow := by
    subst hkept
    unfold usable
    cases stale <;> rfl
  rw [hu]
  have hrescan : ∀ file, kept.rescanFrom? file = s.rescanFrom? file := by
    intro file
    unfold rescanFrom?
    rw [hknown, h.known]
  have hle := rewound_le files kept
  have hmem : ∀ e, e ∈ kept.entries ↔ e ∈ s.entries ∧ Entry.isBelow stale e = true := by
    intro e
    rw [hentries, h.entries, List.mem_filter]
  exact {
    entries := hentries.trans (by rw [h.entries])
    known := hknown.trans h.known
    tip := htip.trans (by rw [h.tip]; rfl)
    orphans := by
      refine List.Sublist.trans List.filter_sublist ?_
      show kept.orphans.Sublist s.orphans
      rw [horphans]
      exact h.orphans
    below := fun o ho => of_decide_eq_true (List.mem_filter.1 ho).2
    certain := by
      intro r hr hdoubt
      rcases mem_copies.1 hr with ⟨e, he, rfl⟩ | ho
      · obtain ⟨hs, hbelow⟩ := (hmem e).1 he
        obtain ⟨height, rfl, hheight⟩ := h.stale e hs (mem_mentionedFiles.1 e hs) hdoubt
        have : e.height < height := of_decide_eq_true hbelow
        omega
      · have ho' : r ∈ kept.orphans := (List.mem_filter.1 ho).1
        rw [horphans] at ho'
        have hs := h.orphans.subset ho'
        exact h.lost r hs (mem_mentionedFiles.2 r hs) hdoubt ho'
    back := Cursor.le_trans hle (Cursor.le_trans hback h.back)
    passed := by
      intro e he
      rw [← h.entries] at he
      rcases hpassed e he with hin | hout
      · exact Or.inl hin
      · exact Or.inr (Cursor.le_trans hle hout)
    waiting := by
      intro o ho
      rcases h.passed o ho with hin | hout
      · by_cases hlt : o.position < (kept.rewound files).cursor
        · left
          refine List.mem_filter.2 ⟨?_, decide_eq_true hlt⟩
          show o ∈ kept.orphans
          rw [horphans]
          exact hin
        · exact Or.inr (Cursor.not_lt.1 hlt)
      · exact Or.inr (Cursor.le_trans hle (Cursor.le_trans hback hout))
    rescan := by
      intro file hfile offset hoffset
      exact rewound_le_rescan hfile (by rw [hrescan, hoffset])
    moved := by
      rcases rewound_cases files kept with heq | ⟨file, hfile, offset, hoffset, heq⟩ | hzero
      · rcases hmoved with hsame | ⟨e, he, hentry⟩
        · rcases h.moved with hunmoved | ⟨o, ho, horphan⟩
          · exact Or.inl (heq.trans (hsame.trans hunmoved))
          · exact Or.inr (Or.inr (Or.inl ⟨o, ho, heq.trans (hsame.trans horphan)⟩))
        · rw [h.entries] at he
          exact Or.inr (Or.inl ⟨e, he, heq.trans hentry⟩)
      · rw [hrescan] at hoffset
        exact Or.inr (Or.inr (Or.inr (Or.inr ⟨file, hfile, offset, hoffset, heq⟩)))
      · exact Or.inr (Or.inr (Or.inr (Or.inl hzero)))
    inside := by
      intro hids hscanned file hfile
      refine rewound_inside hids ?_ hfile
      rw [hknown, h.known]
      exact hscanned }

/-- **The check of a snapshot**, and what remains of it. -/
theorem staleHeight_answers (h : reader.Tracks v files magic) (s : Snapshot) :
    Reader.Answers v files magic (s.Examined files)
      (fun x => Remains v files magic s x.1 (x.2.usable files x.1))
      (s.staleHeight reader v files) :=
  (checkFiles_answers h s s.mentionedFiles).mono (fun _ hr => hr) fun _ hchecked => hchecked.remains

/-! ## What a scan relies on -/

theorem Remains.validated (h : Remains v files magic s stale u) : Validated v files magic s u where
  entries := by
    rw [h.entries]
    exact List.filter_sublist
  orphans := h.orphans
  present := by
    intro r hr
    exact condition_ne_gone_iff.1 fun hgone => h.certain r hr (Or.inl hgone)
  reread := by
    intro r hr hmismatch
    rw [← Reader.rereads_eq_true_iff]
    refine Classical.byContradiction fun hmoved => ?_
    cases hcondition : s.condition files r.fileId with
    | gone => exact h.certain r hr (Or.inl hcondition)
    | changed => exact h.certain r hr (Or.inr ⟨hcondition, hmoved⟩)
    | unchanged =>
      obtain ⟨file, fp, hfile, hfp, hmatches⟩ := condition_eq_unchanged_iff.1 hcondition
      rw [hmismatch file fp hfile hfp] at hmatches
      cases hmatches
  entry := h.passed
  orphan := h.waiting
  back := h.back
  anew := by
    intro file hfile hshort
    refine h.rescan file hfile 0 ?_
    unfold rescanFrom?
    cases hfp : s.files.get? file.id with
    | none => rfl
    | some fp => exact if_pos (hshort fp hfp)
  further := by
    intro file hfile fp hfp hmismatch
    cases hoffset : s.rescanFrom? file with
    | none =>
      obtain ⟨other, hother, hmatches⟩ := rescanFrom?_eq_none_iff.1 hoffset
      rw [hfp] at hother
      obtain rfl := Option.some.inj hother
      rw [hmismatch] at hmatches
      cases hmatches
    | some offset =>
      have hle := h.rescan file hfile offset hoffset
      rcases rescanFrom?_cases hoffset with rfl | ⟨other, hother, _, rfl⟩
      · exact Cursor.le_trans hle (Cursor.mk_le_mk (Nat.zero_le _))
      · rw [hfp] at hother
        obtain rfl := Option.some.inj hother
        exact hle

/-- Nothing is kept, and everything is scanned. -/
theorem validated_empty (v : Volume) (files : BlockFiles) (magic : UInt32) (s : Snapshot) :
    Validated v files magic s Snapshot.empty where
  entries := List.nil_sublist _
  orphans := List.nil_sublist _
  present := fun r hr => by cases hr
  reread := fun r hr => by cases hr
  entry := fun e _ => Or.inr (Cursor.start_le _)
  orphan := fun o _ => Or.inr (Cursor.start_le _)
  back := Cursor.start_le _
  anew := fun file _ _ => Cursor.start_le _
  further := fun file _ fp _ _ => Cursor.start_le _

/-- **What a scan starts from is sound**, whatever the snapshot and the files: when the check of a
snapshot comes to an end, what is used of it is in files that are as they were or was read again,
and everything else is scanned; so it is also if that cannot be replayed.  The check fails only if
a record of the snapshot cannot be read. -/
theorem staleHeight_validated (v : Volume) (files : BlockFiles) (magic : UInt32) (s : Snapshot) :
    match s.staleHeight (Reader.ofFiles files magic) v files with
    | (.ok (stale, checked), next) =>
      Validated v files magic s (checked.usable files stale) ∧
        ∃ resumed, resume (Reader.ofFiles files magic) v files s = (.ok resumed, next) ∧
          Validated v files magic s resumed.snapshot
    | (.error e, _) => ∃ r ∈ s.copies, Reader.rereads v files magic r = .error e := by
  have hanswers := staleHeight_answers (Reader.tracks_ofFiles v files magic) s
  unfold resume
  generalize s.staleHeight (Reader.ofFiles files magic) v files = run at hanswers ⊢
  cases hanswers with
  | error r hr hfailed => exact ⟨r, hr.1, hfailed⟩
  | @ok x next hremains _ =>
    obtain ⟨stale, checked⟩ := x
    refine ⟨hremains.validated, _, rfl, ?_⟩
    show Validated v files magic s (Resumed.ofSnapshot (checked.usable files stale)).snapshot
    unfold Resumed.ofSnapshot
    split
    · exact hremains.validated
    · exact validated_empty v files magic s

end Snapshot

end BlockIndex
