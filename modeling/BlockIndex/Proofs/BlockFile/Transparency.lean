import BlockIndex.Proofs.BlockFile.Access
import BlockIndex.Proofs.BlockFile.Handles
import BlockIndex.Proofs.Volume.Naming

/-!
# Reading through what is kept open

A file that is changed in place stays what its path leads to, so what a reader has kept open does
not show: every reading says what it would say to a reader that opens the file for it.  Nor does it
show where earlier readings have left a file, since each goes to its own offset first.

* `Change`              writing to files in place;
* `Reading`, `Answer`   what is asked of a reader, and said;
* `Reader.after`        readings and changes one after another;
* `Reader.Tidy`         few files are kept open, none of them twice;
* `Handle`, `Seeker`    a reader whose files are each at a position.

Main statement: `Reader.performs_afresh`.
-/

namespace BlockIndex

namespace Volume

/-! ## Files changed in place -/

variable {v : Volume} {id : NodeNumber} {old : StoredFile}

/-- No walk goes through a file, so none comes to another end. -/
theorem descend_setFile (h : v.file? id = some old) (new : StoredFile) (here : NodeNumber)
    (path : Path) : (v.setFile id new).descend here path = v.descend here path := by
  induction path generalizing here with
  | nil => rfl
  | cons part rest ih =>
    unfold descend
    rw [above_setFile h, occupant?_setFile h]
    simp only [ih]
    cases v.occupant? ⟨here, part⟩ with
    | none => rfl
    | some next =>
      dsimp only
      rw [node?_setFile h]
      by_cases heq : next = id
      · rw [if_pos heq, heq, file?_eq_some_iff.1 h]
      · rw [if_neg heq]

theorem find_setFile (h : v.file? id = some old) (new : StoredFile) (path : Path) :
    (v.setFile id new).find path = v.find path := by
  have hfollow : ∀ links here way,
      (v.setFile id new).follow links here way = v.follow links here way := by
    intro links
    induction links with
    | zero =>
      intro here way
      unfold follow
      rw [descend_setFile h]
    | succ links ih =>
      intro here way
      unfold follow
      rw [descend_setFile h]
      simp only [ih]
  unfold find reach
  rw [hfollow]

end Volume

/-- A change of a file in place. -/
inductive Change where
  /-- Other bytes for those that the file holds. -/
  | write (path : Path) (bytes : Bytes) (time : Int)
  | append (path : Path) (bytes : Bytes) (time : Int)
  | truncate (path : Path) (len : Nat) (time : Int)
  | touch (path : Path) (time : Int)
  /-- Any other change, such as of bytes in its middle. -/
  | edit (path : Path) (change : StoredFile → StoredFile)

namespace Change

/-- The change, where the path leads to a file. -/
def perform (v : Volume) : Change → Except FileProblem Volume
  | write path bytes time => v.changeFile path fun _ => ⟨.bytes bytes, time⟩
  | append path bytes time => v.append path bytes time
  | truncate path len time => v.truncate path len time
  | touch path time => v.touch path time
  | edit path change => v.changeFile path change

/-- The volume that is left, the same if the change failed. -/
def leave (v : Volume) (change : Change) : Volume :=
  match change.perform v with
  | .ok changed => changed
  | .error _ => v

variable {v : Volume}

/-- **A path leads where it did** after a change in place. -/
theorem find_leave (change : Change) (path : Path) : (change.leave v).find path = v.find path := by
  have hedit : ∀ place new changed, v.changeFile place new = .ok changed →
      changed.find path = v.find path := by
    intro place new changed h
    unfold Volume.changeFile at h
    split at h
    · cases h
    next id _ =>
    split at h
    · next old hfile =>
      obtain rfl := Except.ok.inj h
      exact Volume.find_setFile hfile _ path
    · cases h
  unfold leave
  split
  · next changed h =>
    cases change with
    | write place bytes time => exact hedit place _ changed h
    | append place bytes time => exact hedit place _ changed h
    | truncate place len time => exact hedit place _ changed h
    | touch place time => exact hedit place _ changed h
    | edit place new => exact hedit place new changed h
  · rfl

end Change

/-! ## Readings -/

/-- What is asked of a reader. -/
inductive Reading where
  | record (fileId offset : Nat)
  | payload (record : Record)
  | count (record : Record)

/-- What a reader says. -/
inductive Answer where
  | record (record : Record)
  | payload (bytes : Bytes)
  | count (count : Option Nat)
  deriving DecidableEq, Repr

namespace Reading

/-- The file that is read. -/
def fileId : Reading → Nat
  | record fileId _ => fileId
  | payload r => r.fileId
  | count r => r.fileId

/-- Where reading begins. -/
def offset : Reading → Nat
  | record _ offset => offset
  | payload r => r.payloadOffset
  | count r => r.payloadOffset + Header.size

/-- How many bytes are read. -/
def size : Reading → Nat
  | record _ _ => Record.prefixSize + Header.size
  | payload r => r.length
  | count r => min (r.length - Header.size) Reader.maxCountSize

/-- What the bytes say. -/
def interpret (magic : UInt32) : Reading → Bytes → Except Error Answer
  | record fileId offset, raw => (Reader.parseRecord magic fileId offset raw).map .record
  | payload r, bytes =>
    if bytes.take Header.size = r.header.encode then .ok (.payload bytes)
    else .error (.corruptRecord r.fileId r.offset (.changed r.hash))
  | count _, bytes => .ok (.count ((CompactSize.decode? bytes).map (·.1)))

end Reading

namespace Reader

variable {reader : Reader} {v : Volume} {files : BlockFiles} {magic : UInt32}

/-- A single reading. -/
def perform (reader : Reader) (v : Volume) : Reading → Except Error Answer × Reader
  | .record fileId offset => (reader.recordAt v fileId offset).map (Except.map .record) id
  | .payload r => (reader.payload v r).map (Except.map .payload) id
  | .count r => (reader.transactionCount v r).map (Except.map .count) id

theorem readAt_snd (reader : Reader) (v : Volume) (fileId offset count : Nat) :
    (reader.readAt v fileId offset count).2 = (reader.target v fileId).2 := by
  unfold readAt
  generalize reader.target v fileId = opening
  obtain ⟨_ | ⟨path, id⟩, next⟩ := opening
  · rfl
  · dsimp only
    split <;> rfl

/-- **A reading** takes bytes from one place of one file, and interprets them. -/
theorem perform_eq (reader : Reader) (v : Volume) (reading : Reading) :
    reader.perform v reading =
      ((reader.readAt v reading.fileId reading.offset reading.size).1.bind
          (reading.interpret reader.magic),
        (reader.target v reading.fileId).2) := by
  rw [← reader.readAt_snd v reading.fileId reading.offset reading.size]
  have hmagic : (reader.readAt v reading.fileId reading.offset reading.size).2.magic
      = reader.magic := by
    rw [readAt_snd, target_magic]
  cases reading with
  | record fileId offset =>
    unfold perform recordAt
    dsimp only [Reading.fileId, Reading.offset, Reading.size] at hmagic ⊢
    generalize reader.readAt v fileId offset (Record.prefixSize + Header.size) = run at hmagic ⊢
    obtain ⟨_ | raw, next⟩ := run
    · rfl
    · rw [← hmagic]
      rfl
  | payload r =>
    unfold perform payload
    dsimp only [Reading.fileId, Reading.offset, Reading.size]
    generalize reader.readAt v r.fileId r.payloadOffset r.length = run
    obtain ⟨_ | bytes, next⟩ := run
    · rfl
    · show Prod.map _ _ (if bytes.take Header.size = r.header.encode then _ else _) =
        (if bytes.take Header.size = r.header.encode then _ else _, next)
      by_cases hfront : bytes.take Header.size = r.header.encode
      · rw [if_pos hfront, if_pos hfront]
        rfl
      · rw [if_neg hfront, if_neg hfront]
        rfl
  | count r =>
    unfold perform transactionCount
    dsimp only [Reading.fileId, Reading.offset, Reading.size]
    generalize reader.readAt v r.fileId (r.payloadOffset + Header.size)
      (min (r.length - Header.size) maxCountSize) = run
    obtain ⟨_ | bytes, next⟩ := run <;> rfl

/-- Whatever is read says what it would say to a reader that has opened nothing. -/
theorem Tracks.perform (h : reader.Tracks v files magic) (reading : Reading) :
    (reader.perform v reading).1 = ((ofFiles files magic).perform v reading).1 ∧
      (reader.perform v reading).2.Tracks v files magic := by
  rw [perform_eq, perform_eq]
  refine ⟨?_, (h.target reading.fileId).2⟩
  dsimp only
  rw [(h.readAt reading.fileId reading.offset reading.size).1, h.magic]
  rfl

/-- What is kept open is still what the paths lead to. -/
theorem Tracks.leave (h : reader.Tracks v files magic) (change : Change) :
    reader.Tracks (change.leave v) files magic where
  files := h.files
  magic := h.magic
  opened := by
    intro o ho
    obtain ⟨file, hfile, hfind⟩ := h.opened o ho
    exact ⟨file, hfile, (change.find_leave file.path).trans hfind⟩

/-! ## How many files are kept open -/

/-- Few files are kept open, and none of them twice. -/
structure Tidy (reader : Reader) : Prop where
  few : reader.opened.length ≤ maxOpen
  distinct : (reader.opened.map (·.1)).Nodup

theorem Tidy.keep (h : reader.Tidy) {fileId : Nat} (hnew : ∀ o ∈ reader.opened, o.1 ≠ fileId)
    (node : NodeNumber) : Tidy { reader with opened := Reader.keep reader.opened fileId node } := by
  -- what stays open when room is made
  have hrest : ∃ rest, Reader.keep reader.opened fileId node = rest ++ [(fileId, node)] ∧
      rest.length < maxOpen ∧ rest.Sublist reader.opened := by
    have hfew := h.few
    by_cases hfull : reader.opened.length = maxOpen
    · refine ⟨reader.opened.drop 1, by rw [Reader.keep, if_pos hfull], ?_, List.drop_sublist _ _⟩
      rw [List.length_drop, hfull]
      decide
    · exact ⟨reader.opened, by rw [Reader.keep, if_neg hfull], by omega, List.Sublist.refl _⟩
  obtain ⟨rest, hkeep, hroom, hsub⟩ := hrest
  constructor
  · show (Reader.keep reader.opened fileId node).length ≤ maxOpen
    rw [hkeep, List.length_append]
    exact hroom
  · show ((Reader.keep reader.opened fileId node).map (·.1)).Nodup
    rw [hkeep, List.map_append, List.nodup_append]
    refine ⟨h.distinct.sublist (hsub.map _), List.pairwise_singleton _ _, ?_⟩
    intro a ha b hb heq
    obtain ⟨o, ho, rfl⟩ := List.mem_map.1 ha
    rw [List.map_singleton, List.mem_singleton] at hb
    exact hnew o (hsub.subset ho) (heq.trans hb)

theorem Tidy.target (h : reader.Tidy) (v : Volume) (fileId : Nat) :
    (reader.target v fileId).2.Tidy := by
  unfold Reader.target
  split
  · exact h
  split
  · exact h
  next hopen =>
  split
  · exact h
  · refine h.keep (fun o ho heq => ?_) _
    exact List.find?_eq_none.1 hopen o ho (decide_eq_true heq)

/-- A file that cannot be opened closes no other. -/
theorem target_failed {fileId : Nat} {e : Error} (h : (reader.target v fileId).1 = .error e) :
    (reader.target v fileId).2 = reader := by
  unfold target at h ⊢
  split
  · rfl
  next file hfile =>
  rw [hfile] at h
  dsimp only at h
  split
  · rfl
  next hopen =>
  rw [hopen] at h
  dsimp only at h
  split
  · rfl
  next hfind =>
  rw [hfind] at h
  cases h

/-! ## Readings and changes one after another -/

/-- A reading, or a change in between. -/
inductive Step where
  | read (reading : Reading)
  | change (change : Change)

/-- The reader and the volume after a step. -/
def step : Reader × Volume → Step → Reader × Volume
  | (reader, v), .read reading => ((reader.perform v reading).2, v)
  | (reader, v), .change change => (reader, change.leave v)

/-- The reader and the volume after some steps. -/
def after (reader : Reader) (v : Volume) (steps : List Step) : Reader × Volume :=
  steps.foldl step (reader, v)

/-- Along a run, what is kept open is what the paths lead to, and it is little. -/
theorem Tracks.after (h : reader.Tracks v files magic) (htidy : reader.Tidy) (steps : List Step) :
    (reader.after v steps).1.Tracks (reader.after v steps).2 files magic ∧
      (reader.after v steps).1.Tidy := by
  induction steps generalizing reader v with
  | nil => exact ⟨h, htidy⟩
  | cons first rest ih =>
    cases first with
    | read reading =>
      refine ih (h.perform reading).2 ?_
      rw [perform_eq]
      exact htidy.target v reading.fileId
    | change change => exact ih (h.leave change) htidy

end Reader

/-! ## Files at positions -/

/-- A file that is open, and where it is read on. -/
structure Handle where
  /-- The id of the block file, and the node that its path led to. -/
  file : Nat × NodeNumber
  position : Nat
  deriving DecidableEq, Repr

namespace Handle

/-- Goes to an offset. -/
def seek (handle : Handle) (offset : Nat) : Except FileProblem Handle :=
  if Volume.offsetLimit ≤ offset then .error .invalidInput
  else .ok { handle with position := offset }

/-- Just `count` bytes from where the file is.  It is left behind the last byte that was read, also
when the bytes run out. -/
def readOn (handle : Handle) (v : Volume) (count : Nat) : Except FileProblem Bytes × Handle :=
  if count = 0 then (.ok [], handle)
  else if Volume.offsetLimit ≤ handle.position + count then (.error .invalidInput, handle)
  else if v.isDirectory handle.file.2 then (.error .isADirectory, handle)
  else
    let bytes := (v.bytesOf handle.file.2).drop handle.position
    match splitFront count bytes with
    | some (front, _) => (.ok front, { handle with position := handle.position + count })
    | none => (.error .unexpectedEof, { handle with position := handle.position + bytes.length })

/-- Just `count` bytes from an offset on. -/
def readAt (handle : Handle) (v : Volume) (offset count : Nat) :
    Except FileProblem Bytes × Handle :=
  match handle.seek offset with
  | .error problem => (.error problem, handle)
  | .ok handle => handle.readOn v count

/-- **Where a file was left does not matter** when it is read from an offset on. -/
theorem readAt_fst (handle : Handle) (v : Volume) (offset count : Nat) :
    (handle.readAt v offset count).1 = v.readExact handle.file.2 offset count := by
  unfold readAt seek Volume.readExact
  by_cases hfar : Volume.offsetLimit ≤ offset
  · rw [if_pos hfar, if_pos hfar]
  rw [if_neg hfar, if_neg hfar]
  show (readOn ⟨handle.file, offset⟩ v count).1 = _
  unfold readOn
  by_cases hnone : count = 0
  · rw [if_pos hnone, if_pos hnone]
  rw [if_neg hnone, if_neg hnone]
  by_cases hend : Volume.offsetLimit ≤ offset + count
  · rw [if_pos hend, if_pos hend]
  rw [if_neg hend, if_neg hend]
  by_cases hdir : v.isDirectory handle.file.2
  · rw [if_pos hdir, if_pos hdir]
  rw [if_neg hdir, if_neg hdir]
  dsimp only
  cases splitFront count ((v.bytesOf handle.file.2).drop offset) <;> rfl

end Handle

/-- A reader whose files are at positions. -/
structure Seeker where
  files : BlockFiles
  magic : UInt32
  handles : List Handle
  deriving DecidableEq, Repr

namespace Seeker

/-- The reader, positions apart. -/
def reader (s : Seeker) : Reader := ⟨s.files, s.magic, s.handles.map Handle.file⟩

/-- The path of a block file and its handle, at the beginning if it is opened now. -/
def target (s : Seeker) (v : Volume) (fileId : Nat) : Except Error (Path × Handle) × Seeker :=
  match s.files.get? fileId with
  | none => (.error (.corruptRecord fileId 0 .fileGone), s)
  | some file =>
    match s.handles.find? fun handle => handle.file.1 = fileId with
    | some handle => (.ok (file.path, handle), s)
    | none =>
      match v.find file.path with
      | .error problem => (.error (.file file.path (.problem problem)), s)
      | .ok id =>
        let kept := if s.handles.length = Reader.maxOpen then s.handles.drop 1 else s.handles
        (.ok (file.path, ⟨(fileId, id), 0⟩), { s with handles := kept ++ [⟨(fileId, id), 0⟩] })

/-- The files with one of them moved. -/
def put (s : Seeker) (moved : Handle) : Seeker :=
  { s with
    handles := s.handles.map fun handle => if handle.file = moved.file then moved else handle }

/-- Just `count` bytes of a block file. -/
def readAt (s : Seeker) (v : Volume) (fileId offset count : Nat) : Except Error Bytes × Seeker :=
  match s.target v fileId with
  | (.error e, s) => (.error e, s)
  | (.ok (path, handle), s) =>
    match handle.readAt v offset count with
    | (.ok bytes, moved) => (.ok bytes, s.put moved)
    | (.error .unexpectedEof, moved) =>
      (.error (.corruptRecord fileId offset .pastEnd), s.put moved)
    | (.error problem, moved) => (.error (.file path (.problem problem)), s.put moved)

/-- A single reading. -/
def perform (s : Seeker) (v : Volume) (reading : Reading) : Except Error Answer × Seeker :=
  match s.readAt v reading.fileId reading.offset reading.size with
  | (.error e, s) => (.error e, s)
  | (.ok bytes, s) => (reading.interpret s.magic bytes, s)

variable (s : Seeker) (v : Volume)

theorem put_reader (moved : Handle) : (s.put moved).reader = s.reader := by
  have hfiles : (s.put moved).handles.map Handle.file = s.handles.map Handle.file := by
    show (s.handles.map _).map Handle.file = _
    rw [List.map_map]
    refine List.map_congr_left fun handle _ => ?_
    show Handle.file (if handle.file = moved.file then moved else handle) = handle.file
    split
    · next heq => exact heq.symm
    · rfl
  unfold reader
  rw [hfiles]
  rfl

theorem target_reader (fileId : Nat) :
    s.reader.target v fileId =
      ((s.target v fileId).1.map fun found => (found.1, found.2.file.2),
        (s.target v fileId).2.reader) := by
  have hfiles : s.reader.files = s.files := rfl
  have hopened : s.reader.opened.find? (fun o => decide (o.1 = fileId))
      = (s.handles.find? fun handle => decide (handle.file.1 = fileId)).map Handle.file :=
    List.find?_map
  unfold Reader.target target
  rw [hfiles, hopened]
  cases s.files.get? fileId with
  | none => rfl
  | some file =>
    dsimp only
    cases s.handles.find? fun handle => decide (handle.file.1 = fileId) with
    | some handle => rfl
    | none =>
      dsimp only [Option.map_none]
      cases v.find file.path with
      | error problem => rfl
      | ok id =>
        have hkeep : Reader.keep (s.handles.map Handle.file) fileId id
            = ((if s.handles.length = Reader.maxOpen then s.handles.drop 1 else s.handles)
              ++ [(⟨(fileId, id), 0⟩ : Handle)]).map Handle.file := by
          unfold Reader.keep
          rw [List.length_map, List.map_append]
          split
          · rw [List.map_drop]
            rfl
          · rfl
        show (_, Reader.mk s.files s.magic (Reader.keep (s.handles.map Handle.file) fileId id)) = _
        rw [hkeep]
        rfl

theorem readAt_reader (fileId offset count : Nat) :
    s.reader.readAt v fileId offset count =
      ((s.readAt v fileId offset count).1, (s.readAt v fileId offset count).2.reader) := by
  unfold Reader.readAt readAt
  rw [target_reader]
  generalize s.target v fileId = opening
  obtain ⟨_ | ⟨path, handle⟩, next⟩ := opening
  · rfl
  · dsimp only [Except.map]
    rw [← handle.readAt_fst]
    generalize handle.readAt v offset count = run
    obtain ⟨problem | bytes, moved⟩ := run
    · cases problem <;> (dsimp only; rw [put_reader])
    · dsimp only
      rw [put_reader]

/-- **Positions do not show.**  A reading says what it says without them, and leaves the same files
open. -/
theorem perform_reader (reading : Reading) :
    s.reader.perform v reading = ((s.perform v reading).1, (s.perform v reading).2.reader) := by
  have hread := s.readAt_reader v reading.fileId reading.offset reading.size
  have hnext : (s.readAt v reading.fileId reading.offset reading.size).2.reader
      = (s.reader.target v reading.fileId).2 := by
    rw [← Reader.readAt_snd _ _ _ reading.offset reading.size, hread]
  have hmagic : (s.readAt v reading.fileId reading.offset reading.size).2.magic = s.magic :=
    (congrArg Reader.magic hnext).trans (Reader.target_magic _ _ _)
  rw [Reader.perform_eq, hread, ← hnext]
  unfold perform
  generalize s.readAt v reading.fileId reading.offset reading.size = run at hmagic ⊢
  obtain ⟨_ | bytes, next⟩ := run
  · rfl
  · show (reading.interpret s.magic bytes, next.reader) = _
    rw [← hmagic]

end Seeker

namespace Reader

/-- **What is kept open does not show.**  After any readings and changes in place, each reading says
what a reader says that opens the file for it.  It leaves at most two files open, and none of them
twice; if its file cannot be opened, it leaves open what was.  All this is so wherever the open
files have been left. -/
theorem performs_afresh (files : BlockFiles) (magic : UInt32) (v : Volume) (steps : List Step)
    (reading : Reading) :
    let now := (ofFiles files magic).after v steps
    let run := now.1.perform now.2 reading
    run.1 = ((ofFiles files magic).perform now.2 reading).1 ∧
      run.2.opened.length ≤ 2 ∧ (run.2.opened.map (·.1)).Nodup ∧
      (∀ e, (now.1.target now.2 reading.fileId).1 = .error e → run.2 = now.1) ∧
      ∀ s : Seeker, s.reader = now.1 →
        (s.perform now.2 reading).1 = run.1 ∧ (s.perform now.2 reading).2.reader = run.2 := by
  intro now run
  obtain ⟨htracks, htidy⟩ := (tracks_ofFiles v files magic).after ⟨Nat.zero_le _, .nil⟩ steps
  have hnext : run.2 = (now.1.target now.2 reading.fileId).2 :=
    congrArg Prod.snd (perform_eq now.1 now.2 reading)
  have hleft : run.2.Tidy := hnext ▸ htidy.target now.2 reading.fileId
  refine ⟨(htracks.perform reading).1, hleft.few, hleft.distinct, ?_, ?_⟩
  · intro e hfailed
    exact hnext.trans (target_failed hfailed)
  · intro s hs
    have hsame := s.perform_reader now.2 reading
    rw [hs] at hsame
    exact ⟨(congrArg Prod.fst hsame).symm, (congrArg Prod.snd hsame).symm⟩

/-- Three block files that end before the byte that counts their transactions, and the path of a
fourth that is not there. -/
def shortFiles : BlockFiles :=
  .ofList ((List.range 4).map fun id => (id, ⟨id, ["blocks", toString id], 88, none⟩))

/-- A volume with the three. -/
def shortVolume : Volume :=
  .ofBlockFiles ((List.range 3).map fun id => (toString id, ⟨.bytes (List.replicate 88 0), 0⟩))

/-- Counting the transactions of a record whose payload ends after the count. -/
def shortReading (fileId : Nat) : Reading := .count (.ofHeader default 81 fileId 0)

/-- A reading that runs past the end; a byte more; a reading of another file. -/
def shortSteps : List Step :=
  [.read (shortReading 0), .change (.append ["blocks", "0"] [7] 0), .read (shortReading 1)]

/-- The byte that was added is read through the file that was left at its old end; and the fourth
file, which is not there, closes neither of the two. -/
theorem performs_afresh_short :
    let now := (ofFiles shortFiles 0).after shortVolume shortSteps
    let s : Seeker := ⟨shortFiles, 0, [⟨(0, 2), 88⟩, ⟨(1, 3), 88⟩]⟩
    s.reader = now.1 ∧ (s.perform now.2 (shortReading 0)).1 = .ok (.count (some 7)) ∧
      (now.1.target now.2 3).1 = .error (.file ["blocks", "3"] (.problem .notFound)) ∧
      (now.1.perform now.2 (shortReading 3)).2 = s.reader := by
  intro now s
  have hreader : s.reader = now.1 := by decide +kernel
  have hseven : (now.1.perform now.2 (shortReading 0)).1 = .ok (.count (some 7)) := by
    decide +kernel
  have hgone : (now.1.target now.2 3).1 = .error (.file ["blocks", "3"] (.problem .notFound)) := by
    decide +kernel
  obtain ⟨_, _, _, _, hpositions⟩ :=
    performs_afresh shortFiles 0 shortVolume shortSteps (shortReading 0)
  obtain ⟨_, _, _, hfailed, _⟩ :=
    performs_afresh shortFiles 0 shortVolume shortSteps (shortReading 3)
  exact ⟨hreader, (hpositions s hreader).1.trans hseven, hgone,
    (hfailed _ hgone).trans hreader.symm⟩

end Reader

end BlockIndex
