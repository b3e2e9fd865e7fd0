import BlockIndex.Proofs.BlockFile.Directory
import BlockIndex.Run.Scan

/-!
# What a scan of a directory comes upon

The scan of a directory from a position feeds to the assembler what it reads there and after it: all
of it, or what comes up to the place where its target is reached.

* `Progress.feed`          a scan that has read some more records;
* `Directory.readFrom`     what a scan from a position reads;
* `Directory.recordsFrom`  the records of the directory at a position and after it;
* `Sweep`                  how a scan went: what it fed and left, and where it stopped.

Main statements: `Directory.readFrom_eq` (a scan from an aligned position reads the records of the
directory), `scanFrom_spec` (every scan is a sweep), `Sweep.whole` (without a target), `scanFrom_again`
(a scan that is taken up where one stopped reads nothing).
-/

namespace BlockIndex

/-- A scan that has read some more records. -/
def Progress.feed (p : Progress) (rs : List Record) : Progress := rs.foldl Progress.add p

namespace Progress

variable {p : Progress} {rs ss : List Record}

theorem feed_append (p : Progress) (rs ss : List Record) :
    p.feed (rs ++ ss) = (p.feed rs).feed ss := List.foldl_append

theorem feed_eq (p : Progress) (rs : List Record) :
    p.feed rs = ⟨(p.assembler.absorbAll rs).2, p.edits ++ (p.assembler.absorbAll rs).1,
      p.records + rs.length⟩ := by
  induction rs generalizing p with
  | nil =>
    rw [Assembler.absorbAll, List.append_nil]
    rfl
  | cons r rest ih =>
    show (p.add r).feed rest = _
    rw [ih, Assembler.absorbAll]
    dsimp only [Progress.add]
    rw [List.append_assoc, List.length_cons, Nat.add_assoc, Nat.add_comm 1]

theorem feed_start (a : Assembler) (rs : List Record) :
    (start a).feed rs = ⟨(a.absorbAll rs).2, (a.absorbAll rs).1, rs.length⟩ := by
  rw [feed_eq]
  show (⟨_, [] ++ _, 0 + _⟩ : Progress) = _
  rw [List.nil_append, Nat.zero_add]
  rfl

/-! ## One file -/

/-- What a scan of one file feeds, and where it ends: at the target, or where the file's scan ends. -/
theorem scanItems_spec {fileId stop q : Nat} {magic : UInt32} {bytes : Bytes}
    {fault : Option RecordFault} (target : Option Nat) (p : Progress)
    (h : Scans fileId magic bytes q rs stop fault) :
    ∃ front back place reached, rs = front ++ back ∧
      p.scanItems target q (BlockIndex.scanItems fileId rs stop fault)
        = (.ok (place, reached), p.feed front) ∧
      q ≤ place ∧ Scans fileId magic bytes place back stop fault ∧
      (∀ r ∈ front, r.endOffset ≤ place) ∧
      (if reached then (p.feed front).reached target = true else back = [] ∧ place = stop) := by
  induction h generalizing p with
  | quiet hinside hunmarked =>
    exact ⟨[], [], _, false, rfl, rfl, Nat.le_refl _, Scans.quiet hinside hunmarked,
      by simp, rfl, rfl⟩
  | broken hmark hread =>
    exact ⟨[], [], _, false, rfl, rfl, hmark.1, Scans.broken (NextMark.self hmark.2.1) hread,
      by simp, rfl, rfl⟩
  | @record q place stop r rs fault hmark hread hrest ih =>
    have hq : q ≤ r.endOffset := by
      have hle := hmark.1
      have hoffset := (readAt_ok hread).2.1
      have hpos := r.endOffset_eq
      omega
    show ∃ front back place reached, _ ∧ (if (p.add r).reached target then
        (.ok (r.endOffset, true), p.add r) else (p.add r).scanItems target r.endOffset
          (BlockIndex.scanItems fileId rs stop fault)) = _ ∧ _
    cases hreached : (p.add r).reached target with
    | true =>
      rw [if_pos rfl]
      refine ⟨[r], rs, r.endOffset, true, rfl, rfl, hq, hrest, ?_, hreached⟩
      intro s hs
      exact Nat.le_of_eq (by rw [List.mem_singleton.1 hs])
    | false =>
      rw [if_neg (by simp)]
      obtain ⟨front, back, place, reached, rfl, hscan, hle, hback, hfront, hends⟩ := ih (p.add r)
      refine ⟨r :: front, back, place, reached, rfl, hscan, Nat.le_trans hq hle, hback, ?_, hends⟩
      intro s hs
      rcases List.mem_cons.1 hs with rfl | hs
      · exact hle
      · exact hfront s hs

end Progress

/-! ## All files -/

namespace Directory

variable {d : Directory} {magic : UInt32} {c : Cursor} {file : BlockFile} {r : Record}

/-- What a scan from a position reads of a file. -/
def fileFrom (d : Directory) (magic : UInt32) (c : Cursor) (id : Nat) : List Record :=
  match c.resumeOffset id with
  | none => []
  | some offset => d.readIn magic id offset

/-- What a scan from a position reads. -/
def readFrom (d : Directory) (magic : UInt32) (c : Cursor) : List Record :=
  (d.files.fromId c.fileId).flatMap fun file => d.fileFrom magic c file.id

/-- The records at a position and after it. -/
def recordsFrom (d : Directory) (magic : UInt32) (c : Cursor) : List Record :=
  (d.records magic).filter fun r => c ≤ r.position

theorem mem_recordsFrom : r ∈ d.recordsFrom magic c ↔ r ∈ d.records magic ∧ c ≤ r.position := by
  rw [recordsFrom, List.mem_filter, decide_eq_true_eq]

theorem mem_fromId {files : BlockFiles} {id : Nat} :
    file ∈ files.fromId id ↔ file ∈ files.values ∧ id ≤ file.id := by
  rw [BlockFiles.fromId, List.mem_filter, decide_eq_true_eq]

/-- Where the scan of a file that is not before the cursor's is taken up. -/
theorem resumeOffset_eq {id : Nat} (h : c.fileId ≤ id) :
    c.resumeOffset id = some (if id = c.fileId then c.offset else 0) := by
  unfold Cursor.resumeOffset
  rw [if_neg (by omega)]
  by_cases heq : id = c.fileId
  · rw [if_pos heq, if_pos heq]
  · rw [if_neg heq, if_neg heq]

theorem mem_fileFrom {id : Nat} (hr : r ∈ d.fileFrom magic c id) :
    d.Lies magic r ∧ r.fileId = id ∧ c ≤ r.position := by
  unfold fileFrom Cursor.resumeOffset at hr
  by_cases hlow : id < c.fileId
  · rw [if_pos hlow] at hr
    simp at hr
  rw [if_neg hlow] at hr
  by_cases heq : id = c.fileId
  · rw [if_pos heq] at hr
    dsimp only at hr
    obtain ⟨_, hscan, _⟩ := d.scansAt magic id c.offset
    obtain ⟨hle, _, _, hread⟩ := hscan.mem hr
    obtain ⟨hid, hoffset, _, hend, hsize, _⟩ := readAt_ok hread
    have hpos := r.endOffset_eq
    refine ⟨lies_of_read hr, hid, ?_⟩
    rw [Cursor.le_iff]
    right
    show c.fileId = r.fileId ∧ c.offset ≤ r.offset
    omega
  · rw [if_neg heq] at hr
    dsimp only at hr
    obtain ⟨_, hscan, _⟩ := d.scansAt magic id 0
    have hid := (readAt_ok (hscan.mem hr).2.2.2).1
    refine ⟨lies_of_read hr, hid, ?_⟩
    rw [Cursor.le_iff]
    left
    show c.fileId < r.fileId
    omega

theorem mem_readFrom (hr : r ∈ d.readFrom magic c) : d.Lies magic r ∧ c ≤ r.position := by
  obtain ⟨file, _, hr⟩ := List.mem_flatMap.1 hr
  exact ⟨(mem_fileFrom hr).1, (mem_fileFrom hr).2.2⟩

/-- From an aligned position a scan reads the records of a file that stand there or after it. -/
theorem fileFrom_eq (hc : d.Aligned magic c) (hfile : d.files.get? file.id = some file)
    (hle : c.fileId ≤ file.id) :
    d.fileFrom magic c file.id = (d.recordsIn magic file.id).filter (fun r => c ≤ r.position) ∧
      Boundary file.id magic (d.bytes file.id) (if file.id = c.fileId then c.offset else 0) := by
  have hboundary :
      Boundary file.id magic (d.bytes file.id) (if file.id = c.fileId then c.offset else 0) := by
    by_cases heq : file.id = c.fileId
    · rw [if_pos heq]
      rw [heq] at hfile ⊢
      exact hc file hfile
    · rw [if_neg heq]
      exact Boundary.zero _ _ _
  refine ⟨?_, hboundary⟩
  unfold fileFrom
  rw [resumeOffset_eq hle]
  dsimp only
  rw [(readIn_eq hboundary).1]
  refine List.filter_congr ?_
  intro r hr
  have hid : r.position.fileId = file.id := (mem_recordsIn hr).1
  refine decide_eq_decide.2 ?_
  rw [Cursor.le_iff, hid]
  show _ ≤ r.position.offset ↔ _
  by_cases heq : file.id = c.fileId
  · rw [if_pos heq]
    omega
  · rw [if_neg heq]
    omega

/-- **From an aligned position** a scan reads the records that stand there or after it. -/
theorem readFrom_eq (hc : d.Aligned magic c) :
    d.readFrom magic c = d.recordsFrom magic c := by
  have hfiles : ∀ l : List BlockFile, (∀ file ∈ l, file ∈ d.files.values) →
      (l.filter fun file => c.fileId ≤ file.id).flatMap (fun file => d.fileFrom magic c file.id)
        = (l.flatMap fun file => recordsOf d.volume magic file 0).filter
            (fun r => c ≤ r.position) := by
    intro l hl
    induction l with
    | nil => rfl
    | cons file rest ih =>
      have hfile := get?_of_mem (hl file List.mem_cons_self)
      have hrecords : recordsOf d.volume magic file 0 = d.recordsIn magic file.id := by
        rw [recordsIn, readIn, hfile]
      rw [List.flatMap_cons, List.filter_append,
        ← ih fun f hf => hl f (List.mem_cons_of_mem file hf), hrecords]
      by_cases hlow : c.fileId ≤ file.id
      · rw [List.filter_cons_of_pos (by simpa using hlow), List.flatMap_cons,
          (fileFrom_eq hc hfile hlow).1]
      · -- files before the cursor's have no record at it or after it
        have hnone : (d.recordsIn magic file.id).filter (fun r => c ≤ r.position) = [] := by
          rw [List.filter_eq_nil_iff]
          intro r hr
          rw [decide_eq_true_eq, Cursor.le_iff]
          have hid : r.position.fileId = file.id := (mem_recordsIn hr).1
          omega
        rw [List.filter_cons_of_neg (by simpa using hlow), hnone, List.nil_append]
  exact hfiles d.files.values fun _ h => h

/-- Where the scan of a file is taken up, and what it then yields. -/
theorem resumes (magic : UInt32) (hfile : d.files.get? file.id = some file) (hle : c.fileId ≤ file.id) :
    ∃ offset scanner fault, c.resumeOffset file.id = some offset ∧
      offset = (if file.id = c.fileId then c.offset else 0) ∧
      Scanner.openFile d.volume file magic offset = .ok scanner ∧
      scanner.scannedTo = min offset (d.bytes file.id).length ∧
      Scans file.id magic (d.bytes file.id) scanner.scannedTo (d.fileFrom magic c file.id)
        (d.stopIn magic file.id offset) fault ∧
      scanner.scanAll = scanItems file.id (d.fileFrom magic c file.id)
        (d.stopIn magic file.id offset) fault := by
  have hresume := resumeOffset_eq hle
  generalize hoffset : (if file.id = c.fileId then c.offset else 0) = offset at hresume
  have hread : d.fileFrom magic c file.id = d.readIn magic file.id offset := by
    unfold fileFrom
    rw [hresume]
  obtain ⟨fault, hscan, hopens⟩ := d.scansAt magic file.id offset
  obtain ⟨scanner, hopen, hplace, hall⟩ := hopens file hfile
  rw [← hread] at hscan hall
  rw [← hplace] at hscan
  exact ⟨offset, scanner, fault, hresume, rfl, hopen, hplace, hscan, hall⟩

end Directory

section Scan

variable {d : Directory} {magic : UInt32} {c : Cursor} {l : List BlockFile}

/-- Every file of an outcome is scanned up to a boundary. -/
def Outcome.Aligned (o : Outcome) (d : Directory) (magic : UInt32) : Prop :=
  d.Aligned magic o.stop ∧
    ∀ id n, o.scanned.get? id = some n → Boundary id magic (d.bytes id) n

/-- An outcome stays within the files. -/
structure Outcome.Within (o : Outcome) (d : Directory) (c : Cursor) : Prop where
  stop : o.stop = c ∨ ((∃ file, d.files.get? o.stop.fileId = some file) ∧
    o.stop.offset ≤ (d.bytes o.stop.fileId).length)
  scanned : ∀ id n, o.scanned.get? id = some n → n ≤ (d.bytes id).length

theorem Outcome.Aligned.insert {scanned : FileMap Nat} {stop : Cursor} {id place : Nat}
    (h : Outcome.Aligned ⟨stop, scanned⟩ d magic) (hb : Boundary id magic (d.bytes id) place) :
    Outcome.Aligned ⟨⟨id, place⟩, scanned.insert id place⟩ d magic := by
  refine ⟨fun _ _ => hb, ?_⟩
  intro other n hn
  rcases FileMap.get?_insert_eq_some_iff.1 hn with ⟨rfl, rfl⟩ | ⟨_, hold⟩
  · exact hb
  · exact h.2 other n hold

theorem Outcome.Within.insert {scanned : FileMap Nat} {stop : Cursor} {id place : Nat}
    {file : BlockFile} (h : Outcome.Within ⟨stop, scanned⟩ d c)
    (hfile : d.files.get? id = some file) (hplace : place ≤ (d.bytes id).length) :
    Outcome.Within ⟨⟨id, place⟩, scanned.insert id place⟩ d c := by
  refine ⟨Or.inr ⟨⟨file, hfile⟩, hplace⟩, ?_⟩
  intro other n hn
  rcases FileMap.get?_insert_eq_some_iff.1 hn with ⟨rfl, rfl⟩ | ⟨_, hold⟩
  · exact hplace
  · exact h.scanned other n hold

/-- How a scan of some files from a position goes on after what came before: what it feeds, what it
leaves, and where it stops. -/
structure Sweep (d : Directory) (magic : UInt32) (c : Cursor) (target : Option Nat) (p : Progress)
    (l : List BlockFile) (before last : Outcome) (fed left : List Record) : Prop where
  split : (l.flatMap fun file => d.fileFrom magic c file.id) = fed ++ left
  within : before.Within d c → last.Within d c
  aligned : d.Aligned magic c → before.Aligned d magic → last.Aligned d magic
  others : ∀ id, (∀ file ∈ l, file.id ≠ id) → last.scanned.get? id = before.scanned.get? id
  passed : ∀ file ∈ l, file.id < last.stop.fileId → (last.scanned.get? file.id).isSome
  /-- It stops in one of the files unless nothing is opened. -/
  stop : (last = before ∧ (l = [] ∨ p.reached target = true)) ∨
    ∃ file ∈ l, last.stop.fileId = file.id ∧
      last.scanned.get? file.id = some last.stop.offset ∧
      min (if file.id = c.fileId then c.offset else 0) (d.bytes file.id).length ≤ last.stop.offset
  read : ∀ r ∈ fed, (last.scanned.get? r.fileId).isSome ∧ r.position < last.stop
  beyond : ∀ r ∈ left, last.stop ≤ r.position
  /-- It stops at its target or where nothing is left. -/
  ends : (p.feed fed).reached target = true ∨ left = [] ∧
    ∀ file ∈ l, file.id ≤ last.stop.fileId ∧ (file.id = last.stop.fileId →
      ∃ fault, Scans file.id magic (d.bytes file.id) last.stop.offset [] last.stop.offset fault)

/-- How the scan of one of the files goes: what it feeds, what it leaves, and how far it comes. -/
structure Stretch (d : Directory) (magic : UInt32) (c : Cursor) (file : BlockFile)
    (front back : List Record) (place : Nat) : Prop where
  listed : d.files.get? file.id = some file
  split : d.fileFrom magic c file.id = front ++ back
  forth : min (if file.id = c.fileId then c.offset else 0) (d.bytes file.id).length ≤ place
  ends : ∀ r ∈ front, r.endOffset ≤ place
  rest : ∃ stop fault, Scans file.id magic (d.bytes file.id) place back stop fault
  boundary : d.Aligned magic c → Boundary file.id magic (d.bytes file.id) place

namespace Stretch

variable {file : BlockFile} {front back : List Record} {place : Nat}

theorem inside (h : Stretch d magic c file front back place) :
    place ≤ (d.bytes file.id).length := by
  obtain ⟨stop, fault, hscans⟩ := h.rest
  exact Nat.le_trans hscans.bounds.1 hscans.bounds.2

theorem mem_front (h : Stretch d magic c file front back place) {r : Record} (hr : r ∈ front) :
    r.fileId = file.id ∧ r.offset < place := by
  have hin : r ∈ d.fileFrom magic c file.id := by
    rw [h.split]
    exact List.mem_append_left _ hr
  have hend := h.ends r hr
  have hpos := r.endOffset_eq
  exact ⟨(Directory.mem_fileFrom hin).2.1, by omega⟩

theorem mem_back (h : Stretch d magic c file front back place) {r : Record} (hr : r ∈ back) :
    r.fileId = file.id ∧ place ≤ r.offset := by
  obtain ⟨stop, fault, hscans⟩ := h.rest
  exact ⟨(readAt_ok (hscans.mem hr).2.2.2).1, (hscans.mem hr).1⟩

end Stretch

theorem scanFiles_cons {file : BlockFile} (rest : List BlockFile) (magic : UInt32)
    (target : Option Nat) (p : Progress) (outcome : Outcome)
    (hfile : d.files.get? file.id = some file) (hle : c.fileId ≤ file.id) :
    ∃ front back place, ∃ reached : Bool, Stretch d magic c file front back place ∧
      p.scanFiles d.volume magic target c outcome (file :: rest)
        = (if reached then
            (.ok ⟨⟨file.id, place⟩, outcome.scanned.insert file.id place⟩, p.feed front)
          else (p.feed front).scanFiles d.volume magic target c
            ⟨⟨file.id, place⟩, outcome.scanned.insert file.id place⟩ rest) ∧
      (if reached then (p.feed front).reached target = true
        else back = [] ∧ ∃ fault, Scans file.id magic (d.bytes file.id) place [] place fault) := by
  obtain ⟨offset, scanner, fault, hresume, hoffset, hopen, hplace, hscans, hall⟩ :=
    Directory.resumes magic hfile hle
  obtain ⟨front, back, place, reached, hsplit, hitems, hforth, hback, hfront, hends⟩ :=
    Progress.scanItems_spec target p hscans
  have hstretch : Stretch d magic c file front back place :=
    { listed := hfile
      split := hsplit
      forth := by
        rw [← hoffset, ← hplace]
        exact hforth
      ends := hfront
      rest := ⟨_, fault, hback⟩
      boundary := by
        -- where the scan of the file stops it can be taken up
        intro hc
        have hb := (Directory.fileFrom_eq hc hfile hle).2
        rw [← hoffset] at hb
        rw [hplace, Nat.min_eq_left hb.le_length] at hscans hforth
        rw [hsplit] at hscans
        exact hb.advance hscans hback hforth hfront }
  refine ⟨front, back, place, reached, hstretch, ?_, ?_⟩
  · rw [Progress.scanFiles, hresume]
    dsimp only
    rw [hopen]
    dsimp only
    rw [hall, hitems]
  · cases reached with
    | true => exact hends
    | false =>
      obtain ⟨rfl, rfl⟩ := hends
      exact ⟨rfl, fault, hback⟩

section Stretched

variable {file : BlockFile} {front back fed left : List Record} {place : Nat}
  {target : Option Nat} {p : Progress} {outcome last : Outcome}

theorem Stretch.sweep_reached (h : Stretch d magic c file front back place)
    (hlater : ∀ g ∈ l, file.id < g.id) (hreached : (p.feed front).reached target = true) :
    Sweep d magic c target p (file :: l) outcome
      ⟨⟨file.id, place⟩, outcome.scanned.insert file.id place⟩ front
      (back ++ l.flatMap fun file => d.fileFrom magic c file.id) where
  split := by rw [List.flatMap_cons, h.split, List.append_assoc]
  within := fun hw => hw.insert h.listed h.inside
  aligned := fun hc houtcome => houtcome.insert (h.boundary hc)
  others := by
    intro id hid
    rw [FileMap.get?_insert, if_neg (Ne.symm (hid file List.mem_cons_self))]
  passed := by
    intro g hg hlt
    rcases List.mem_cons.1 hg with rfl | hg
    · exact absurd hlt (Nat.lt_irrefl _)
    · exact absurd hlt (Nat.lt_asymm (hlater g hg))
  stop :=
    Or.inr ⟨file, List.mem_cons_self, rfl, by rw [FileMap.get?_insert, if_pos rfl], h.forth⟩
  read := by
    intro r hr
    obtain ⟨hid, hlt⟩ := h.mem_front hr
    rw [FileMap.get?_insert, if_pos hid]
    exact ⟨rfl, (Cursor.lt_def _ _).2 (Or.inr ⟨hid, hlt⟩)⟩
  beyond := by
    intro r hr
    rw [Cursor.le_iff]
    rcases List.mem_append.1 hr with hr | hr
    · obtain ⟨hid, hle⟩ := h.mem_back hr
      exact Or.inr ⟨hid.symm, hle⟩
    · obtain ⟨g, hg, hr⟩ := List.mem_flatMap.1 hr
      have hid : r.fileId = g.id := (Directory.mem_fileFrom hr).2.1
      have hlt := hlater g hg
      left
      show file.id < r.fileId
      omega
  ends := Or.inl hreached

theorem Stretch.sweep_on (h : Stretch d magic c file front [] place)
    (hlater : ∀ g ∈ l, file.id < g.id)
    (hend : ∃ fault, Scans file.id magic (d.bytes file.id) place [] place fault)
    (hrest : Sweep d magic c target (p.feed front) l
      ⟨⟨file.id, place⟩, outcome.scanned.insert file.id place⟩ last fed left) :
    Sweep d magic c target p (file :: l) outcome last (front ++ fed) left := by
  have hmine : last.scanned.get? file.id = some place := by
    rw [hrest.others file.id fun g hg => Nat.ne_of_gt (hlater g hg), FileMap.get?_insert,
      if_pos rfl]
  -- the scan stops in this file or in a later one
  have hstop : last.stop = ⟨file.id, place⟩ ∨ file.id < last.stop.fileId := by
    rcases hrest.stop with ⟨rfl, _⟩ | ⟨g, hg, heq, _⟩
    · exact Or.inl rfl
    · exact Or.inr (heq ▸ hlater g hg)
  constructor
  case split => rw [List.flatMap_cons, h.split, List.append_nil, hrest.split, List.append_assoc]
  case within => exact fun hw => hrest.within (hw.insert h.listed h.inside)
  case aligned =>
    exact fun hc houtcome => hrest.aligned hc (houtcome.insert (h.boundary hc))
  case others =>
    intro id hid
    rw [hrest.others id fun g hg => hid g (List.mem_cons_of_mem file hg), FileMap.get?_insert,
      if_neg (Ne.symm (hid file List.mem_cons_self))]
  case passed =>
    intro g hg hlt
    rcases List.mem_cons.1 hg with rfl | hg
    · rw [hmine]
      rfl
    · exact hrest.passed g hg hlt
  case stop =>
    rcases hrest.stop with ⟨rfl, _⟩ | ⟨g, hg, hplace⟩
    · exact Or.inr ⟨file, List.mem_cons_self, rfl, hmine, h.forth⟩
    · exact Or.inr ⟨g, List.mem_cons_of_mem file hg, hplace⟩
  case read =>
    intro r hr
    rcases List.mem_append.1 hr with hr | hr
    · obtain ⟨hid, hlt⟩ := h.mem_front hr
      refine ⟨by rw [hid, hmine]; rfl, (Cursor.lt_def _ _).2 ?_⟩
      rcases hstop with heq | hbeyond
      · rw [heq]
        exact Or.inr ⟨hid, hlt⟩
      · exact Or.inl (Nat.lt_of_le_of_lt (Nat.le_of_eq hid) hbeyond)
    · exact hrest.read r hr
  case beyond => exact hrest.beyond
  case ends =>
    rw [Progress.feed_append]
    refine hrest.ends.imp_right fun hleft => ⟨hleft.1, ?_⟩
    intro g hg
    rcases List.mem_cons.1 hg with rfl | hg
    · rcases hstop with heq | hbeyond
      · rw [heq]
        exact ⟨Nat.le_refl _, fun _ => hend⟩
      · exact ⟨Nat.le_of_lt hbeyond, fun heq => absurd heq (Nat.ne_of_lt hbeyond)⟩
    · exact hleft.2 g hg

end Stretched

/-- What a scan feeds and where it stops, whatever its target. -/
theorem scanFiles_spec (magic : UInt32) (target : Option Nat) (p : Progress) (outcome : Outcome)
    (hl : ∀ file ∈ l, d.files.get? file.id = some file ∧ c.fileId ≤ file.id)
    (hsorted : l.Pairwise fun f g => f.id < g.id) :
    ∃ fed left last, p.scanFiles d.volume magic target c outcome l = (.ok last, p.feed fed) ∧
      Sweep d magic c target p l outcome last fed left := by
  induction l generalizing p outcome with
  | nil =>
    exact ⟨[], [], outcome, rfl, rfl, id, fun _ => id, fun _ _ => rfl, by simp,
      Or.inl ⟨rfl, Or.inl rfl⟩, by simp, by simp, Or.inr ⟨rfl, by simp⟩⟩
  | cons file rest ih =>
    obtain ⟨hfile, hle⟩ := hl file List.mem_cons_self
    obtain ⟨hlater, hrest⟩ := List.pairwise_cons.1 hsorted
    obtain ⟨front, back, place, reached, hstretch, hscan, hends⟩ :=
      scanFiles_cons rest magic target p outcome hfile hle
    rw [hscan]
    cases reached with
    | true => exact ⟨front, _, _, rfl, hstretch.sweep_reached hlater hends⟩
    | false =>
      obtain ⟨rfl, hend⟩ := hends
      obtain ⟨fed, left, last, hrun, hsweep⟩ := ih (p.feed front)
        ⟨⟨file.id, place⟩, outcome.scanned.insert file.id place⟩
        (fun g hg => hl g (List.mem_cons_of_mem file hg)) hrest
      refine ⟨front ++ fed, left, last, ?_, hstretch.sweep_on hlater hend hsweep⟩
      rw [Progress.feed_append]
      exact hrun

end Scan

/-! ## The scan of a directory -/

section ScanFrom

variable {config : Config} {d : Directory} {a : Assembler} {c : Cursor}

theorem listed_fromId (d : Directory) (id : Nat) :
    ∀ file ∈ d.files.fromId id, d.files.get? file.id = some file ∧ id ≤ file.id := fun _ hfile =>
  ⟨Directory.get?_of_mem (Directory.mem_fromId.1 hfile).1, (Directory.mem_fromId.1 hfile).2⟩

/-- **The scan of a directory.**  It feeds the first of what is to be read, and stops before the
rest. -/
theorem scanFrom_spec (config : Config) (d : Directory) (a : Assembler) (c : Cursor) :
    ∃ fed left outcome,
      scanFrom config d.volume d.files a c = (.ok outcome, (Progress.start a).feed fed) ∧
      Sweep d config.network.magic c config.stopHeight (Progress.start a) (d.files.fromId c.fileId)
        ⟨c, FileMap.empty⟩ outcome fed left := by
  unfold scanFrom
  dsimp only
  cases hreached : (Progress.start a).reached config.stopHeight with
  | true =>
    rw [if_pos rfl]
    refine ⟨[], _, ⟨c, FileMap.empty⟩, rfl, rfl, id, fun _ => id, fun _ _ => rfl, ?_,
      Or.inl ⟨rfl, Or.inr hreached⟩, by simp, ?_, Or.inl hreached⟩
    · intro file hfile hlt
      exact absurd hlt (Nat.not_lt_of_le (Directory.mem_fromId.1 hfile).2)
    · intro r hr
      exact (Directory.mem_readFrom hr).2
  | false =>
    rw [if_neg (by simp)]
    exact scanFiles_spec config.network.magic config.stopHeight (Progress.start a)
      ⟨c, FileMap.empty⟩ (listed_fromId d c.fileId) (d.values_sorted.filter _)

theorem stopHeight_of_endHeight {config : Config} (h : config.endHeight = none) :
    config.stopHeight = none := by
  unfold Config.stopHeight Config.scanTarget
  rw [h]
  split <;> rfl

/-- **The scan of a whole directory**, when there is no target: nothing is left, and it is known of
every file from the cursor's on how far it is scanned. -/
theorem Sweep.whole {magic : UInt32} {p : Progress} {last : Outcome} {fed left : List Record}
    (h : Sweep d magic c none p (d.files.fromId c.fileId) ⟨c, FileMap.empty⟩ last fed left) :
    left = [] ∧ ∀ id file, d.files.get? id = some file →
      (last.scanned.get? id).isSome = decide (c.fileId ≤ id) := by
  obtain ⟨hleft, hlast⟩ := h.ends.resolve_left (by simp [Progress.reached])
  refine ⟨hleft, ?_⟩
  intro id file hfile
  have hid := (d.file_id hfile).1
  by_cases hle : c.fileId ≤ id
  · rw [decide_eq_true hle]
    have hmem : file ∈ d.files.fromId c.fileId :=
      Directory.mem_fromId.2 ⟨Directory.mem_values hfile, hid ▸ hle⟩
    rw [← hid]
    rcases Nat.lt_or_eq_of_le (hlast file hmem).1 with hlt | heq
    · exact h.passed file hmem hlt
    · rcases h.stop with ⟨_, hnil | hreached⟩ | ⟨g, _, hg, hstop, _⟩
      · rw [hnil] at hmem
        simp at hmem
      · simp [Progress.reached] at hreached
      · rw [heq, hg, hstop]
        rfl
  · rw [decide_eq_false hle, h.others id, FileMap.get?_empty]
    · rfl
    · intro g hg heq
      exact hle (heq ▸ (Directory.mem_fromId.1 hg).2)

/-- The files from the one on at which a scan stopped. -/
theorem Sweep.fromId_stop {magic : UInt32} {target : Option Nat} {p : Progress} {last : Outcome}
    {fed left : List Record}
    (h : Sweep d magic c target p (d.files.fromId c.fileId) ⟨c, FileMap.empty⟩ last fed left)
    (hforth : c ≤ last.stop) (hends : (p.feed fed).reached target = false) :
    d.files.fromId last.stop.fileId = [] ∨ ∃ file fault,
      d.files.fromId last.stop.fileId = [file] ∧ file.id = last.stop.fileId ∧
      Scans file.id magic (d.bytes file.id) last.stop.offset [] last.stop.offset fault ∧
      last.scanned.get? file.id = some last.stop.offset := by
  have hlast := (h.ends.resolve_left (by rw [hends]; simp)).2
  have hids : ∀ file ∈ d.files.fromId last.stop.fileId,
      file ∈ d.files.fromId c.fileId ∧ file.id = last.stop.fileId := by
    intro file hfile
    obtain ⟨hmem, hle⟩ := Directory.mem_fromId.1 hfile
    have hin : file ∈ d.files.fromId c.fileId := by
      refine Directory.mem_fromId.2 ⟨hmem, ?_⟩
      rw [Cursor.le_iff] at hforth
      omega
    exact ⟨hin, Nat.le_antisymm (hlast file hin).1 hle⟩
  have hsorted : (d.files.fromId last.stop.fileId).Pairwise fun f g => f.id < g.id :=
    d.values_sorted.filter _
  match hfiles : d.files.fromId last.stop.fileId with
  | [] => exact Or.inl rfl
  | file :: rest =>
    rw [hfiles] at hids hsorted
    obtain ⟨hin, hid⟩ := hids file List.mem_cons_self
    obtain ⟨fault, hscans⟩ := (hlast file hin).2 hid
    refine Or.inr ⟨file, fault, ?_, hid, hscans, ?_⟩
    · -- no other file has its id
      rw [List.cons.injEq, List.eq_nil_iff_forall_not_mem]
      refine ⟨rfl, fun g hg => ?_⟩
      have hlt := (List.pairwise_cons.1 hsorted).1 g hg
      have hsame := (hids g (List.mem_cons_of_mem file hg)).2
      omega
    · rcases h.stop with ⟨rfl, hnil | hreached⟩ | ⟨g, _, hg, hplace, _⟩
      · rw [hnil] at hin
        simp at hin
      · -- nothing was opened, so nothing was read
        have hnone : fed = [] := by
          rw [List.eq_nil_iff_forall_not_mem]
          intro r hr
          simpa using (h.read r hr).1
        rw [hnone] at hends
        rw [show p.feed [] = p from rfl, hreached] at hends
        simp at hends
      · rw [hid, hg]
        exact hplace

/-- **A scan that is taken up where one stopped** reads nothing and stops there again. -/
theorem scanFrom_again {p : Progress} {last : Outcome} {fed left : List Record}
    (h : Sweep d config.network.magic c config.stopHeight p (d.files.fromId c.fileId)
      ⟨c, FileMap.empty⟩ last fed left)
    (hforth : c ≤ last.stop)
    (hsame : (Progress.start a).reached config.stopHeight
      = (p.feed fed).reached config.stopHeight) :
    ∃ scanned, scanFrom config d.volume d.files a last.stop
        = (.ok ⟨last.stop, scanned⟩, Progress.start a) ∧
      ∀ id n, scanned.get? id = some n → last.scanned.get? id = some n := by
  unfold scanFrom
  dsimp only
  cases hreached : (Progress.start a).reached config.stopHeight with
  | true =>
    rw [if_pos rfl]
    exact ⟨FileMap.empty, rfl, by simp⟩
  | false =>
    rw [if_neg (by simp)]
    rw [hreached] at hsame
    rcases h.fromId_stop hforth hsame.symm with hnil | ⟨file, fault, hfiles, hid, hscans, hplace⟩
    · rw [hnil]
      exact ⟨FileMap.empty, rfl, by simp⟩
    · rw [hfiles]
      have hmem : file ∈ d.files.fromId last.stop.fileId := by
        rw [hfiles]
        exact List.mem_singleton.2 rfl
      obtain ⟨hfile, hle⟩ := listed_fromId d last.stop.fileId file hmem
      obtain ⟨offset, scanner, fault', hresume, hoffset, hopen, hstart, hall, hitems⟩ :=
        Directory.resumes config.network.magic hfile hle
      rw [if_pos hid] at hoffset
      rw [hoffset] at hresume hopen hstart
      rw [Nat.min_eq_left hscans.bounds.2] at hstart
      rw [hstart] at hall
      obtain ⟨hnone, hstop, _⟩ := hscans.unique hall
      rw [hnone] at hall hitems
      rw [hstop] at hall hitems
      obtain ⟨front, back, place, reached, hsplit, hscan, _, _, _, hends⟩ :=
        Progress.scanItems_spec config.stopHeight (Progress.start a) hall
      obtain ⟨rfl, rfl⟩ := List.append_eq_nil_iff.1 hsplit.symm
      refine ⟨FileMap.empty.insert file.id last.stop.offset, ?_, ?_⟩
      · have hmine : reached = false ∧ place = last.stop.offset := by
          cases reached with
          | true =>
            have htrue : (Progress.start a).reached config.stopHeight = true := hends
            rw [hreached] at htrue
            simp at htrue
          | false => exact ⟨rfl, hends.2⟩
        rw [hmine.1, hmine.2] at hscan
        rw [Progress.scanFiles, hresume]
        dsimp only
        rw [hopen]
        dsimp only
        rw [hitems, hstart, hscan]
        dsimp only
        rw [if_neg (by simp), Progress.scanFiles, hid]
        rfl
      · intro id n hn
        rcases FileMap.get?_insert_eq_some_iff.1 hn with ⟨rfl, rfl⟩ | ⟨_, hold⟩
        · exact hplace
        · simp at hold

end ScanFrom

end BlockIndex
