import BlockIndex.Config
import BlockIndex.Proofs.BlockFile.Scanning
import BlockIndex.Proofs.Cursor
import BlockIndex.Proofs.FileMap
import BlockIndex.Proofs.Store.Encoding
import BlockIndex.Proofs.Volume.Naming

/-!
# Block directories

A block directory as a run finds it: the files that `BlockFiles.discover` lists, each of which can
be opened and is as long as it was listed.

* `recordsOf`, `scanEnd`   what scanning a block file from an offset yields, and how far it comes;
* `Directory`              a directory, `Directory.bytes` its files' bytes;
* `Directory.records`      what scanning every file from its beginning yields, by position;
* `Directory.Lies`         a record lies in a file, whether or not a scan from the beginning yields it;
* `Directory.Aligned`      a position at which a scan of the directory can be taken up;
* `Directory.at?`          the directory at a path of a volume, as far as there is one.

Main statements: `Directory.scansAt`, `Directory.readIn_eq`, `Directory.records_sorted`,
`Directory.Lies.fits`.
-/

namespace BlockIndex

/-- The records that scanning a block file from an offset yields. -/
def recordsOf (v : Volume) (magic : UInt32) (file : BlockFile) (offset : Nat) : List Record :=
  match Scanner.openFile v file magic offset with
  | .ok scanner => scanner.scanAll.filterMap fun item => item.1.toOption
  | .error _ => []

/-- How far scanning a block file from an offset comes. -/
def scanEnd (v : Volume) (magic : UInt32) (file : BlockFile) (offset : Nat) : Nat :=
  match Scanner.openFile v file magic offset with
  | .ok scanner => scanner.endOf scanner.scanAll
  | .error _ => 0

/-- A listed block file can be opened and is as long as it was listed; its bytes can be read. -/
def BlockFile.Readable (v : Volume) (file : BlockFile) : Prop :=
  ∃ id stored, v.find file.path = .ok id ∧ v.file? id = some stored ∧
    stored.content.data.length = file.len ∧ file.len < Volume.offsetLimit

/-- A block directory as a run finds it. -/
structure Directory where
  volume : Volume
  path : Path
  files : BlockFiles
  found : BlockFiles.discover volume path = .ok files
  readable : ∀ file ∈ files.values, file.Readable volume

/-! ## Items of a scan -/

section Items

variable {fileId stop : Nat} {rs : List Record} {fault : Option RecordFault}

theorem records_scanItems :
    (scanItems fileId rs stop fault).filterMap (fun item => item.1.toOption) = rs := by
  have hfault : (faultItems fileId stop fault).filterMap (fun item => item.1.toOption) = [] := by
    cases fault with
    | none => rfl
    | some f => rfl
  have hrecords : (rs.map fun r => ((.ok r, r.endOffset) : Except Error Record × Nat)).filterMap
      (fun item => item.1.toOption) = rs := by
    rw [List.filterMap_map]
    exact List.filterMap_some
  rw [scanItems, List.filterMap_append, hrecords, hfault, List.append_nil]

theorem Scans.last_item {magic : UInt32} {bytes : Bytes} {p : Nat}
    (h : Scans fileId magic bytes p rs stop fault) :
    (match (scanItems fileId rs stop fault).getLast? with
      | some item => item.2
      | none => p) = stop := by
  induction h with
  | quiet _ _ => rfl
  | broken _ _ => rfl
  | @record _ _ stop r rs fault _ _ _ ih =>
    rw [scanItems] at ih
    rw [scanItems, List.map_cons, List.cons_append, List.getLast?_cons]
    -- what comes before the rest is the end of the record
    cases hrest : (rs.map (fun r => ((.ok r, r.endOffset) : Except Error Record × Nat))
        ++ faultItems fileId stop fault).getLast? with
    | none =>
      rw [hrest] at ih
      exact ih
    | some item =>
      rw [hrest] at ih
      exact ih

theorem Scans.endOf {magic : UInt32} {bytes : Bytes} {offset : Nat} {path : Path}
    (h : Scans fileId magic bytes (min offset bytes.length) rs stop fault) :
    (Scanner.ofBytes fileId path magic bytes.length bytes offset).endOf
      (scanItems fileId rs stop fault) = stop := by
  rw [Scanner.endOf]
  exact h.last_item

theorem ofBytes_min (fileId : Nat) (path : Path) (magic : UInt32) (bytes : Bytes) (offset : Nat) :
    Scanner.ofBytes fileId path magic bytes.length bytes offset
      = Scanner.ofBytes fileId path magic bytes.length bytes (min offset bytes.length) := by
  unfold Scanner.ofBytes
  rw [Nat.min_eq_left (Nat.min_le_right offset bytes.length)]

end Items

/-! ## Listed files -/

theorem collect_eq_ok {found files : BlockFiles} {l : List BlockFile}
    (h : BlockFiles.collect found l = .ok files) {id : Nat} {file : BlockFile}
    (hget : files.get? id = some file) :
    found.get? id = some file ∨ (file ∈ l ∧ file.id = id) := by
  induction l generalizing found with
  | nil =>
    obtain rfl := Except.ok.inj h
    exact Or.inl hget
  | cons f rest ih =>
    rw [BlockFiles.collect] at h
    cases hf : found.get? f.id with
    | some first =>
      rw [hf] at h
      simp at h
    | none =>
      rw [hf] at h
      rcases ih h with hinsert | ⟨hmem, hid⟩
      · rcases FileMap.get?_insert_eq_some_iff.1 hinsert with ⟨rfl, rfl⟩ | ⟨_, hold⟩
        · exact Or.inr ⟨List.mem_cons_self, rfl⟩
        · exact Or.inl hold
      · exact Or.inr ⟨List.mem_cons_of_mem f hmem, hid⟩

namespace Directory

variable {d : Directory} {magic : UInt32} {id : Nat} {file : BlockFile} {r : Record} {c : Cursor}

theorem file_id (h : d.files.get? id = some file) : file.id = id ∧ id < 0x1_0000_0000 := by
  have hfound := d.found
  unfold BlockFiles.discover at hfound
  split at hfound
  · next entries _ =>
    rcases collect_eq_ok hfound h with hnone | ⟨hmem, hid⟩
    · rw [FileMap.get?_empty] at hnone
      simp at hnone
    · refine ⟨hid, ?_⟩
      obtain ⟨entry, _, hof⟩ := List.mem_filterMap.1 hmem
      unfold BlockFiles.ofMember? at hof
      split at hof
      · simp at hof
      · next n hn =>
        obtain ⟨_, _, _, hlt⟩ := parseFileId_eq_some_iff.1 hn
        split at hof
        · rw [← hid, ← Option.some.inj hof]
          exact hlt
        · simp at hof
  · simp at hfound

theorem mem_values (h : d.files.get? id = some file) : file ∈ d.files.values :=
  FileMap.mem_values_iff.2 ⟨id, h⟩

theorem get?_of_mem (h : file ∈ d.files.values) : d.files.get? file.id = some file := by
  obtain ⟨id, hid⟩ := FileMap.mem_values_iff.1 h
  rw [(d.file_id hid).1]
  exact hid

/-- The bytes of the file of an id, none if there is no such file. -/
def bytes (d : Directory) (id : Nat) : Bytes :=
  match d.files.get? id with
  | none => []
  | some file =>
    match d.volume.openFile file.path with
    | .ok node => d.volume.bytesOf node
    | .error _ => []

/-- What scanning the file of an id from an offset yields. -/
def readIn (d : Directory) (magic : UInt32) (id offset : Nat) : List Record :=
  match d.files.get? id with
  | none => []
  | some file => recordsOf d.volume magic file offset

/-- How far scanning the file of an id from an offset comes. -/
def stopIn (d : Directory) (magic : UInt32) (id offset : Nat) : Nat :=
  match d.files.get? id with
  | none => 0
  | some file => scanEnd d.volume magic file offset

/-- What scanning the file of an id from its beginning yields. -/
def recordsIn (d : Directory) (magic : UInt32) (id : Nat) : List Record := d.readIn magic id 0

/-- How far scanning the file of an id from its beginning comes. -/
def endIn (d : Directory) (magic : UInt32) (id : Nat) : Nat := d.stopIn magic id 0

/-- What scanning every file from its beginning yields. -/
def records (d : Directory) (magic : UInt32) : List Record :=
  d.files.values.flatMap fun file => recordsOf d.volume magic file 0

/-- A record lies in a file: it is read where the magic stands at its offset. -/
def Lies (d : Directory) (magic : UInt32) (r : Record) : Prop :=
  (∃ file, d.files.get? r.fileId = some file) ∧ MarkAt magic (d.bytes r.fileId) r.offset ∧
    readAt r.fileId (d.bytes r.fileId) r.offset = .ok r

/-- A scan of the directory can be taken up at a position. -/
def Aligned (d : Directory) (magic : UInt32) (c : Cursor) : Prop :=
  ∀ file, d.files.get? c.fileId = some file →
    Boundary c.fileId magic (d.bytes c.fileId) c.offset

/-! ## Files -/

theorem opens (h : d.files.get? id = some file) :
    ∃ node, d.volume.find file.path = .ok node ∧ d.volume.isDirectory node = false ∧
      d.volume.openFile file.path = .ok node ∧ d.volume.bytesOf node = d.bytes id ∧
      (d.bytes id).length = file.len ∧ file.len < 0x8000_0000_0000_0000 := by
  obtain ⟨node, stored, hfind, hfile, hlen, hlimit⟩ := d.readable file (mem_values h)
  have hkind := Volume.isDirectory_of_file hfile
  have hopen : d.volume.openFile file.path = .ok node := by
    unfold Volume.openFile
    rw [hfind]
    dsimp only
    rw [hkind]
    rfl
  have hbytes : d.volume.bytesOf node = d.bytes id := by
    unfold bytes
    rw [h]
    dsimp only
    rw [hopen]
  refine ⟨node, hfind, hkind, hopen, hbytes, ?_, hlimit⟩
  rw [← hbytes, Volume.bytesOf, hfile]
  exact hlen

theorem length_bytes (h : d.files.get? id = some file) :
    (d.bytes id).length = file.len ∧ file.len < 0x8000_0000_0000_0000 := by
  obtain ⟨_, _, _, _, _, hlen, hlimit⟩ := opens h
  exact ⟨hlen, hlimit⟩

theorem openFile_scanner (h : d.files.get? id = some file) (offset : Nat) :
    Scanner.openFile d.volume file magic offset
      = .ok (Scanner.ofBytes id file.path magic (d.bytes id).length (d.bytes id) offset) := by
  obtain ⟨node, _, _, hopen, hbytes, _⟩ := opens h
  unfold Scanner.openFile
  rw [hopen]
  dsimp only
  rw [hbytes, (d.file_id h).1]

theorem bytes_of_none (h : d.files.get? id = none) : d.bytes id = [] := by
  unfold bytes
  rw [h]

/-- The file of an id is scanned from any offset, also if there is none. -/
theorem scansAt (d : Directory) (magic : UInt32) (id offset : Nat) :
    ∃ fault, Scans id magic (d.bytes id) (min offset (d.bytes id).length)
        (d.readIn magic id offset) (d.stopIn magic id offset) fault ∧
      ∀ file, d.files.get? id = some file → ∃ scanner,
        Scanner.openFile d.volume file magic offset = .ok scanner ∧
        scanner.scannedTo = min offset (d.bytes id).length ∧
        scanner.scanAll
          = scanItems id (d.readIn magic id offset) (d.stopIn magic id offset) fault := by
  cases h : d.files.get? id with
  | none =>
    rw [bytes_of_none h, readIn, stopIn, h, List.length_nil, Nat.min_zero]
    refine ⟨none, Scans.quiet (Nat.le_refl 0) ?_, by simp⟩
    intro q _ hq
    have := hq.room
    simp at this
  | some file =>
    obtain ⟨rs, stop, fault, hscan⟩ := Scans.total id magic (d.bytes id)
      (Nat.min_le_right offset (d.bytes id).length)
    have hall := scanAll_of_scans file.path hscan
    rw [← ofBytes_min] at hall
    have hrecords : d.readIn magic id offset = rs := by
      unfold readIn recordsOf
      rw [h]
      dsimp only
      rw [openFile_scanner h]
      dsimp only
      rw [hall, records_scanItems]
    have hend : d.stopIn magic id offset = stop := by
      unfold stopIn scanEnd
      rw [h]
      dsimp only
      rw [openFile_scanner h]
      dsimp only
      rw [hall, hscan.endOf]
    rw [hrecords, hend]
    refine ⟨fault, hscan, ?_⟩
    intro other hother
    obtain rfl := Option.some.inj hother
    exact ⟨_, openFile_scanner h offset, rfl, hall⟩

theorem scans (d : Directory) (magic : UInt32) (id : Nat) :
    ∃ fault, Scans id magic (d.bytes id) 0 (d.recordsIn magic id) (d.endIn magic id) fault := by
  obtain ⟨fault, hscan, _⟩ := d.scansAt magic id 0
  rw [Nat.zero_min] at hscan
  exact ⟨fault, hscan⟩

/-! ## Records -/

theorem mem_recordsIn (hr : r ∈ d.recordsIn magic id) :
    r.fileId = id ∧ r.offset + 8 + r.length ≤ d.endIn magic id ∧
      MarkAt magic (d.bytes id) r.offset ∧ readAt id (d.bytes id) r.offset = .ok r := by
  obtain ⟨fault, hscan⟩ := d.scans magic id
  obtain ⟨_, hend, hmark, hread⟩ := hscan.mem hr
  exact ⟨(readAt_ok hread).1, hend, hmark, hread⟩

theorem exists_file {offset : Nat} (hr : r ∈ d.readIn magic id offset) :
    ∃ file, d.files.get? id = some file := by
  cases h : d.files.get? id with
  | none =>
    rw [readIn, h] at hr
    simp at hr
  | some file => exact ⟨file, rfl⟩

theorem lies_of_read {offset : Nat} (hr : r ∈ d.readIn magic id offset) : d.Lies magic r := by
  obtain ⟨fault, hscan, _⟩ := d.scansAt magic id offset
  obtain ⟨_, _, hmark, hread⟩ := hscan.mem hr
  obtain rfl := (readAt_ok hread).1
  exact ⟨exists_file hr, hmark, hread⟩

theorem mem_records_iff : r ∈ d.records magic ↔ r ∈ d.recordsIn magic r.fileId := by
  have hof : ∀ {file}, file ∈ d.files.values →
      recordsOf d.volume magic file 0 = d.recordsIn magic file.id := by
    intro file hfile
    rw [recordsIn, readIn, get?_of_mem hfile]
  rw [records, List.mem_flatMap]
  constructor
  · intro h
    obtain ⟨file, hfile, hr⟩ := h
    rw [hof hfile] at hr
    rw [(mem_recordsIn hr).1]
    exact hr
  · intro h
    obtain ⟨file, hfile⟩ := exists_file h
    refine ⟨file, mem_values hfile, ?_⟩
    rw [hof (mem_values hfile), (d.file_id hfile).1]
    exact h

theorem lies_of_mem (hr : r ∈ d.records magic) : d.Lies magic r :=
  lies_of_read (mem_records_iff.1 hr)

theorem Lies.fits (h : d.Lies magic r) :
    r.Fits ∧ r.Genuine ∧ r.endOffset ≤ (d.bytes r.fileId).length := by
  obtain ⟨⟨file, hfile⟩, _, hread⟩ := h
  obtain ⟨hlen, hlimit⟩ := length_bytes hfile
  obtain ⟨_, _, hhash, hend, _⟩ := readAt_ok hread
  have hpos := r.endOffset_eq
  exact ⟨⟨(d.file_id hfile).2, by omega, readAt_length_lt hread⟩, hhash.symm, hend⟩

theorem Lies.room (h : d.Lies magic r) :
    r.offset + 88 ≤ (d.bytes r.fileId).length ∧ (d.bytes r.fileId).length < 0x8000_0000_0000_0000 := by
  have hend := h.fits.2.2
  obtain ⟨⟨file, hfile⟩, _, hread⟩ := h
  obtain ⟨hlen, hlimit⟩ := length_bytes hfile
  have hsize : 80 ≤ r.length := (readAt_ok hread).2.2.2.2.1
  have hpos := r.endOffset_eq
  omega

theorem values_sorted (d : Directory) : d.files.values.Pairwise fun f g => f.id < g.id := by
  rw [FileMap.values, List.pairwise_map]
  refine List.Pairwise.imp_of_mem ?_ d.files.sorted
  intro p q hp hq hlt
  have hpid := (d.file_id (FileMap.get?_eq_some_iff.2 hp)).1
  have hqid := (d.file_id (FileMap.get?_eq_some_iff.2 hq)).1
  rw [hpid, hqid]
  exact hlt

theorem recordsIn_sorted (d : Directory) (magic : UInt32) (id : Nat) :
    (d.recordsIn magic id).Pairwise fun x y => x.position < y.position := by
  obtain ⟨fault, hscan⟩ := d.scans magic id
  refine List.Pairwise.imp_of_mem ?_ hscan.sorted
  intro x y hx hy hle
  have hpos := x.endOffset_eq
  rw [Cursor.lt_def]
  right
  show x.fileId = y.fileId ∧ x.offset < y.offset
  rw [(mem_recordsIn hx).1, (mem_recordsIn hy).1]
  omega

theorem records_sorted (d : Directory) (magic : UInt32) :
    (d.records magic).Pairwise fun x y => x.position < y.position := by
  have hin : ∀ {file}, file ∈ d.files.values →
      recordsOf d.volume magic file 0 = d.recordsIn magic file.id := by
    intro file hfile
    rw [recordsIn, readIn, get?_of_mem hfile]
  rw [records, List.pairwise_flatMap]
  refine ⟨?_, ?_⟩
  · intro file hfile
    rw [hin hfile]
    exact d.recordsIn_sorted magic file.id
  · refine List.Pairwise.imp_of_mem ?_ d.values_sorted
    intro f g hf hg hlt x hx y hy
    rw [hin hf] at hx
    rw [hin hg] at hy
    rw [Cursor.lt_def]
    left
    show x.fileId < y.fileId
    rw [(mem_recordsIn hx).1, (mem_recordsIn hy).1]
    exact hlt

/-! ## Taking a scan up -/

theorem aligned_zero (id : Nat) : d.Aligned magic ⟨id, 0⟩ :=
  fun _ _ => Boundary.zero id magic (d.bytes id)

theorem aligned_position (hr : r ∈ d.records magic) : d.Aligned magic r.position := by
  intro file _
  rw [mem_records_iff] at hr
  obtain ⟨fault, hscan⟩ := d.scans magic r.fileId
  exact hscan.boundary_offset hr

/-- A scan that starts at a boundary yields what the scan from the beginning yields from there. -/
theorem readIn_eq {offset : Nat} (hb : Boundary id magic (d.bytes id) offset) :
    d.readIn magic id offset = (d.recordsIn magic id).filter (fun r => offset ≤ r.offset) ∧
      d.stopIn magic id offset = d.endIn magic id := by
  obtain ⟨_, hscan⟩ := d.scans magic id
  obtain ⟨_, hrest, _⟩ := d.scansAt magic id offset
  rw [Nat.min_eq_left hb.le_length] at hrest
  obtain ⟨hrecords, hstop, _⟩ := (hb.scans hscan).unique hrest
  exact ⟨hrecords, hstop⟩

/-! ## Directories of a volume -/

instance decidableReadable (v : Volume) (file : BlockFile) : Decidable (file.Readable v) :=
  match hfind : v.find file.path with
  | .error _ => isFalse fun ⟨_, _, h, _⟩ => by
      rw [hfind] at h
      simp at h
  | .ok id =>
    match hfile : v.file? id with
    | none => isFalse fun ⟨_, _, h, h', _⟩ => by
        rw [hfind] at h
        rw [← Except.ok.inj h, hfile] at h'
        simp at h'
    | some stored =>
      if h : stored.content.data.length = file.len ∧ file.len < Volume.offsetLimit then
        isTrue ⟨id, stored, hfind, hfile, h⟩
      else isFalse fun ⟨_, _, h₁, h₂, h₃⟩ => by
        rw [hfind] at h₁
        rw [← Except.ok.inj h₁, hfile] at h₂
        rw [← Option.some.inj h₂] at h₃
        exact h h₃

/-- The directory that a path leads to, if a run can begin there. -/
def at? (v : Volume) (path : Path) : Option Directory :=
  match found : BlockFiles.discover v path with
  | .error _ => none
  | .ok files =>
    if readable : ∀ file ∈ files.values, file.Readable v then
      some ⟨v, path, files, found, readable⟩
    else none

theorem at?_eq_some_iff {v : Volume} {path : Path} :
    at? v path = some d ↔ d.volume = v ∧ d.path = path := by
  unfold at?
  constructor
  · intro h
    split at h
    · simp at h
    · split at h
      · rw [← Option.some.inj h]
        exact ⟨rfl, rfl⟩
      · simp at h
  · intro h
    obtain ⟨rfl, rfl⟩ := h
    split
    · next herror =>
      rw [d.found] at herror
      simp at herror
    · next files found =>
      have hfound := d.found
      rw [found] at hfound
      obtain rfl := Except.ok.inj hfound
      rw [dif_pos d.readable]

end Directory

/-- A volume whose directory `blocks` holds some files. -/
def Volume.ofBlockFiles (files : List (String × StoredFile)) : Volume where
  nodes := (.directory root [("blocks", 1)] ::
    .directory root ((files.map Prod.fst).zipIdx 2) :: files.map fun file => .file file.2).toArray

/-- A record of a block without transactions, as a block file holds it. -/
def Header.framed (magic : UInt32) (header : Header) : Bytes :=
  bytes32 magic ++ bytes32 80 ++ header.encode

/-- A volume whose directory `blocks` holds files of such records. -/
def Volume.ofHeaders (magic : UInt32) (files : List (String × List Header)) : Volume :=
  .ofBlockFiles <| files.map fun file =>
    (file.1, ⟨.bytes (file.2.flatMap (Header.framed magic)), 0⟩)

/-- The options of a run over such a volume, with a cache beside the block files. -/
def cachedConfig : Config :=
  { Config.ofBlockdir ["blocks"] with network := .regtest, cachedir := some ["cache"] }

end BlockIndex
