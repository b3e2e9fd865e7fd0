import BlockIndex.Proofs.BlockFile.Iteration
import BlockIndex.Run.Stale

/-!
# Reading at a position

A record that a scan yields is read again at its position.  The scan went through the bytes from
front to back; a reader goes to an offset and reads so many bytes there, from what it has kept open
or opens anew.

* `Reader.Reaches`   what a reader finds under a file's id are these bytes.

Main statements: `parseRecord_of_readAt` (both ways of reading a record agree),
`Reader.Reaches.readAt`, `Reader.Reaches.rereads`.
-/

namespace BlockIndex

/-- A record is read alike from its front alone. -/
theorem parseRecord_of_readAt {fileId place : Nat} {magic : UInt32} {bytes : Bytes} {r : Record}
    (hmark : MarkAt magic bytes place) (hread : readAt fileId bytes place = .ok r) :
    Reader.parseRecord magic fileId place
      ((bytes.drop place).take (Record.prefixSize + Header.size)) = .ok r := by
  obtain ⟨hfile, hplace, hhash, _, _, hlen, hheader⟩ := readAt_ok hread
  have hmagic : ((bytes.drop place).take (Record.prefixSize + Header.size)).take 4
      = bytes32 magic := by
    obtain ⟨after, hafter⟩ := hmark
    rw [List.take_take, ← hafter]
    exact List.take_left' (length_bytes32 magic)
  have hlength : (((bytes.drop place).take (Record.prefixSize + Header.size)).drop 4).take 4
      = (bytes.drop (place + 4)).take 4 := by
    rw [List.drop_take, List.take_take, List.drop_drop]
    rfl
  have hraw : ((bytes.drop place).take (Record.prefixSize + Header.size)).drop Record.prefixSize
      = r.header.encode := by
    rw [List.drop_take, List.drop_drop, hheader]
    rfl
  unfold Reader.parseRecord
  dsimp only
  rw [hmagic, word32_bytes32, if_neg (fun h => h rfl), hraw, Header.ofBytes?_encode, hlength,
    ← hlen]
  show Except.ok (Record.ofHeader r.header r.length fileId place) = .ok r
  rw [Record.ofHeader, ← hhash, ← hfile, ← hplace]

/-- What a reader finds under a file's id, through the file's path or through what it has kept open,
is a file of these bytes. -/
structure Reader.Reaches (reader : Reader) (v : Volume) (magic : UInt32) (fileId : Nat)
    (bytes : Bytes) : Prop where
  magic : reader.magic = magic
  opens : ∃ path node next file, reader.target v fileId = (.ok (path, node), next) ∧
    v.file? node = some file ∧ file.content.data = bytes
  /-- No file is longer. -/
  short : bytes.length < Volume.offsetLimit

namespace Reader

variable {reader : Reader} {v : Volume} {magic : UInt32} {fileId : Nat} {bytes : Bytes} {r : Record}

theorem target_magic (reader : Reader) (v : Volume) (fileId : Nat) :
    (reader.target v fileId).2.magic = reader.magic := by
  unfold target
  split
  · rfl
  · split
    · rfl
    · split <;> rfl

/-- What was opened last is found again. -/
theorem find?_keep {opened : List (Nat × NodeNumber)} {node : NodeNumber}
    (h : opened.find? (fun o => o.1 = fileId) = none) :
    (keep opened fileId node).find? (fun o => o.1 = fileId) = some (fileId, node) := by
  have hnone : (if opened.length = maxOpen then opened.drop 1 else opened).find?
      (fun o => o.1 = fileId) = none := by
    rw [List.find?_eq_none] at h ⊢
    intro o ho
    split at ho
    · exact h o (List.mem_of_mem_drop ho)
    · exact h o ho
  rw [keep, List.find?_append, hnone]
  simp

/-- A file that was reached once is reached alike from then on. -/
theorem target_target {path : Path} {node : NodeNumber} {next : Reader}
    (h : reader.target v fileId = (.ok (path, node), next)) :
    next.target v fileId = (.ok (path, node), next) := by
  unfold target at h
  split at h
  · simp at h
  next file hfile =>
  split at h
  · next o hopen =>
    obtain ⟨hfound, rfl⟩ := Prod.mk.inj h
    unfold target
    rw [hfile]
    dsimp only
    rw [hopen]
    exact h
  next hclosed =>
  split at h
  · simp at h
  · next id hfind =>
    obtain ⟨hfound, rfl⟩ := Prod.mk.inj h
    unfold target
    dsimp only
    rw [hfile]
    dsimp only
    rw [find?_keep hclosed]
    exact congrArg (·, _) hfound

theorem Reaches.next (h : reader.Reaches v magic fileId bytes) :
    (reader.target v fileId).2.Reaches v magic fileId bytes := by
  obtain ⟨path, node, next, file, htarget, hfile, hbytes⟩ := h.opens
  refine ⟨(target_magic reader v fileId).trans h.magic, ?_, h.short⟩
  rw [htarget]
  exact ⟨path, node, next, file, target_target htarget, hfile, hbytes⟩

theorem Reaches.readAt (h : reader.Reaches v magic fileId bytes) (offset count : Nat)
    (hlimit : offset + count < Volume.offsetLimit)
    (hcount : 0 < count ∨ offset + count ≤ bytes.length) :
    reader.readAt v fileId offset count =
      (if offset + count ≤ bytes.length then .ok ((bytes.drop offset).take count)
        else .error (.corruptRecord fileId offset .pastEnd), (reader.target v fileId).2) := by
  obtain ⟨path, node, next, file, htarget, hfile, rfl⟩ := h.opens
  have hbytes : v.bytesOf node = file.content.data := by rw [Volume.bytesOf, hfile]
  unfold Reader.readAt Volume.readExact
  rw [htarget]
  dsimp only
  rw [if_neg (by omega)]
  by_cases hzero : count = 0
  · rw [if_pos hzero, if_pos (by omega), hzero, List.take_zero]
  rw [if_neg hzero, if_neg (by omega), Volume.isDirectory_of_file hfile, hbytes]
  by_cases hroom : offset + count ≤ file.content.data.length
  · rw [splitFront_drop hroom, if_pos hroom]
    rfl
  · have hsplit : splitFront count (file.content.data.drop offset) = none := by
      rw [splitFront_eq_none_iff, List.length_drop]
      omega
    rw [hsplit, if_neg hroom]
    rfl

/-- Bytes that the file has are read. -/
theorem Reaches.readAt_inside (h : reader.Reaches v magic fileId bytes) {offset count : Nat}
    (hroom : offset + count ≤ bytes.length) :
    reader.readAt v fileId offset count
      = (.ok ((bytes.drop offset).take count), (reader.target v fileId).2) := by
  have hshort := h.short
  rw [h.readAt offset count (by omega) (Or.inr hroom), if_pos hroom]

/-- The record of a mark is read again at its place. -/
theorem Reaches.recordAt (h : reader.Reaches v magic fileId bytes)
    (hmark : MarkAt magic bytes r.offset)
    (hread : BlockIndex.readAt fileId bytes r.offset = .ok r) :
    reader.recordAt v r.fileId r.offset = (.ok r, (reader.target v fileId).2) := by
  obtain ⟨hfile, _, _, hend, hsize, _, _⟩ := readAt_ok hread
  have hpos := r.endOffset_eq
  have hprefix : Record.prefixSize = 8 := rfl
  have hroom : r.offset + (Record.prefixSize + Header.size) ≤ bytes.length := by omega
  unfold Reader.recordAt
  rw [hfile, h.readAt_inside hroom]
  dsimp only
  rw [target_magic, h.magic, parseRecord_of_readAt hmark hread]

theorem Reaches.onDisk (h : reader.Reaches v magic fileId bytes)
    (hmark : MarkAt magic bytes r.offset)
    (hread : BlockIndex.readAt fileId bytes r.offset = .ok r) :
    reader.onDisk v r = (.ok true, (reader.target v fileId).2) := by
  unfold Reader.onDisk
  rw [h.recordAt hmark hread]
  simp

theorem Reaches.payload (h : reader.Reaches v magic fileId bytes) (hr : r.Whole fileId bytes) :
    reader.payload v r
      = (.ok ((bytes.drop r.payloadOffset).take r.length), (reader.target v fileId).2) := by
  have hroom : r.payloadOffset + r.length ≤ bytes.length := hr.inside
  have hfront :
      ((bytes.drop r.payloadOffset).take r.length).take Header.size = r.header.encode := by
    rw [List.take_take, Nat.min_eq_left hr.least, hr.header]
    rfl
  unfold Reader.payload
  rw [hr.file, h.readAt_inside hroom]
  dsimp only
  rw [if_pos hfront]

/-- The count after the header, of which no more is read than a count takes, is that of the
payload. -/
theorem Reaches.transactionCount (h : reader.Reaches v magic fileId bytes)
    (hr : r.Whole fileId bytes) :
    reader.transactionCount v r
      = (.ok ((CompactSize.decode?
          (((bytes.drop r.payloadOffset).take r.length).drop Header.size)).map
          (·.1)), (reader.target v fileId).2) := by
  have hroom : r.payloadOffset + r.length ≤ bytes.length := hr.inside
  have hsize := hr.least
  have hmost : min (r.length - Header.size) maxCountSize ≤ r.length - Header.size :=
    Nat.min_le_left _ _
  have hfront : (bytes.drop (r.payloadOffset + Header.size)).take
        (min (r.length - Header.size) maxCountSize)
      = (((bytes.drop r.payloadOffset).take r.length).drop Header.size).take maxCountSize := by
    rw [List.drop_take, List.drop_drop, List.take_take, Nat.min_comm]
  unfold Reader.transactionCount
  dsimp only
  rw [hr.file, h.readAt_inside (by omega), hfront]
  dsimp only
  rw [CompactSize.decode?_take (show 9 ≤ maxCountSize from Nat.le_refl 9)]

/-- **A record that a scan yields is read again** at its position: the record itself, just its
payload, which opens with its header, and the number of transactions that the payload says.  So it
counts as standing there.  Each call leaves a reader of the same bytes. -/
theorem Reaches.rereads (h : reader.Reaches v magic fileId bytes) (path : Path) (offset : Nat)
    (hr : r ∈ (Scanner.ofBytes fileId path magic bytes.length bytes offset).yielded) :
    ∃ payload next, next.Reaches v magic fileId bytes ∧
      payload = (bytes.drop (r.offset + 8)).take r.length ∧ payload.length = r.length ∧
      payload.take 80 = r.header.encode ∧
      reader.recordAt v r.fileId r.offset = (.ok r, next) ∧
      reader.payload v r = (.ok payload, next) ∧
      (∀ block : Block, block.payload = payload →
        reader.transactionCount v r = (.ok block.transactionCount, next)) ∧
      reader.onDisk v r = (.ok true, next) := by
  obtain ⟨rs, stop, fault, hscan⟩ :=
    Scans.total fileId magic bytes (Nat.min_le_right offset bytes.length)
  rw [ofBytes_min, hscan.yielded path] at hr
  obtain ⟨_, _, hmark, hread⟩ := hscan.mem hr
  have hwhole := hscan.whole hr
  refine ⟨_, _, h.next, rfl, ?_, ?_, h.recordAt hmark hread, h.payload hwhole, ?_,
    h.onDisk hmark hread⟩
  · have hroom : r.payloadOffset + r.length ≤ bytes.length := hwhole.inside
    have hstart : r.payloadOffset = r.offset + 8 := rfl
    rw [List.length_take, List.length_drop]
    omega
  · rw [List.take_take, hwhole.header]
    congr 1
    exact Nat.min_eq_left hwhole.least
  · intro block hblock
    rw [h.transactionCount hwhole, Block.transactionCount, Block.transactionBytes, hblock]
    rfl

/-! ### A record with three bytes after its header -/

/-- A block file of one record, whose number of transactions takes three bytes. -/
def countedFile : Bytes :=
  bytes32 Network.regtest.magic ++ bytes32 83 ++ (default : Header).encode ++ [0xfd, 0x01, 0x02]

/-- A volume with this file. -/
def countedVolume : Volume := .ofBlockFiles [("blk00000.dat", ⟨.bytes countedFile, 0⟩)]

/-- A reader of this file that has not opened it yet. -/
def countedReader : Reader :=
  .ofFiles (.ofList [(0, ⟨0, ["blocks", "blk00000.dat"], 91, some 0⟩)]) Network.regtest.magic

/-- The record of this file. -/
def countedRecord : Record := .ofHeader default 83 0 0

theorem rereads_counted :
    countedReader.Reaches countedVolume Network.regtest.magic 0 countedFile ∧
      countedRecord ∈ (Scanner.ofBytes 0 [] Network.regtest.magic countedFile.length countedFile
        0).yielded ∧
      (∃ payload next, next.Reaches countedVolume Network.regtest.magic 0 countedFile ∧
        payload = (countedFile.drop (countedRecord.offset + 8)).take countedRecord.length ∧
        payload.length = countedRecord.length ∧
        payload.take 80 = countedRecord.header.encode ∧
        countedReader.recordAt countedVolume countedRecord.fileId countedRecord.offset
          = (.ok countedRecord, next) ∧
        countedReader.payload countedVolume countedRecord = (.ok payload, next) ∧
        (∀ block : Block, block.payload = payload →
          countedReader.transactionCount countedVolume countedRecord
            = (.ok block.transactionCount, next)) ∧
        countedReader.onDisk countedVolume countedRecord = (.ok true, next)) ∧
      (countedReader.transactionCount countedVolume countedRecord).1 = .ok (some 513) := by
  have hreaches : countedReader.Reaches countedVolume Network.regtest.magic 0 countedFile :=
    ⟨rfl, ⟨["blocks", "blk00000.dat"], 2, { countedReader with opened := [(0, 2)] },
      ⟨.bytes countedFile, 0⟩,
      by decide +kernel, by decide +kernel, rfl⟩, by decide +kernel⟩
  have hyielded : countedRecord ∈ (Scanner.ofBytes 0 [] Network.regtest.magic countedFile.length
      countedFile 0).yielded := by decide +kernel
  exact ⟨hreaches, hyielded, hreaches.rereads [] 0 hyielded, by decide +kernel⟩

end Reader

end BlockIndex
