import BlockIndex.Proofs.BlockFile.Access
import BlockIndex.Proofs.Store.Encoding

/-!
# What identifies a block

A block is known by the hash of the 80 bytes on disk that are its header.  Reading takes these
bytes apart and writing puts them together again, so nothing of them is lost on the way from the
block file through a row of the index and back.

* `Record.ReadFrom`    a record comes from a file, through a scan or through a reader;
* `Record.Identified`  a record has the header that stands in the file, and its hash;
* `Scanner.Within`     what a scan still has before it are bytes of the file, from its place on.

Main statements: `Record.ReadFrom.identified`, `Record.Identified.stored`,
`Record.identity_exact`.
-/

namespace BlockIndex

/-! ## Records and bytes -/

/-- The bytes of a file that are the header of a record. -/
def Record.rawHeader (bytes : Bytes) (r : Record) : Bytes :=
  (bytes.drop r.payloadOffset).take Header.size

/-- A record has the header that stands in a file, the hash of these bytes, and a length of 32
bits. -/
structure Record.Identified (bytes : Bytes) (r : Record) : Prop where
  header : r.header.encode = r.rawHeader bytes
  hash : r.hash = r.header.hash
  length : r.length < 0x1_0000_0000

section Records

variable {bytes raw word : Bytes} {r : Record} {fileId place : Nat}

theorem splitFront_parts {n p : Nat} {front rest : Bytes}
    (h : splitFront n (bytes.drop p) = some (front, rest)) :
    front = (bytes.drop p).take n ∧ front.length = n ∧ rest = bytes.drop (p + n) := by
  obtain ⟨hsplit, hlength⟩ := splitFront_eq_some_iff.1 h
  refine ⟨?_, hlength, ?_⟩
  · rw [hsplit, List.take_left' hlength]
  · rw [← List.drop_drop, hsplit, List.drop_left' hlength]

theorem decode_word_lt (h : word.length = 4) : LittleEndian.decode word < 0x1_0000_0000 := by
  have hlt := LittleEndian.decode_lt word
  rwa [h, LittleEndian.limit_four] at hlt

theorem Record.identified_ofHeader {header : Header}
    (hbytes : header.encode = (bytes.drop (place + Record.prefixSize)).take Header.size)
    (hword : word.length = 4) :
    (Record.ofHeader header (LittleEndian.decode word) fileId place).Identified bytes where
  header := hbytes
  hash := rfl
  length := decode_word_lt hword

/-- The hash of a record is that of the bytes on disk, of which there are 80. -/
theorem Record.Identified.hash_eq (h : r.Identified bytes) :
    (r.rawHeader bytes).length = 80 ∧ r.hash = Hash.doubleSha256 (r.rawHeader bytes) := by
  rw [← h.header]
  exact ⟨r.header.length_encode, h.hash⟩

end Records

/-! ## Scans -/

namespace Scanner

variable {bytes after : Bytes} {s t : Scanner} {r : Record} {place : Nat}
  {item : Except Error Record}

/-- What a scan still has before it are bytes of the file, from its place on. -/
def Within (bytes : Bytes) (s : Scanner) : Prop := s.finished = true ∨ s.rest = bytes.drop s.pos

theorem within_ofBytes (fileId : Nat) (path : Path) (magic : UInt32) (len : Nat) (bytes : Bytes)
    (offset : Nat) : (ofBytes fileId path magic len bytes offset).Within bytes :=
  Or.inr rfl

theorem seekMark_after {magic : UInt32} {p : Nat}
    (h : seekMark magic p (bytes.drop p) = some (place, after)) :
    after = bytes.drop (place + 4) := by
  by_cases hp : p ≤ bytes.length
  · rcases seekMark_spec magic bytes hp with ⟨q, _, hq⟩ | ⟨_, hnone⟩
    · rw [hq] at h
      obtain ⟨rfl, rfl⟩ := Prod.mk.inj (Option.some.inj h)
      rfl
    · rw [hnone] at h
      simp at h
  · rw [List.drop_eq_nil_of_le (by omega), seekMark, MarkSearch.run, dif_pos rfl] at h
    simp at h

/-- **One record.**  It is the one that stands in the file, and the scan goes on in the file. -/
theorem readRecord_within (s : Scanner) (bytes : Bytes) (place : Nat) :
    (s.readRecord place (bytes.drop (place + 4))).2.Within bytes ∧
      ∀ r, (s.readRecord place (bytes.drop (place + 4))).1 = .ok r → r.Identified bytes := by
  have hbehind : place + 4 + 4 = place + Record.prefixSize := rfl
  generalize hstep : s.readRecord place (bytes.drop (place + 4)) = step
  unfold readRecord corrupt at hstep
  dsimp only at hstep
  split at hstep
  · obtain rfl := hstep
    exact ⟨Or.inl rfl, by simp⟩
  next word payload hword =>
  obtain ⟨_, hfour, hpayload⟩ := splitFront_parts hword
  rw [hbehind] at hpayload
  subst hpayload
  split at hstep
  · obtain rfl := hstep
    exact ⟨Or.inl rfl, by simp⟩
  split at hstep
  · obtain rfl := hstep
    exact ⟨Or.inl rfl, by simp⟩
  next hlong =>
  split at hstep
  · obtain rfl := hstep
    exact ⟨Or.inl rfl, by simp⟩
  split at hstep
  · obtain rfl := hstep
    exact ⟨Or.inl rfl, by simp⟩
  next raw body hraw =>
  obtain ⟨hfront, hsize, hbody⟩ := splitFront_parts hraw
  obtain rfl := hstep
  refine ⟨Or.inr ?_, ?_⟩
  · -- the header is part of the declared length, so the next record starts behind both
    show body.drop (LittleEndian.decode word - Header.size)
      = bytes.drop (place + Record.prefixSize + LittleEndian.decode word)
    rw [hbody, List.drop_drop]
    congr 1
    omega
  · rintro r hr
    obtain rfl := Except.ok.inj hr
    exact Record.identified_ofHeader ((Header.encode_decode raw hsize).trans hfront) hfour

theorem Within.next? (h : s.Within bytes) (hnext : s.next? = some (item, t)) :
    t.Within bytes ∧ ∀ r, item = .ok r → r.Identified bytes := by
  unfold Scanner.next? at hnext
  split at hnext
  · simp at hnext
  next hgo =>
  split at hnext
  · simp at hnext
  next place after hmark =>
  rcases h with hover | hrest
  · exact absurd hover hgo
  rw [hrest] at hmark
  obtain rfl := seekMark_after hmark
  have hstep := s.readRecord_within bytes place
  rwa [Option.some.inj hnext] at hstep

theorem Within.ask (h : s.Within bytes) :
    s.ask.2.Within bytes ∧ ∀ r, s.ask.1 = some (.ok r) → r.Identified bytes := by
  cases hnext : s.next? with
  | none =>
    rw [ask_of_none hnext]
    exact ⟨Or.inl rfl, by simp⟩
  | some found =>
    obtain ⟨item, t⟩ := found
    rw [ask_of_some hnext]
    obtain ⟨hwithin, hitem⟩ := h.next? hnext
    exact ⟨hwithin, fun r hr => hitem r (Option.some.inj hr)⟩

theorem Within.asked (h : s.Within bytes) (n : Nat) : (s.asked n).Within bytes := by
  induction n generalizing s with
  | zero => exact h
  | succ n ih => exact ih h.ask.1

end Scanner

/-! ## Readers -/

namespace Reader

variable {bytes raw : Bytes} {reader : Reader} {v : Volume} {fileId offset count : Nat}
  {path : Path} {node : NodeNumber} {magic : UInt32} {r : Record}

theorem readAt_bytes (htarget : (reader.target v fileId).1 = .ok (path, node)) (hcount : 0 < count)
    (h : (reader.readAt v fileId offset count).1 = .ok raw) :
    raw = ((v.bytesOf node).drop offset).take count ∧ raw.length = count := by
  unfold Reader.readAt at h
  rw [show reader.target v fileId = (.ok (path, node), (reader.target v fileId).2) from
    congrArg (·, _) htarget] at h
  dsimp only at h
  split at h
  · next bytes hread =>
    obtain rfl := Except.ok.inj h
    unfold Volume.readExact at hread
    split at hread
    · simp at hread
    split at hread
    · omega
    split at hread
    · simp at hread
    split at hread
    · simp at hread
    split at hread
    · next front rest hsplit =>
      obtain rfl := Except.ok.inj hread
      obtain ⟨hfront, hlength, _⟩ := splitFront_parts hsplit
      exact ⟨hfront, hlength⟩
    · simp at hread
  · simp at h
  · simp at h

/-- What stands at a place from the mark to the header is taken apart into a record. -/
theorem parseRecord_identified
    (hraw : raw = (bytes.drop offset).take (Record.prefixSize + Header.size))
    (hlength : raw.length = Record.prefixSize + Header.size)
    (h : parseRecord magic fileId offset raw = .ok r) : r.Identified bytes := by
  have hlead : Record.prefixSize = 8 := rfl
  unfold parseRecord at h
  dsimp only at h
  split at h
  · simp at h
  split at h
  · next header hheader =>
    obtain rfl := Except.ok.inj h
    refine Record.identified_ofHeader ((Header.ofBytes?_eq_some_iff.1 hheader).trans ?_) ?_
    · rw [hraw, List.drop_take, List.drop_drop, Nat.add_sub_cancel_left]
    · rw [List.length_take, List.length_drop, hlength]
      omega
  · simp at h

theorem recordAt_identified (htarget : (reader.target v fileId).1 = .ok (path, node))
    (h : (reader.recordAt v fileId offset).1 = .ok r) : r.Identified (v.bytesOf node) := by
  unfold recordAt at h
  split at h
  · simp at h
  next raw next hread =>
  obtain ⟨hraw, hlength⟩ := readAt_bytes htarget (by decide) (congrArg Prod.fst hread)
  exact parseRecord_identified hraw hlength h

end Reader

/-! ## Both ways of reading -/

namespace Record

variable {bytes : Bytes} {r : Record} {height : Nat}

/-- A record comes from a file with these bytes: it is an item of a scan, whichever length the file
had when it was opened, or a reader that reaches the file finds it at a place. -/
inductive ReadFrom (bytes : Bytes) (r : Record) : Prop where
  | scan {fileId len offset n : Nat} {path : Path} {magic : UInt32}
      (item : ((Scanner.ofBytes fileId path magic len bytes offset).asked n).ask.1
        = some (.ok r))
  | reader {reader : Reader} {v : Volume} {fileId offset : Nat} {path : Path} {node : NodeNumber}
      (target : (reader.target v fileId).1 = .ok (path, node)) (holds : v.bytesOf node = bytes)
      (found : (reader.recordAt v fileId offset).1 = .ok r)

theorem ReadFrom.identified (h : r.ReadFrom bytes) : r.Identified bytes := by
  cases h with
  | scan item => exact (((Scanner.within_ofBytes ..).asked _).ask).2 r item
  | reader target holds found =>
    rw [← holds]
    exact Reader.recordAt_identified target found

/-! ## Rows -/

/-- The row of an entry keeps the bytes of the header as they stand in the file, and is read back
as the same entry; the row of a waiting record as the same record. -/
theorem Identified.stored (h : r.Identified bytes) (hfile : r.fileId < 0x1_0000_0000)
    (hoffset : r.offset < 0x8000_0000_0000_0000) (hheight : height < 0x1_0000_0000) :
    (TableWriting.entryRow (.ofRecord r height)).header = r.rawHeader bytes ∧
      TableReading.entry (TableWriting.entryRow (.ofRecord r height)) = .ok (.ofRecord r height) ∧
      (TableWriting.orphanRow r).header = r.rawHeader bytes ∧
      TableReading.orphan (TableWriting.orphanRow r) = .ok r := by
  have hfits : r.Fits := ⟨hfile, hoffset, h.length⟩
  refine ⟨h.header, ?_, h.header, orphan_orphanRow hfits h.hash.symm⟩
  rw [entry_entryRow (by rwa [Entry.toRecord_ofRecord])]
  exact if_pos hheight

/-- **Identity.**  Every 80 bytes are written again by the header that they decode to, and every
header is decoded from what writes it.  So the hash of a record that is read from a file is that of
the 80 bytes on disk, and the record is the same, with the same hash, after it has been an entry in
a row of the index, or waiting in one, if its offset has a place there. -/
theorem identity_exact :
    (∀ raw (h : raw.length = Header.size), (Header.decode raw h).encode = raw) ∧
      (∀ header : Header, Header.decode header.encode header.length_encode = header) ∧
      ∀ bytes r, ReadFrom bytes r →
        (r.rawHeader bytes).length = 80 ∧ r.hash = Hash.doubleSha256 (r.rawHeader bytes) ∧
        ∀ height, r.fileId < 0x1_0000_0000 → r.offset < 0x8000_0000_0000_0000 →
          height < 0x1_0000_0000 →
          let row := TableWriting.entryRow (.ofRecord r height)
          row.header = r.rawHeader bytes ∧
            (∃ entry, TableReading.entry row = .ok entry ∧ entry.height = height ∧
              entry.toRecord = r ∧ entry.header.hash = r.hash) ∧
            (TableWriting.orphanRow r).header = r.rawHeader bytes ∧
            TableReading.orphan (TableWriting.orphanRow r) = .ok r := by
  refine ⟨Header.encode_decode, Header.decode_encode, ?_⟩
  intro bytes r hread
  have hr := hread.identified
  refine ⟨hr.hash_eq.1, hr.hash_eq.2, ?_⟩
  intro height hfile hoffset hheight
  obtain ⟨hrow, hentry, horphan⟩ := hr.stored hfile hoffset hheight
  exact ⟨hrow, ⟨_, hentry, rfl, rfl, hr.hash.symm⟩, horphan⟩

/-- The record of a file, found by a scan and by a reader, in a row at the greatest height. -/
theorem identity_counted :
    (List.replicate 80 0xab : Bytes).length = Header.size ∧
      (∀ h, (Header.decode (List.replicate 80 0xab) h).encode = List.replicate 80 0xab) ∧
      ReadFrom Reader.countedFile Reader.countedRecord ∧
      (Reader.countedReader.recordAt Reader.countedVolume 0 0).1 = .ok Reader.countedRecord ∧
      Reader.countedRecord.hash
        = Hash.doubleSha256 (Reader.countedRecord.rawHeader Reader.countedFile) ∧
      TableReading.orphan (TableWriting.orphanRow Reader.countedRecord)
        = .ok Reader.countedRecord ∧
      ∃ entry, TableReading.entry
          (TableWriting.entryRow (.ofRecord Reader.countedRecord 0xffff_ffff)) = .ok entry ∧
        entry.height = 0xffff_ffff ∧ entry.toRecord = Reader.countedRecord ∧
        entry.header.hash = Reader.countedRecord.hash := by
  have hitem : ((Scanner.ofBytes 0 [] Network.regtest.magic Reader.countedFile.length
      Reader.countedFile 0).asked 0).ask.1 = some (.ok Reader.countedRecord) := by decide +kernel
  have hfound : (Reader.countedReader.recordAt Reader.countedVolume 0 0).1
      = .ok Reader.countedRecord := by decide +kernel
  obtain ⟨_, hhash, hrows⟩ := identity_exact.2.2 _ _ (.scan hitem)
  obtain ⟨_, hentry, _, horphan⟩ := hrows 0xffff_ffff (by decide) (by decide) (by decide)
  exact ⟨rfl, identity_exact.1 _, .scan hitem, hfound, hhash, horphan, hentry⟩

end Record

end BlockIndex
