import BlockIndex.Proofs.BlockFile.Access
import BlockIndex.Proofs.BlockFile.Handles

/-!
# Reading records of a directory

Reads by a reader that has opened nothing but files of one directory.

* `Reader.Over`         a reader of a directory;
* `Directory.Stands`    a record's magic, length and header are where it says.

Main statements: `Reader.Over.onDisk` (reading a record again says whether it stands),
`Reader.Answers.over` (reading on and on comes to an end), `Directory.Lies.stands`,
`Reader.Over.payload`.
-/

namespace BlockIndex

/-- A reader of the files of a directory. -/
structure Reader.Over (reader : Reader) (d : Directory) (magic : UInt32) : Prop where
  files : reader.files = d.files
  magic : reader.magic = magic
  opened : ∀ o ∈ reader.opened, ∃ file, d.files.get? o.1 = some file ∧
    d.volume.find file.path = .ok o.2

/-- The bytes at a record's position that hold its magic, length and header. -/
def Directory.front (d : Directory) (r : Record) : Bytes :=
  ((d.bytes r.fileId).drop r.offset).take (Record.prefixSize + Header.size)

/-- A record with the same hash and length stands at a record's position. -/
def Directory.Stands (d : Directory) (magic : UInt32) (r : Record) : Prop :=
  r.offset + 88 ≤ (d.bytes r.fileId).length ∧
    ∃ found, Reader.parseRecord magic r.fileId r.offset (d.front r) = .ok found ∧
      found.hash = r.hash ∧ found.length = r.length

namespace Directory

variable {d : Directory} {magic : UInt32} {r s : Record}

theorem Lies.parseRecord (h : d.Lies magic r) :
    Reader.parseRecord magic r.fileId r.offset (d.front r) = .ok r := by
  obtain ⟨_, hmark, hread⟩ := h
  exact parseRecord_of_readAt hmark hread

theorem Lies.stands (h : d.Lies magic r) : d.Stands magic r :=
  ⟨h.room.1, r, h.parseRecord, rfl, rfl⟩

theorem Stands.hash_eq (h : d.Stands magic r) (hs : d.Stands magic s)
    (hpos : r.position = s.position) : r.hash = s.hash := by
  obtain ⟨_, found, hfound, hhash, _⟩ := h
  obtain ⟨_, other, hother, hhash', _⟩ := hs
  obtain ⟨hfile, hoffset⟩ := Cursor.mk.inj hpos
  have hfront : d.front r = d.front s := by
    rw [front, front, hfile, hoffset]
  rw [hfront, hfile, hoffset, hother] at hfound
  rw [← hhash, ← hhash', Except.ok.inj hfound]

/-- Whether a record stands is a matter of the bytes of its file. -/
theorem Stands.of_bytes {e : Directory} (h : d.Stands magic r)
    (hbytes : e.bytes r.fileId = d.bytes r.fileId) : e.Stands magic r := by
  rw [Stands, front, hbytes]
  exact h

/-- Where a record stands and has room, one with its hash and length lies. -/
theorem Stands.lies (h : d.Stands magic r) (hfile : ∃ file, d.files.get? r.fileId = some file)
    (hsize : Header.size ≤ r.length) (hend : r.endOffset ≤ (d.bytes r.fileId).length) :
    ∃ s, d.Lies magic s ∧ s.hash = r.hash ∧ s.length = r.length ∧ s.position = r.position := by
  obtain ⟨hroom, found, hparse, hhash, hlength⟩ := h
  have hpos := r.endOffset_eq
  have hprefix : Record.prefixSize = 8 := rfl
  unfold Reader.parseRecord at hparse
  dsimp only at hparse
  split at hparse
  · simp at hparse
  next hword =>
  split at hparse
  · next header hheader =>
    have hfound := Except.ok.inj hparse
    have hfour : ((d.front r).take 4).length = 4 := by
      rw [List.length_take, front, List.length_take, List.length_drop, hprefix]
      show min 4 (min (8 + 80) _) = 4
      omega
    have hmark : MarkAt magic (d.bytes r.fileId) r.offset := by
      have hmagic : word32 ((d.front r).take 4) = magic := Decidable.not_not.1 hword
      have hbytes := bytes32_word32 hfour
      rw [hmagic, front, List.take_take] at hbytes
      rw [MarkAt, hbytes]
      exact List.take_prefix _ _
    have hlen : ((d.front r).drop 4).take 4 = ((d.bytes r.fileId).drop (r.offset + 4)).take 4 := by
      rw [front, List.drop_take, List.take_take, List.drop_drop]
      rfl
    have hraw : (d.front r).drop Record.prefixSize
        = ((d.bytes r.fileId).drop (r.offset + Record.prefixSize)).take Header.size := by
      rw [front, List.drop_take, List.drop_drop]
      rfl
    have hread : readAt r.fileId (d.bytes r.fileId) r.offset = .ok found := by
      have hlength' : LittleEndian.decode (((d.bytes r.fileId).drop (r.offset + 4)).take 4)
          = r.length := by
        rw [← hlen, ← hlength, ← hfound]
        rfl
      unfold readAt
      dsimp only
      rw [if_neg (by omega), hlength', if_neg (by omega), if_neg (by omega), ← hraw, hheader]
      dsimp only
      rw [← hfound, hlen, hlength']
    have hplace : found.fileId = r.fileId ∧ found.offset = r.offset := by
      rw [← hfound]
      exact ⟨rfl, rfl⟩
    refine ⟨found, ?_, hhash, hlength, ?_⟩
    · rw [Lies, hplace.1, hplace.2]
      exact ⟨hfile, hmark, hread⟩
    · rw [Record.position, hplace.1, hplace.2]
      rfl
  · simp at hparse

end Directory

namespace Reader

variable {reader : Reader} {d : Directory} {magic : UInt32} {id : Nat} {file : BlockFile}
  {r : Record}

theorem over_ofFiles (d : Directory) (magic : UInt32) : (ofFiles d.files magic).Over d magic where
  files := rfl
  magic := rfl
  opened := by
    intro o ho
    simp [ofFiles] at ho

theorem over_iff_tracks : reader.Over d magic ↔ reader.Tracks d.volume d.files magic :=
  ⟨fun h => ⟨h.opened, h.files, h.magic⟩, fun h => ⟨h.files, h.magic, h.opened⟩⟩

/-- Reading never fails for a file that was listed, and leaves a reader of the same directory. -/
theorem Over.target (h : reader.Over d magic) (hfile : d.files.get? id = some file) :
    ∃ node next, reader.target d.volume id = (.ok (file.path, node), next) ∧ next.Over d magic ∧
      d.volume.find file.path = .ok node := by
  obtain ⟨node, hnode, _⟩ := Directory.opens hfile
  obtain ⟨hsame, hnext⟩ := (over_iff_tracks.1 h).target id
  have hfresh : ((ofFiles d.files magic).target d.volume id).1 = .ok (file.path, node) := by
    unfold Reader.target
    dsimp only [ofFiles]
    rw [hfile]
    dsimp only [List.find?_nil]
    rw [hnode]
  exact ⟨node, _, Prod.ext (hsame.trans hfresh) rfl, over_iff_tracks.2 hnext, hnode⟩

theorem Over.reaches (h : reader.Over d magic) (hfile : d.files.get? id = some file) :
    reader.Reaches d.volume magic id (d.bytes id) := by
  obtain ⟨node, next, htarget, _, hfind⟩ := h.target hfile
  obtain ⟨other, stored, hother, hstored, _⟩ := d.readable file (Directory.mem_values hfile)
  obtain ⟨node', hfind', _, _, hbytes, hlen, hlimit⟩ := Directory.opens hfile
  rw [hfind] at hother hfind'
  obtain rfl := Except.ok.inj hother
  obtain rfl := Except.ok.inj hfind'
  refine ⟨h.magic, ⟨file.path, node, next, stored, htarget, hstored, ?_⟩, ?_⟩
  · rw [← hbytes, Volume.bytesOf, hstored]
  · rw [hlen]
    exact hlimit

theorem Over.next (h : reader.Over d magic) (hfile : d.files.get? id = some file) :
    (reader.target d.volume id).2.Over d magic := by
  obtain ⟨_, next, htarget, hover, _⟩ := h.target hfile
  rw [htarget]
  exact hover

theorem Over.readAt (h : reader.Over d magic) (hfile : d.files.get? id = some file)
    (offset count : Nat) (hlimit : offset + count < 0x8000_0000_0000_0000)
    (hcount : 0 < count ∨ offset + count ≤ (d.bytes id).length) :
    ∃ next, next.Over d magic ∧ reader.readAt d.volume id offset count =
      (if offset + count ≤ (d.bytes id).length then .ok (((d.bytes id).drop offset).take count)
        else .error (.corruptRecord id offset .pastEnd), next) :=
  ⟨_, h.next hfile, (h.reaches hfile).readAt offset count hlimit hcount⟩

/-- Whatever is wrong with the bytes, the record counts as corrupt. -/
theorem parseRecord_eq_error {fileId offset : Nat} {raw : Bytes} {e : Error}
    (h : parseRecord magic fileId offset raw = .error e) :
    ∃ fault, e = .corruptRecord fileId offset fault := by
  unfold parseRecord at h
  dsimp only at h
  split at h
  · exact ⟨_, (Except.error.inj h).symm⟩
  · split at h
    · simp at h
    · exact ⟨_, (Except.error.inj h).symm⟩

/-- **Reading a record again** says whether it stands. -/
theorem Over.onDisk (h : reader.Over d magic) (hfile : d.files.get? r.fileId = some file)
    (hroom : r.offset + 88 < 0x8000_0000_0000_0000) :
    ∃ b next, reader.onDisk d.volume r = (.ok b, next) ∧ next.Over d magic ∧
      (b = true ↔ d.Stands magic r) := by
  obtain ⟨next, hover, hread⟩ :=
    h.readAt hfile r.offset (Record.prefixSize + Header.size) hroom
      (Or.inl (by decide))
  have hsize : Record.prefixSize + Header.size = 88 := rfl
  unfold Reader.onDisk Reader.recordAt
  rw [hread]
  by_cases hend : r.offset + (Record.prefixSize + Header.size) ≤ (d.bytes r.fileId).length
  · rw [if_pos hend]
    dsimp only
    rw [hover.magic]
    have hfront : ((d.bytes r.fileId).drop r.offset).take (Record.prefixSize + Header.size)
        = d.front r := rfl
    rw [hfront]
    cases hparse : parseRecord magic r.fileId r.offset (d.front r) with
    | ok found =>
      refine ⟨_, next, rfl, hover, ?_⟩
      rw [Bool.and_eq_true, decide_eq_true_eq, decide_eq_true_eq]
      constructor
      · intro hsame
        exact ⟨hend, found, hparse, hsame.1, hsame.2⟩
      · intro hstands
        obtain ⟨_, other, hother, hhash, hlength⟩ := hstands
        rw [hparse] at hother
        obtain rfl := Except.ok.inj hother
        exact ⟨hhash, hlength⟩
    | error e =>
      have hstands : ¬ d.Stands magic r := by
        intro hstands
        obtain ⟨_, other, hother, _⟩ := hstands
        rw [hparse] at hother
        simp at hother
      obtain ⟨fault, rfl⟩ := parseRecord_eq_error hparse
      exact ⟨false, next, rfl, hover, by simp [hstands]⟩
  · rw [if_neg hend]
    refine ⟨false, next, rfl, hover, ?_⟩
    constructor
    · intro hfalse
      simp at hfalse
    · intro hstands
      exact absurd hstands.1 hend

/-- A record of a listed file is always read again. -/
theorem rereads_cases (magic : UInt32) (hfile : ∃ file, d.files.get? r.fileId = some file)
    (hroom : r.offset + 88 < 0x8000_0000_0000_0000) :
    ∃ b, rereads d.volume d.files magic r = .ok b ∧ (b = true ↔ d.Stands magic r) := by
  obtain ⟨file, hfile⟩ := hfile
  obtain ⟨b, next, hread, _, hb⟩ := (over_ofFiles d magic).onDisk hfile hroom
  exact ⟨b, congrArg Prod.fst hread, hb⟩

theorem rereads_eq_true_iff_stands (hfile : ∃ file, d.files.get? r.fileId = some file)
    (hroom : r.offset + 88 < 0x8000_0000_0000_0000) :
    rereads d.volume d.files magic r = .ok true ↔ d.Stands magic r := by
  obtain ⟨b, hread, hb⟩ := rereads_cases magic hfile hroom
  rw [hread, ← hb, Except.ok.injEq]

/-- Readings of listed files come to an end. -/
theorem Answers.over {α : Type} {among : Record → Prop} {holds : α → Prop}
    {run : Except Error α × Reader} (h : Answers d.volume d.files magic among holds run)
    (hamong : ∀ r, among r →
      (∃ file, d.files.get? r.fileId = some file) ∧ r.offset + 88 < 0x8000_0000_0000_0000) :
    ∃ x next, run = (.ok x, next) ∧ next.Over d magic ∧ holds x := by
  cases h with
  | @ok x next hx hnext => exact ⟨x, next, rfl, over_iff_tracks.2 hnext, hx⟩
  | error r hr hfailed =>
    obtain ⟨b, hread, _⟩ := rereads_cases magic (hamong r hr).1 (hamong r hr).2
    rw [hread] at hfailed
    cases hfailed

theorem Over.allOnDisk (h : reader.Over d magic) (rs : List Record)
    (hrs : ∀ r ∈ rs, (∃ file, d.files.get? r.fileId = some file) ∧ r.offset + 88 < 0x8000_0000_0000_0000) :
    ∃ b next, reader.allOnDisk d.volume rs = (.ok b, next) ∧ next.Over d magic ∧
      (b = true ↔ ∀ r ∈ rs, d.Stands magic r) := by
  obtain ⟨b, next, hread, hover, hb⟩ := ((over_iff_tracks.1 h).allOnDisk rs).over hrs
  refine ⟨b, next, hread, hover, hb.trans ?_⟩
  exact forall₂_congr fun r hr => rereads_eq_true_iff_stands (hrs r hr).1 (hrs r hr).2

theorem Over.moved {α : Type} (h : reader.Over d magic) (record : α → Record) (as : List α)
    (has : ∀ a ∈ as, (∃ file, d.files.get? (record a).fileId = some file) ∧
      (record a).offset + 88 < 0x8000_0000_0000_0000) :
    ∃ others next, reader.moved d.volume record as = (.ok others, next) ∧ next.Over d magic ∧
      ∀ a, a ∈ others ↔ a ∈ as ∧ ¬ d.Stands magic (record a) := by
  obtain ⟨others, next, hread, hover, hothers⟩ := ((over_iff_tracks.1 h).moved record as).over
    fun r hr => by
      obtain ⟨a, ha, rfl⟩ := List.mem_map.1 hr
      exact has a ha
  refine ⟨others, next, hread, hover, fun a => (hothers a).trans ?_⟩
  exact and_congr_right fun ha => not_congr (rereads_eq_true_iff_stands (has a ha).1 (has a ha).2)

theorem Over.payload (h : reader.Over d magic) (hr : d.Lies magic r) :
    ∃ payload next, reader.payload d.volume r = (.ok payload, next) ∧ next.Over d magic := by
  obtain ⟨⟨file, hfile⟩, _, hread⟩ := hr
  exact ⟨_, _, (h.reaches hfile).payload (.of_readAt hread), h.next hfile⟩

theorem Over.transactionCount (h : reader.Over d magic) (hr : d.Lies magic r) :
    ∃ count next, reader.transactionCount d.volume r = (.ok count, next) ∧ next.Over d magic := by
  obtain ⟨⟨file, hfile⟩, _, hread⟩ := hr
  exact ⟨_, _, (h.reaches hfile).transactionCount (.of_readAt hread), h.next hfile⟩

end Reader

end BlockIndex
