import BlockIndex.BlockFile.Discovery

/-!
# Scanning block files

The records of one block file, in order from an offset on.  A record is the network's magic, the
declared length of its payload, and the payload, which opens with the header.  Anything may stand
between records: the next record starts where the magic is found next.  A record that does not fit
ends the scan.

* `seekMark`          the next place of a magic, found through a window of four bytes;
* `Scanner.next?`     the next record or error;
* `Scanner.ask`       a call for it, which ends the scan if there is none;
* `Scanner.scanAll`   all that a scan yields.

What is checked against the file's length uses the length at the time of opening.
-/

namespace BlockIndex

/-- A scan of one block file. -/
structure Scanner where
  fileId : Nat
  path : Path
  magic : UInt32
  /-- The length of the file when it was opened. -/
  len : Nat
  /-- Where the scan stands. -/
  pos : Nat
  /-- The bytes from there on. -/
  rest : Bytes
  /-- The end of the last complete record, or the start of the corrupt one. -/
  scannedTo : Nat
  finished : Bool
  deriving DecidableEq, Repr

/-! ## Looking for a mark -/

/-- What a search for a mark knows of the bytes that it has gone through: the last four of them, as
a word written lowest byte first, and their number. -/
structure MarkSearch where
  window : UInt32
  seen : Nat
  deriving DecidableEq, Repr

namespace MarkSearch

/-- A search that has gone through nothing.  The zeros in its window stand for no bytes. -/
def start : MarkSearch := ⟨0, 0⟩

/-- One more byte, which enters the window at its upper end. -/
def push (s : MarkSearch) (b : UInt8) : MarkSearch :=
  ⟨s.window >>> 8 ||| b.toUInt32 <<< 24, s.seen + 1⟩

/-- Whether the last four bytes are a network's mark. -/
def hits (s : MarkSearch) (magic : UInt32) : Bool := 4 ≤ s.seen ∧ s.window = magic

/-- What a search comes to in one buffer. -/
inductive Sweep where
  /-- The mark: how many bytes have been seen with it, and those that follow. -/
  | hit (seen : Nat) (after : Bytes)
  /-- The end of the buffer: the search as it stands, and the bytes not read yet. -/
  | miss (search : MarkSearch) (after : Bytes)
  deriving DecidableEq, Repr

/-- Goes through a buffer of the next `room` bytes, or of all there are. -/
def sweep (magic : UInt32) : Nat → MarkSearch → Bytes → Sweep
  | 0, s, bytes => .miss s bytes
  | _ + 1, s, [] => .miss s []
  | room + 1, s, b :: rest =>
    let t := s.push b
    if t.hits magic then .hit t.seen rest else sweep magic room t rest

theorem sweep_miss {magic : UInt32} {room : Nat} {s t : MarkSearch} {bytes after : Bytes}
    (h : sweep magic room s bytes = .miss t after) :
    after.length = bytes.length - room := by
  induction room generalizing s bytes with
  | zero =>
    obtain ⟨_, rfl⟩ := Sweep.miss.inj h
    rfl
  | succ room ih =>
    cases bytes with
    | nil =>
      obtain ⟨_, rfl⟩ := Sweep.miss.inj h
      simp
    | cons b rest =>
      unfold sweep at h
      dsimp only at h
      split at h
      · simp at h
      · rw [ih h, List.length_cons]
        omega

theorem sweep_hit {magic : UInt32} {room seen : Nat} {s : MarkSearch} {bytes after : Bytes}
    (h : sweep magic room s bytes = .hit seen after) : after.length ≤ bytes.length := by
  induction room generalizing s bytes with
  | zero => simp [sweep] at h
  | succ room ih =>
    cases bytes with
    | nil => simp [sweep] at h
    | cons b rest =>
      unfold sweep at h
      dsimp only at h
      rw [List.length_cons]
      split at h
      · obtain ⟨_, rfl⟩ := Sweep.hit.inj h
        omega
      · have := ih h
        omega

/-- The most bytes that a buffer holds. -/
def bufferSize : Nat := 0x1_0000

/-- Goes through one buffer after the other until the mark is found or nothing is left.  What the
window holds is carried from each buffer into the next. -/
def run (magic : UInt32) (s : MarkSearch) (bytes : Bytes) : Option (Nat × Bytes) :=
  if _hempty : bytes = [] then none
  else
    match _h : sweep magic bufferSize s bytes with
    | .hit seen after => some (seen, after)
    | .miss t after => run magic t after
termination_by bytes.length
decreasing_by
  have hpos := List.length_pos_iff.2 _hempty
  rw [sweep_miss _h, bufferSize]
  omega

theorem run_length_le {magic : UInt32} {s : MarkSearch} {bytes after : Bytes} {seen : Nat}
    (h : s.run magic bytes = some (seen, after)) : after.length ≤ bytes.length := by
  fun_induction run magic s bytes with
  | case1 => simp at h
  | case2 s bytes _ seen' after' hsweep =>
    obtain ⟨rfl, rfl⟩ := Prod.mk.inj (Option.some.inj h)
    exact sweep_hit hsweep
  | case3 s bytes _ t rest hsweep ih =>
    have := ih h
    have := sweep_miss hsweep
    omega

end MarkSearch

/-- The first place of a network's mark in bytes that start at `pos`, and the bytes after it. -/
def seekMark (magic : UInt32) (pos : Nat) (bytes : Bytes) : Option (Nat × Bytes) :=
  (MarkSearch.start.run magic bytes).map fun found => (pos + found.1 - 4, found.2)

theorem seekMark_length_le {magic : UInt32} {bytes after : Bytes} {pos place : Nat}
    (h : seekMark magic pos bytes = some (place, after)) : after.length ≤ bytes.length := by
  obtain ⟨found, hrun, heq⟩ := Option.map_eq_some_iff.1 h
  obtain ⟨_, rfl⟩ := Prod.mk.inj heq
  exact MarkSearch.run_length_le hrun

namespace Scanner

/-- A scan from an offset of a file that had the length `len` when it was opened and holds `bytes`
when it is read. -/
def ofBytes (fileId : Nat) (path : Path) (magic : UInt32) (len : Nat) (bytes : Bytes)
    (offset : Nat) : Scanner where
  fileId := fileId
  path := path
  magic := magic
  len := len
  pos := min offset len
  rest := bytes.drop (min offset len)
  scannedTo := min offset len
  finished := false

/-- Opens a block file for a scan. -/
def openFile (v : Volume) (file : BlockFile) (magic : UInt32) (offset : Nat) :
    Except Error Scanner :=
  match v.openFile file.path with
  | .error problem => .error (.file file.path (.problem problem))
  | .ok id =>
    let bytes := v.bytesOf id
    .ok (ofBytes file.id file.path magic bytes.length bytes offset)

/-- The scan ended by a corrupt record. -/
def corruptAt (s : Scanner) (place : Nat) : Scanner :=
  { s with pos := place, scannedTo := place, finished := true }

/-- A corrupt record and the scan that it ends. -/
def corrupt (s : Scanner) (place : Nat) (fault : RecordFault) : Except Error Record × Scanner :=
  (.error (.corruptRecord s.fileId place fault), s.corruptAt place)

/-- Reads the record whose magic stands at `place`, from the bytes after the magic. -/
def readRecord (s : Scanner) (place : Nat) (after : Bytes) : Except Error Record × Scanner :=
  let start := place + Record.prefixSize
  match splitFront 4 after with
  | none => s.corrupt place (.prefixTruncated (s.len - place))
  | some (word, payload) =>
    if s.len < start then s.corrupt place (.prefixTruncated (s.len - place))
    else
      let length := LittleEndian.decode word
      if length < Header.size then s.corrupt place (.shorterThanHeader length)
      else if s.len - start < length then s.corrupt place (.overrun length (s.len - start))
      else
        match h : splitFront Header.size payload with
        | none => (.error (.file s.path (.problem .unexpectedEof)), { s with finished := true })
        | some (raw, body) =>
          let header := Header.decode raw (splitFront_eq_some_iff.1 h).2
          let record := Record.ofHeader header length s.fileId place
          (.ok record,
            { s with
              pos := record.endOffset
              rest := body.drop (length - Header.size)
              scannedTo := record.endOffset })

/-- The next record or error, and the scan after it; nothing at the end. -/
def next? (s : Scanner) : Option (Except Error Record × Scanner) :=
  if s.finished then none
  else
    match seekMark s.magic s.pos s.rest with
    | none => none
    | some (place, after) => some (s.readRecord place after)

/-- A call for the next item: what it gives, and the scan after it.  A call that gives nothing ends
the scan. -/
def ask (s : Scanner) : Option (Except Error Record) × Scanner :=
  match s.next? with
  | some (item, t) => (some item, t)
  | none => (none, { s with finished := true })

/-- The scan after `n` calls. -/
def asked : Nat → Scanner → Scanner
  | 0, s => s
  | n + 1, s => s.ask.2.asked n

theorem readRecord_progress (s : Scanner) (place : Nat) (after : Bytes)
    (h : (s.readRecord place after).2.finished = false) :
    (s.readRecord place after).2.rest.length < after.length := by
  unfold readRecord corrupt corruptAt at h ⊢
  simp only at h ⊢
  split at h <;> try simp at h
  next word payload hword =>
    have hlen := congrArg List.length (splitFront_eq_some_iff.1 hword).1
    have hfour := (splitFront_eq_some_iff.1 hword).2
    split at h <;> try simp at h
    split at h <;> try simp at h
    split at h <;> try simp at h
    split at h <;> try simp at h
    next hpre hshort hover raw body hraw =>
      have hbody := congrArg List.length (splitFront_eq_some_iff.1 hraw).1
      simp only [List.length_append] at hlen hbody
      simp only [if_neg hpre, if_neg hshort, if_neg hover, List.length_drop]
      omega

/-- A step either ends the scan or uses up bytes. -/
theorem next?_progress {s t : Scanner} {item : Except Error Record}
    (h : s.next? = some (item, t)) (hgo : t.finished = false) : t.rest.length < s.rest.length := by
  unfold next? at h
  split at h
  · simp at h
  · split at h
    · simp at h
    · next place after hfind =>
      simp only [Option.some.injEq] at h
      have ht : t = (s.readRecord place after).2 := by rw [h]
      subst ht
      exact Nat.lt_of_lt_of_le (s.readRecord_progress place after hgo) (seekMark_length_le hfind)

/-- All that a scan yields, each record or error with the place up to which the file is then
scanned. -/
def scanAll (s : Scanner) : List (Except Error Record × Nat) :=
  match _h : s.next? with
  | none => []
  | some (item, t) =>
    if _hgo : t.finished = false then (item, t.scannedTo) :: t.scanAll
    else [(item, t.scannedTo)]
termination_by s.rest.length
decreasing_by exact next?_progress _h _hgo

/-- The place up to which a file is scanned after a scan yielded `items`. -/
def endOf (s : Scanner) (items : List (Except Error Record × Nat)) : Nat :=
  match items.getLast? with
  | some item => item.2
  | none => s.scannedTo

end Scanner

end BlockIndex
