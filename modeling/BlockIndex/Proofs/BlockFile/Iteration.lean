import BlockIndex.Proofs.BlockFile.Directory

/-!
# Scanning to the end

What a caller gets who asks a scan for item after item.  The records are those of the file's
grammar: each begins at the first mark from the end of the one before on, says what stands there and
lies within the file.  The first mark whose record does not is the one error, and then the scan is
over.  A scan of a file that has grown can be taken up where the scan before it ended.

* `Record.Whole`       a record says what stands at its offset, and lies within the file;
* `FaultAt`            what is wrong with the record of a mark;
* `Scanner.reach`      how far a scan comes;
* `Scanner.yielded`, `Scanner.errors`  the records and the errors that it yields.

Main statements: `Scanner.ask_asked` (call after call gives item after item, and then nothing),
`scan_parses`, `scan_grown`.
-/

namespace BlockIndex

/-! ## Records and faults -/

/-- A record says what stands at its offset in a file: the length after the mark, which is that of a
header or more, and the header after it.  All of it lies within the file. -/
structure Record.Whole (fileId : Nat) (bytes : Bytes) (r : Record) : Prop where
  file : r.fileId = fileId
  length : r.length = LittleEndian.decode ((bytes.drop (r.offset + 4)).take 4)
  header : r.header.encode = (bytes.drop (r.offset + Record.prefixSize)).take Header.size
  hash : r.hash = r.header.hash
  least : Header.size ≤ r.length
  inside : r.endOffset ≤ bytes.length

/-- What is wrong with the record of a mark: its prefix is cut off, its length is less than that of
a header, or it runs past the end of the file. -/
def FaultAt (bytes : Bytes) (place : Nat) : RecordFault → Prop
  | .prefixTruncated remain =>
    bytes.length < place + Record.prefixSize ∧ remain = bytes.length - place
  | .shorterThanHeader length =>
    place + Record.prefixSize ≤ bytes.length ∧
      length = LittleEndian.decode ((bytes.drop (place + 4)).take 4) ∧ length < Header.size
  | .overrun length remain =>
    place + Record.prefixSize ≤ bytes.length ∧
      length = LittleEndian.decode ((bytes.drop (place + 4)).take 4) ∧ Header.size ≤ length ∧
      remain = bytes.length - (place + Record.prefixSize) ∧ remain < length
  | _ => False

section Records

variable {fileId place : Nat} {magic : UInt32} {bytes : Bytes} {p stop : Nat} {r : Record}
  {rs : List Record} {f : RecordFault} {fault : Option RecordFault}

theorem Record.Whole.of_readAt (h : readAt fileId bytes place = .ok r) : r.Whole fileId bytes := by
  obtain ⟨hfile, rfl, hhash, hend, hsize, hlen, hheader⟩ := readAt_ok h
  exact ⟨hfile, hlen, hheader, hhash, hsize, hend⟩

theorem FaultAt.of_readAt (h : readAt fileId bytes place = .error f) : FaultAt bytes place f := by
  unfold readAt at h
  dsimp only at h
  split at h
  · next hshort =>
    rw [← Except.error.inj h]
    exact ⟨hshort, rfl⟩
  next hroom =>
  split at h
  · next hsmall =>
    rw [← Except.error.inj h]
    exact ⟨Nat.le_of_not_lt hroom, rfl, hsmall⟩
  next hlong =>
  split at h
  · next hover =>
    rw [← Except.error.inj h]
    exact ⟨Nat.le_of_not_lt hroom, rfl, Nat.le_of_not_lt hlong, rfl, hover⟩
  next hfits =>
  -- a header that lies within the file can be read
  have hheader : Header.size = 80 := rfl
  have hsize :
      ((bytes.drop (place + Record.prefixSize)).take Header.size).length = Header.size := by
    rw [List.length_take, List.length_drop]
    omega
  rw [Header.ofBytes?, dif_pos hsize] at h
  simp at h

theorem Scans.whole (h : Scans fileId magic bytes p rs stop fault) (hr : r ∈ rs) :
    r.Whole fileId bytes :=
  .of_readAt (h.mem hr).2.2.2

theorem Scans.faultAt (h : Scans fileId magic bytes p rs stop (some f)) : FaultAt bytes stop f := by
  generalize hfault : some f = fault at h
  induction h with
  | quiet _ _ => simp at hfault
  | broken _ hread =>
    rw [Option.some.inj hfault]
    exact .of_readAt hread
  | record _ _ _ ih => exact ih hfault

end Records

/-! ## Calls -/

namespace Scanner

/-- How far a scan comes: the end of its last record, or the corrupt record that ends it, or where
it starts. -/
def reach (s : Scanner) : Nat := s.endOf s.scanAll

/-- The records that a scan yields. -/
def yielded (s : Scanner) : List Record := s.scanAll.filterMap fun item => item.1.toOption

/-- The errors that a scan yields. -/
def errors (s : Scanner) : List Error :=
  s.scanAll.filterMap fun item =>
    match item.1 with
    | .error e => some e
    | .ok _ => none

variable {s t : Scanner} {item : Except Error Record}

theorem ask_of_none (h : s.next? = none) : s.ask = (none, { s with finished := true }) := by
  rw [ask, h]

theorem ask_of_some (h : s.next? = some (item, t)) : s.ask = (some item, t) := by
  rw [ask, h]

theorem asked_finished (h : s.finished = true) (n : Nat) : s.asked n = s ∧ s.ask.1 = none := by
  have hnone : s.next? = none := by rw [next?, if_pos h]
  have hask : s.ask = (none, s) := by
    rw [ask_of_none hnone]
    cases s
    simp_all
  refine ⟨?_, by rw [hask]⟩
  induction n with
  | zero => rfl
  | succ n ih => rw [asked, hask, ih]

/-- **Call after call** gives item after item, and then nothing for ever. -/
theorem ask_asked (s : Scanner) (n : Nat) : (s.asked n).ask.1 = (s.scanAll.map (·.1))[n]? := by
  induction n generalizing s with
  | zero =>
    cases h : s.next? with
    | none => rw [asked, ask_of_none h, scanAll_of_none h]; rfl
    | some found => rw [asked, ask_of_some h, scanAll_of_some h]; rfl
  | succ n ih =>
    cases h : s.next? with
    | none =>
      rw [asked, ask_of_none h, scanAll_of_none h, (asked_finished rfl n).1,
        (asked_finished rfl n).2]
      rfl
    | some found =>
      obtain ⟨item, t⟩ := found
      rw [asked, ask_of_some h, scanAll_of_some h]
      cases hover : t.finished with
      | true =>
        rw [(asked_finished hover n).1, (asked_finished hover n).2]
        rfl
      | false =>
        rw [ih t]
        rfl

/-- After its last item the scan stands as far as it comes, however often it is asked. -/
theorem scannedTo_asked (s : Scanner) {n : Nat} (h : s.scanAll.length ≤ n) :
    (s.asked n).scannedTo = s.reach := by
  rw [reach]
  induction n generalizing s with
  | zero =>
    rw [List.eq_nil_of_length_eq_zero (Nat.le_zero.1 h)]
    rfl
  | succ n ih =>
    cases hnext : s.next? with
    | none =>
      rw [asked, ask_of_none hnext, scanAll_of_none hnext, (asked_finished rfl n).1]
      rfl
    | some found =>
      obtain ⟨item, t⟩ := found
      have hall := scanAll_of_some hnext
      rw [asked, ask_of_some hnext]
      cases hover : t.finished with
      | true =>
        rw [hall, hover, (asked_finished hover n).1]
        rfl
      | false =>
        rw [hover, if_neg (by simp)] at hall
        rw [hall, List.length_cons] at h
        rw [hall, ih t (Nat.le_of_succ_le_succ h), endOf, endOf, List.getLast?_cons]
        cases t.scanAll.getLast? <;> rfl

end Scanner

/-! ## The grammar -/

section Grammar

variable {fileId : Nat} {path : Path} {magic : UInt32} {bytes more : Bytes} {p q stop : Nat}
  {rs : List Record} {fault : Option RecordFault}

/-- The answers of a scan: its records, and the error that ends it. -/
def scanAnswers (fileId : Nat) (rs : List Record) (stop : Nat) (fault : Option RecordFault) :
    List (Except Error Record) :=
  rs.map .ok ++ fault.toList.map fun f => .error (.corruptRecord fileId stop f)

theorem map_scanItems :
    (scanItems fileId rs stop fault).map (·.1) = scanAnswers fileId rs stop fault := by
  rw [scanItems, scanAnswers, List.map_append, List.map_map]
  congr 1
  cases fault <;> rfl

theorem Scans.reach (path : Path) (h : Scans fileId magic bytes p rs stop fault) :
    (Scanner.ofBytes fileId path magic bytes.length bytes p).reach = stop := by
  have hmin : min p bytes.length = p := Nat.min_eq_left (Nat.le_trans h.bounds.1 h.bounds.2)
  rw [Scanner.reach, scanAll_of_scans path h]
  exact Scans.endOf (by rwa [hmin])

theorem Scans.yielded (path : Path) (h : Scans fileId magic bytes p rs stop fault) :
    (Scanner.ofBytes fileId path magic bytes.length bytes p).yielded = rs := by
  rw [Scanner.yielded, scanAll_of_scans path h, records_scanItems]

theorem Scans.errors (path : Path) (h : Scans fileId magic bytes p rs stop fault) :
    (Scanner.ofBytes fileId path magic bytes.length bytes p).errors
      = fault.toList.map fun f => .corruptRecord fileId stop f := by
  rw [Scanner.errors, scanAll_of_scans path h, scanItems, List.filterMap_append, List.filterMap_map]
  have hrecords : rs.filterMap ((fun item : Except Error Record × Nat =>
      match item.1 with
      | .error e => some e
      | .ok _ => none) ∘ fun r => (.ok r, r.endOffset)) = [] :=
    List.filterMap_eq_nil_iff.2 fun _ _ => rfl
  rw [hrecords]
  cases fault <;> rfl

/-- **A scan yields what the grammar of block files says**, and then nothing, however often it is
asked. -/
theorem scan_parses (fileId : Nat) (path : Path) (magic : UInt32) (bytes : Bytes) (offset : Nat) :
    ∃ rs stop fault, Scans fileId magic bytes (min offset bytes.length) rs stop fault ∧
      (∀ r ∈ rs, r.Whole fileId bytes) ∧ (∀ f, fault = some f → FaultAt bytes stop f) ∧
      ∀ n, ((Scanner.ofBytes fileId path magic bytes.length bytes offset).asked n).ask.1
            = (scanAnswers fileId rs stop fault)[n]? ∧
          ((scanAnswers fileId rs stop fault).length ≤ n →
            ((Scanner.ofBytes fileId path magic bytes.length bytes offset).asked n).scannedTo
              = stop) := by
  obtain ⟨rs, stop, fault, h⟩ :=
    Scans.total fileId magic bytes (Nat.min_le_right offset bytes.length)
  have hitems := scanAll_of_scans path h
  have hreach := h.reach path
  rw [← ofBytes_min] at hitems hreach
  refine ⟨rs, stop, fault, h, fun r hr => h.whole hr, ?_, ?_⟩
  · rintro f rfl
    exact h.faultAt
  · intro n
    rw [← map_scanItems, ← hitems, List.length_map, ← hreach]
    exact ⟨Scanner.ask_asked _ n, fun hn => Scanner.scannedTo_asked _ hn⟩

/-- **Scanning a file that has grown** yields what was yielded before it grew, and then what a scan
from the place reached then yields; it comes as far, and ends with the same error, if any. -/
theorem scan_grown (fileId : Nat) (path : Path) (magic : UInt32) (bytes more : Bytes) (p : Nat)
    (h : p ≤ bytes.length) :
    let before := Scanner.ofBytes fileId path magic bytes.length bytes p
    let whole := Scanner.ofBytes fileId path magic (bytes ++ more).length (bytes ++ more) p
    let rest :=
      Scanner.ofBytes fileId path magic (bytes ++ more).length (bytes ++ more) before.reach
    whole.yielded = before.yielded ++ rest.yielded ∧ whole.reach = rest.reach ∧
      whole.errors = rest.errors := by
  obtain ⟨rs, stop, fault, hbefore⟩ := Scans.total fileId magic bytes h
  obtain ⟨ss, other, fault', hrest⟩ := Scans.total fileId magic (bytes ++ more) (p := stop) (by
    have := hbefore.bounds.2
    rw [List.length_append]
    omega)
  have hwhole := hbefore.append hrest
  dsimp only
  rw [hbefore.reach path, hbefore.yielded path, hwhole.yielded path, hrest.yielded path,
    hwhole.reach path, hrest.reach path, hwhole.errors path, hrest.errors path]
  exact ⟨rfl, rfl, rfl⟩

/-! ### A file that ends within the length of its third record -/

/-- The scan of a block file of the test network from an offset. -/
def scanOf (bytes : Bytes) (offset : Nat) : Scanner :=
  .ofBytes 0 ["blocks", "blk00000.dat"] Network.regtest.magic bytes.length bytes offset

/-- Two records and the first six bytes of a third one. -/
def tornFile : Bytes :=
  Header.framed Network.regtest.magic default ++ Header.framed Network.regtest.magic default
    ++ (Header.framed Network.regtest.magic default).take 6

/-- The rest of that record, padding, and a record whose length is too small. -/
def tornRest : Bytes :=
  (Header.framed Network.regtest.magic default).drop 6 ++ [0, 0, 0]
    ++ bytes32 Network.regtest.magic ++ bytes32 79

/-- The torn record is an error at first; once it is complete, the scan that is taken up there finds
it, and then the next error. -/
theorem scan_grown_torn :
    88 ≤ tornFile.length ∧
      ((scanOf (tornFile ++ tornRest) 88).yielded
          = (scanOf tornFile 88).yielded
            ++ (scanOf (tornFile ++ tornRest) (scanOf tornFile 88).reach).yielded ∧
        (scanOf (tornFile ++ tornRest) 88).reach
          = (scanOf (tornFile ++ tornRest) (scanOf tornFile 88).reach).reach ∧
        (scanOf (tornFile ++ tornRest) 88).errors
          = (scanOf (tornFile ++ tornRest) (scanOf tornFile 88).reach).errors) ∧
      ((scanOf tornFile 88).yielded.map Record.offset = [88] ∧
        (scanOf tornFile 88).errors = [.corruptRecord 0 176 (.prefixTruncated 6)] ∧
        (scanOf (tornFile ++ tornRest) 88).yielded.map Record.offset = [88, 176] ∧
        (scanOf (tornFile ++ tornRest) 88).errors
          = [.corruptRecord 0 267 (.shorterThanHeader 79)]) := by
  have hp : 88 ≤ tornFile.length := by decide +kernel
  refine ⟨hp, scan_grown 0 _ Network.regtest.magic tornFile tornRest 88 hp, ?_⟩
  decide +kernel

end Grammar

end BlockIndex
