import BlockIndex.Proofs.BlockFile.Marks

/-!
# What a scan finds

The scan of a block file told as a derivation.  A scan looks for the next mark, reads the record
there and goes on at its end; it ends where there is no mark any more, or where the record cannot be
read.

* `readAt`                the record whose mark stands at an offset, or what is wrong with it;
* `Scans`                 the records found from an offset on, the place up to which the file is then
                          scanned, and the fault there;
* `Boundary`              an offset at which a scan from the beginning can be taken up.

Main statements: `scanAll_of_scans` and `Scans.total` (every scan is one of these), `Scans.unique`,
`Scans.append` (what was found is found again when the file has grown, followed by what is found
from the end of the earlier scan on), `Boundary.scans`, `Boundary.append`.
-/

namespace BlockIndex

/-! ## Records -/

/-- The record whose mark stands at an offset, or what is wrong with it. -/
def readAt (fileId : Nat) (bytes : Bytes) (place : Nat) : Except RecordFault Record :=
  let start := place + Record.prefixSize
  if bytes.length < start then .error (.prefixTruncated (bytes.length - place))
  else
    let length := LittleEndian.decode ((bytes.drop (place + 4)).take 4)
    if length < Header.size then .error (.shorterThanHeader length)
    else if bytes.length - start < length then .error (.overrun length (bytes.length - start))
    else
      match Header.ofBytes? ((bytes.drop start).take Header.size) with
      | some header => .ok (Record.ofHeader header length fileId place)
      | none => .error .pastEnd

section Records

variable {fileId place : Nat} {bytes more : Bytes} {r : Record}

/-- A record that can be read lies within the file and says what stands there. -/
theorem readAt_ok (h : readAt fileId bytes place = .ok r) :
    r.fileId = fileId ∧ r.offset = place ∧ r.hash = r.header.hash ∧ r.endOffset ≤ bytes.length ∧
      Header.size ≤ r.length ∧
      r.length = LittleEndian.decode ((bytes.drop (place + 4)).take 4) ∧
      r.header.encode = (bytes.drop (place + Record.prefixSize)).take Header.size := by
  unfold readAt at h
  dsimp only at h
  split at h
  · simp at h
  next hroom =>
  split at h
  · simp at h
  next hlong =>
  split at h
  · simp at h
  next hfits =>
  split at h
  · next header hheader =>
    obtain rfl := Except.ok.inj h
    refine ⟨rfl, rfl, rfl, ?_, by simpa [Record.ofHeader] using hlong, rfl,
      Header.ofBytes?_eq_some_iff.1 hheader⟩
    simp only [Record.endOffset, Record.payloadOffset, Record.ofHeader]
    omega
  · simp at h

theorem take_drop_append {start n : Nat} (h : start + n ≤ bytes.length) :
    ((bytes ++ more).drop start).take n = (bytes.drop start).take n := by
  rw [List.drop_append_of_le_length (by omega), List.take_append_of_le_length]
  rw [List.length_drop]
  omega

theorem readAt_append (h : readAt fileId bytes place = .ok r) :
    readAt fileId (bytes ++ more) place = .ok r := by
  obtain ⟨_, hplace, _, hend, hsize, hlen, _⟩ := readAt_ok h
  have hroom : place + Record.prefixSize + r.length ≤ bytes.length := by
    rw [← hplace]
    exact hend
  have hprefix : Record.prefixSize = 8 := rfl
  have hheader : Header.size = 80 := rfl
  rw [← h]
  unfold readAt
  dsimp only
  rw [take_drop_append (by omega), take_drop_append (by omega), ← hlen, List.length_append]
  rw [if_neg (by omega), if_neg (by omega), if_neg (by omega), if_neg (by omega),
    if_neg (by omega), if_neg (by omega)]

end Records

/-! ## Scans -/

/-- A scan from an offset on: the records found, the place up to which the file is then scanned, and
what is wrong there, if anything is. -/
inductive Scans (fileId : Nat) (magic : UInt32) (bytes : Bytes) :
    Nat → List Record → Nat → Option RecordFault → Prop where
  | quiet {p : Nat} (inside : p ≤ bytes.length) (unmarked : ∀ q, p ≤ q → ¬ MarkAt magic bytes q) :
      Scans fileId magic bytes p [] p none
  | broken {p place : Nat} {fault : RecordFault} (mark : NextMark magic bytes p place)
      (read : readAt fileId bytes place = .error fault) :
      Scans fileId magic bytes p [] place (some fault)
  | record {p place stop : Nat} {r : Record} {rs : List Record} {fault : Option RecordFault}
      (mark : NextMark magic bytes p place) (read : readAt fileId bytes place = .ok r)
      (rest : Scans fileId magic bytes r.endOffset rs stop fault) :
      Scans fileId magic bytes p (r :: rs) stop fault

theorem Record.endOffset_eq (r : Record) : r.endOffset = r.offset + 8 + r.length := rfl

theorem readAt_length_lt (h : readAt fileId bytes place = .ok r) : r.length < 0x1_0000_0000 := by
  obtain ⟨_, hoffset, _, hend, _, hlen, _⟩ := readAt_ok h
  have hpos := r.endOffset_eq
  have hfour : ((bytes.drop (place + 4)).take 4).length = 4 := by
    rw [List.length_take, List.length_drop]
    omega
  have hlt := LittleEndian.decode_lt ((bytes.drop (place + 4)).take 4)
  rw [hfour, LittleEndian.limit_four, ← hlen] at hlt
  exact hlt

namespace Scans

variable {fileId : Nat} {magic : UInt32} {bytes more : Bytes} {p q stop other : Nat}
  {rs ss : List Record} {fault fault' : Option RecordFault} {r : Record}

theorem total (fileId : Nat) (magic : UInt32) (bytes : Bytes) {p : Nat} (h : p ≤ bytes.length) :
    ∃ rs stop fault, Scans fileId magic bytes p rs stop fault := by
  -- by induction on what is left of the file: every record takes some of it
  generalize hleft : bytes.length - p = left
  induction left using Nat.strongRecOn generalizing p with
  | ind left ih =>
    rcases seekMark_spec magic bytes h with ⟨place, hnext, _⟩ | ⟨hnone, _⟩
    · cases hread : readAt fileId bytes place with
      | error f => exact ⟨[], place, some f, broken hnext hread⟩
      | ok r =>
        obtain ⟨_, hplace, _, hend, _⟩ := readAt_ok hread
        have hpos := r.endOffset_eq
        have hle := hnext.1
        obtain ⟨rs, stop, f, hrest⟩ :=
          ih (bytes.length - r.endOffset) (by omega) hend rfl
        exact ⟨r :: rs, stop, f, record hnext hread hrest⟩
    · exact ⟨[], p, none, quiet h hnone⟩

theorem unique (h : Scans fileId magic bytes p rs stop fault) :
    ∀ {ss other fault'}, Scans fileId magic bytes p ss other fault' →
      ss = rs ∧ other = stop ∧ fault' = fault := by
  induction h with
  | quiet _ hnone =>
    intro ss other fault' h'
    cases h' with
    | quiet _ _ => exact ⟨rfl, rfl, rfl⟩
    | broken hnext _ => exact absurd hnext.2.1 (hnone _ hnext.1)
    | record hnext _ _ => exact absurd hnext.2.1 (hnone _ hnext.1)
  | broken hnext hread =>
    intro ss other fault' h'
    cases h' with
    | quiet _ hnone => exact absurd hnext.2.1 (hnone _ hnext.1)
    | broken hnext' hread' =>
      obtain rfl := hnext.unique hnext'
      rw [hread] at hread'
      exact ⟨rfl, rfl, by rw [Except.error.inj hread']⟩
    | record hnext' hread' _ =>
      obtain rfl := hnext.unique hnext'
      rw [hread] at hread'
      simp at hread'
  | record hnext hread _ ih =>
    intro ss other fault' h'
    cases h' with
    | quiet _ hnone => exact absurd hnext.2.1 (hnone _ hnext.1)
    | broken hnext' hread' =>
      obtain rfl := hnext.unique hnext'
      rw [hread] at hread'
      simp at hread'
    | record hnext' hread' hrest' =>
      obtain rfl := hnext.unique hnext'
      rw [hread] at hread'
      obtain rfl := Except.ok.inj hread'
      obtain ⟨hrs, hstop, hfault⟩ := ih hrest'
      exact ⟨by rw [hrs], hstop, hfault⟩

theorem bounds (h : Scans fileId magic bytes p rs stop fault) :
    p ≤ stop ∧ stop ≤ bytes.length := by
  induction h with
  | quiet hp _ => exact ⟨Nat.le_refl _, hp⟩
  | broken hnext _ =>
    have := hnext.2.1.room
    exact ⟨hnext.1, by omega⟩
  | @record p place stop r rs fault hnext hread _ ih =>
    obtain ⟨_, hplace, _⟩ := readAt_ok hread
    have hpos := r.endOffset_eq
    have := hnext.1
    exact ⟨by omega, ih.2⟩

/-- Every record found is read at its own offset, between the start and the place reached. -/
theorem mem (h : Scans fileId magic bytes p rs stop fault) (hr : r ∈ rs) :
    p ≤ r.offset ∧ r.endOffset ≤ stop ∧ MarkAt magic bytes r.offset ∧
      readAt fileId bytes r.offset = .ok r := by
  induction h with
  | quiet _ _ => simp at hr
  | broken _ _ => simp at hr
  | @record p place stop s rs fault hnext hread hrest ih =>
    obtain ⟨_, hplace, _⟩ := readAt_ok hread
    have hle := hnext.1
    rcases List.mem_cons.1 hr with rfl | hr
    · refine ⟨by omega, hrest.bounds.1, ?_, ?_⟩
      · rw [hplace]
        exact hnext.2.1
      · rw [hplace]
        exact hread
    · obtain ⟨hlow, hrest'⟩ := ih hr
      have hpos := s.endOffset_eq
      exact ⟨by omega, hrest'⟩

theorem sorted (h : Scans fileId magic bytes p rs stop fault) :
    rs.Pairwise fun x y => x.endOffset ≤ y.offset := by
  induction h with
  | quiet _ _ => exact List.Pairwise.nil
  | broken _ _ => exact List.Pairwise.nil
  | record _ _ hrest ih => exact List.pairwise_cons.2 ⟨fun s hs => (hrest.mem hs).1, ih⟩

/-- A scan can be taken up at each of its records, and at its end. -/
theorem resume (h : Scans fileId magic bytes p (ss ++ rs) stop fault) :
    (∀ r rest, rs = r :: rest → Scans fileId magic bytes r.offset rs stop fault) ∧
      (rs = [] → Scans fileId magic bytes stop [] stop fault) := by
  generalize hall : ss ++ rs = all at h
  induction h generalizing ss with
  | quiet hp hnone =>
    obtain ⟨rfl, rfl⟩ := List.append_eq_nil_iff.1 hall
    exact ⟨fun r rest heq => by simp at heq, fun _ => quiet hp hnone⟩
  | broken hnext hread =>
    obtain ⟨rfl, rfl⟩ := List.append_eq_nil_iff.1 hall
    exact ⟨fun r rest heq => by simp at heq, fun _ => broken (NextMark.self hnext.2.1) hread⟩
  | @record p place stop s tail fault hnext hread hrest ih =>
    obtain ⟨_, hplace, _⟩ := readAt_ok hread
    cases ss with
    | nil =>
      rw [List.nil_append] at hall
      subst hall
      refine ⟨?_, fun heq => by simp at heq⟩
      intro r rest heq
      obtain ⟨rfl, rfl⟩ := List.cons.inj heq
      rw [hplace]
      exact record (NextMark.self hnext.2.1) hread hrest
    | cons x xs =>
      obtain ⟨_, htail⟩ := List.cons.inj hall
      exact ih htail

/-- **Scanning a file that has grown.**  What was found is found again, and then what is found from
the place reached on. -/
theorem append (h : Scans fileId magic bytes p rs stop fault)
    (h' : Scans fileId magic (bytes ++ more) stop ss other fault') :
    Scans fileId magic (bytes ++ more) p (rs ++ ss) other fault' := by
  induction h with
  | quiet _ _ => exact h'
  | @broken p place f hnext _ =>
    -- the mark at which the scan ended is still the first one
    have hmark : NextMark magic (bytes ++ more) p place := hnext.append
    cases h' with
    | quiet _ hnone => exact absurd hmark.2.1 (hnone _ (Nat.le_refl _))
    | broken hnext' hread' =>
      obtain rfl := (NextMark.self hmark.2.1).unique hnext'
      exact broken hmark hread'
    | record hnext' hread' hrest' =>
      obtain rfl := (NextMark.self hmark.2.1).unique hnext'
      exact record hmark hread' hrest'
  | record hnext hread _ ih => exact record hnext.append (readAt_append hread) (ih h')

end Scans

/-! ## Boundaries -/

/-- An offset at which a scan from the beginning of the file can be taken up: no record found lies
across it, and what is found from there on is the rest of what is found. -/
def Boundary (fileId : Nat) (magic : UInt32) (bytes : Bytes) (p : Nat) : Prop :=
  ∃ before rs stop fault, Scans fileId magic bytes 0 (before ++ rs) stop fault ∧
    Scans fileId magic bytes p rs stop fault ∧ ∀ r ∈ before, r.endOffset ≤ p

section Boundaries

variable {fileId : Nat} {magic : UInt32} {bytes more : Bytes} {p stop : Nat} {rs : List Record}
  {fault : Option RecordFault} {r : Record}

theorem Boundary.zero (fileId : Nat) (magic : UInt32) (bytes : Bytes) :
    Boundary fileId magic bytes 0 := by
  obtain ⟨rs, stop, fault, h⟩ := Scans.total fileId magic bytes (Nat.zero_le _)
  exact ⟨[], rs, stop, fault, h, h, fun r hr => by simp at hr⟩

theorem Boundary.le_length (h : Boundary fileId magic bytes p) : p ≤ bytes.length := by
  obtain ⟨_, _, _, _, _, h, _⟩ := h
  have := h.bounds
  omega

theorem Scans.boundary_offset (h : Scans fileId magic bytes 0 rs stop fault) (hr : r ∈ rs) :
    Boundary fileId magic bytes r.offset := by
  obtain ⟨before, after, rfl⟩ := List.append_of_mem hr
  refine ⟨before, r :: after, stop, fault, h, h.resume.1 r after rfl, ?_⟩
  intro s hs
  exact (List.pairwise_append.1 h.sorted).2.2 s hs r List.mem_cons_self

theorem Boundary.append (h : Boundary fileId magic bytes p) :
    Boundary fileId magic (bytes ++ more) p := by
  obtain ⟨before, rs, stop, fault, hall, hrest, hbefore⟩ := h
  have hstop := hrest.bounds.2
  obtain ⟨ss, other, fault', hmore⟩ := Scans.total fileId magic (bytes ++ more) (p := stop) (by
    rw [List.length_append]
    omega)
  have hgrown := hall.append hmore
  rw [List.append_assoc] at hgrown
  exact ⟨before, rs ++ ss, other, fault', hgrown, hrest.append hmore, hbefore⟩

/-- From a boundary on a scan finds the records that stand there, and comes to the same place. -/
theorem Boundary.scans (h : Boundary fileId magic bytes p)
    (hall : Scans fileId magic bytes 0 rs stop fault) :
    Scans fileId magic bytes p (rs.filter fun r => p ≤ r.offset) stop fault := by
  obtain ⟨before, ss, other, fault', hall', hrest, hbefore⟩ := h
  obtain ⟨rfl, rfl, rfl⟩ := hall.unique hall'
  have hlow : (before.filter fun r => p ≤ r.offset) = [] := by
    rw [List.filter_eq_nil_iff]
    intro r hr
    have hend := hbefore r hr
    have hpos := r.endOffset_eq
    rw [decide_eq_true_eq]
    omega
  have hhigh : (ss.filter fun r => p ≤ r.offset) = ss := by
    rw [List.filter_eq_self]
    intro r hr
    rw [decide_eq_true_eq]
    exact (hrest.mem hr).1
  rw [List.filter_append, hlow, hhigh, List.nil_append]
  exact hrest

/-- Scanning on from a boundary comes upon boundaries. -/
theorem Boundary.advance {front back : List Record} {q : Nat} (h : Boundary fileId magic bytes p)
    (hall : Scans fileId magic bytes p (front ++ back) stop fault)
    (hback : Scans fileId magic bytes q back stop fault) (hle : p ≤ q)
    (hfront : ∀ r ∈ front, r.endOffset ≤ q) : Boundary fileId magic bytes q := by
  obtain ⟨before, ss, other, fault', hwhole, hrest, hbefore⟩ := h
  obtain ⟨rfl, rfl, rfl⟩ := hall.unique hrest
  rw [← List.append_assoc] at hwhole
  refine ⟨before ++ front, back, _, _, hwhole, hback, ?_⟩
  intro r hr
  rcases List.mem_append.1 hr with hr | hr
  · exact Nat.le_trans (hbefore r hr) hle
  · exact hfront r hr

theorem Scans.mem_append (h : Scans fileId magic bytes 0 rs stop fault) (hr : r ∈ rs)
    {ss : List Record} {other : Nat} {fault' : Option RecordFault}
    (hall : Scans fileId magic (bytes ++ more) 0 ss other fault') : r ∈ ss := by
  have hstop := h.bounds.2
  obtain ⟨new, other', fault'', hmore⟩ := Scans.total fileId magic (bytes ++ more) (p := stop) (by
    rw [List.length_append]
    omega)
  obtain ⟨rfl, _, _⟩ := hall.unique (h.append hmore)
  exact List.mem_append_left new hr

/-- What is found before a boundary of a part of a file is found in that part. -/
theorem Boundary.mem_of_append (h : Boundary fileId magic bytes p)
    (hpart : Scans fileId magic bytes 0 rs stop fault) {ss : List Record} {other : Nat}
    {fault' : Option RecordFault} (hall : Scans fileId magic (bytes ++ more) 0 ss other fault')
    (hr : r ∈ ss) (hlt : r.offset < p) : r ∈ rs := by
  have hstop := hpart.bounds.2
  obtain ⟨new, other', fault'', hmore⟩ := Scans.total fileId magic (bytes ++ more) (p := stop) (by
    rw [List.length_append]
    omega)
  obtain ⟨rfl, _, _⟩ := hall.unique (hpart.append hmore)
  rcases List.mem_append.1 hr with hr | hr
  · exact hr
  · have hlow := (hmore.mem hr).1
    have hp := (h.scans hpart).bounds.1
    omega

end Boundaries

/-! ## The scanner -/

section Scanner

variable {fileId : Nat} {path : Path} {magic : UInt32} {bytes : Bytes} {p place stop : Nat}
  {rs : List Record} {fault : Option RecordFault}

/-- The last item of a scan that a corrupt record ended. -/
def faultItems (fileId stop : Nat) : Option RecordFault → List (Except Error Record × Nat)
  | some f => [(.error (.corruptRecord fileId stop f), stop)]
  | none => []

/-- The items of a scan. -/
def scanItems (fileId : Nat) (rs : List Record) (stop : Nat) (fault : Option RecordFault) :
    List (Except Error Record × Nat) :=
  rs.map (fun r => (.ok r, r.endOffset)) ++ faultItems fileId stop fault

theorem readRecord_eq (fileId : Nat) (path : Path) (hmark : MarkAt magic bytes place) :
    (∃ r, readAt fileId bytes place = .ok r ∧
      (Scanner.ofBytes fileId path magic bytes.length bytes p).readRecord place
          (bytes.drop (place + 4))
        = (.ok r, Scanner.ofBytes fileId path magic bytes.length bytes r.endOffset)) ∨
    ∃ f, readAt fileId bytes place = .error f ∧
      (Scanner.ofBytes fileId path magic bytes.length bytes p).readRecord place
          (bytes.drop (place + 4))
        = (.error (.corruptRecord fileId place f),
            (Scanner.ofBytes fileId path magic bytes.length bytes p).corruptAt place) := by
  have hroom := hmark.room
  have hprefix : Record.prefixSize = 8 := rfl
  have hheader : Header.size = 80 := rfl
  unfold Scanner.readRecord readAt Scanner.corrupt
  dsimp only
  rw [show (Scanner.ofBytes fileId path magic bytes.length bytes p).len = bytes.length from rfl,
    show (Scanner.ofBytes fileId path magic bytes.length bytes p).fileId = fileId from rfl]
  by_cases hshort : bytes.length < place + Record.prefixSize
  · have hnone : splitFront 4 (bytes.drop (place + 4)) = none := by
      rw [splitFront_eq_none_iff, List.length_drop]
      omega
    rw [hnone, if_pos hshort]
    exact Or.inr ⟨_, rfl, rfl⟩
  · have hsome : splitFront 4 (bytes.drop (place + 4))
        = some ((bytes.drop (place + 4)).take 4, bytes.drop (place + Record.prefixSize)) :=
      splitFront_drop (by omega)
    rw [hsome]
    dsimp only
    rw [if_neg hshort, if_neg hshort]
    generalize hlength : LittleEndian.decode ((bytes.drop (place + 4)).take 4) = length
    by_cases hsmall : length < Header.size
    · rw [if_pos hsmall, if_pos hsmall]
      exact Or.inr ⟨_, rfl, rfl⟩
    rw [if_neg hsmall, if_neg hsmall]
    by_cases hover : bytes.length - (place + Record.prefixSize) < length
    · rw [if_pos hover, if_pos hover]
      exact Or.inr ⟨_, rfl, rfl⟩
    rw [if_neg hover, if_neg hover]
    have hpayload : splitFront Header.size (bytes.drop (place + Record.prefixSize))
        = some ((bytes.drop (place + Record.prefixSize)).take Header.size,
          bytes.drop (place + Record.prefixSize + Header.size)) := splitFront_drop (by omega)
    have hfront := (splitFront_eq_some_iff.1 hpayload).2
    left
    refine ⟨Record.ofHeader (Header.decode _ hfront) length fileId place, ?_, ?_⟩
    · unfold Header.ofBytes?
      rw [dif_pos hfront]
    · split
      · next hnone => rw [hpayload] at hnone; simp at hnone
      · next raw body hraw =>
        rw [hpayload] at hraw
        obtain ⟨rfl, rfl⟩ := Prod.mk.inj (Option.some.inj hraw)
        have hend : place + Record.prefixSize + length ≤ bytes.length := by omega
        have hmin : min (place + Record.prefixSize + length) bytes.length
            = place + Record.prefixSize + length := Nat.min_eq_left hend
        simp only [Scanner.ofBytes, Record.endOffset, Record.payloadOffset, Record.ofHeader, hmin,
          List.drop_drop]
        congr 3
        omega

theorem NextMark.le_length (h : NextMark magic bytes p place) : p ≤ bytes.length := by
  have hroom := h.2.1.room
  have hle := h.1
  omega

theorem next?_ofBytes (fileId : Nat) (path : Path) (magic : UInt32) (hp : p ≤ bytes.length) :
    (Scanner.ofBytes fileId path magic bytes.length bytes p).next? =
      (seekMark magic p (bytes.drop p)).map fun found =>
        (Scanner.ofBytes fileId path magic bytes.length bytes p).readRecord found.1 found.2 := by
  have hmin : min p bytes.length = p := Nat.min_eq_left hp
  have hpos : (Scanner.ofBytes fileId path magic bytes.length bytes p).pos = p := hmin
  have hrest : (Scanner.ofBytes fileId path magic bytes.length bytes p).rest = bytes.drop p :=
    congrArg bytes.drop hmin
  unfold Scanner.next?
  rw [show (Scanner.ofBytes fileId path magic bytes.length bytes p).finished = false from rfl,
    show (Scanner.ofBytes fileId path magic bytes.length bytes p).magic = magic from rfl, hpos,
    hrest]
  cases seekMark magic p (bytes.drop p) <;> rfl

theorem NextMark.seekMark_eq (h : NextMark magic bytes p place) :
    seekMark magic p (bytes.drop p) = some (place, bytes.drop (place + 4)) := by
  rcases seekMark_spec magic bytes h.le_length with ⟨other, hother, hfind⟩ | ⟨hnone, _⟩
  · rw [h.unique hother, hfind]
  · exact absurd h.2.1 (hnone _ h.1)

theorem NextMark.next? (fileId : Nat) (path : Path) (h : NextMark magic bytes p place) :
    (Scanner.ofBytes fileId path magic bytes.length bytes p).next?
      = some ((Scanner.ofBytes fileId path magic bytes.length bytes p).readRecord place
          (bytes.drop (place + 4))) := by
  rw [next?_ofBytes fileId path magic h.le_length, h.seekMark_eq]
  rfl

theorem scanAll_of_none {s : Scanner} (h : s.next? = none) : s.scanAll = [] := by
  unfold Scanner.scanAll
  split
  · rfl
  · next item t hsome =>
    rw [h] at hsome
    simp at hsome

theorem scanAll_of_some {s t : Scanner} {item : Except Error Record} (h : s.next? = some (item, t)) :
    s.scanAll = (item, t.scannedTo) :: if t.finished then [] else t.scanAll := by
  rw [Scanner.scanAll]
  split
  · next hnone =>
    rw [h] at hnone
    simp at hnone
  · next item' t' hsome =>
    rw [h] at hsome
    obtain ⟨rfl, rfl⟩ := Prod.mk.inj (Option.some.inj hsome)
    cases t.finished <;> rfl

theorem scanAll_of_scans (path : Path) (h : Scans fileId magic bytes p rs stop fault) :
    (Scanner.ofBytes fileId path magic bytes.length bytes p).scanAll
      = scanItems fileId rs stop fault := by
  induction h with
  | @quiet p hp hnone =>
    apply scanAll_of_none
    rw [next?_ofBytes fileId path magic hp]
    rcases seekMark_spec magic bytes hp with ⟨place, hmark, _⟩ | ⟨_, hfind⟩
    · exact absurd hmark.2.1 (hnone _ hmark.1)
    · rw [hfind]
      rfl
  | @broken p place f hmark hread =>
    have hnext := hmark.next? fileId path
    rcases readRecord_eq fileId path hmark.2.1 with ⟨r, hok, _⟩ | ⟨f', herror, heq⟩
    · rw [hread] at hok
      simp at hok
    · rw [hread] at herror
      obtain rfl := Except.error.inj herror
      rw [heq] at hnext
      exact scanAll_of_some hnext
  | @record p place stop r rs fault hmark hread hrest ih =>
    have hnext := hmark.next? fileId path
    rcases readRecord_eq fileId path hmark.2.1 with ⟨r', hok, heq⟩ | ⟨f, herror, _⟩
    · rw [hread] at hok
      obtain rfl := Except.ok.inj hok
      rw [heq] at hnext
      have hplace : (Scanner.ofBytes fileId path magic bytes.length bytes r.endOffset).scannedTo
          = r.endOffset := Nat.min_eq_left (readAt_ok hread).2.2.2.1
      rw [scanAll_of_some hnext, hplace, if_neg (by simp [Scanner.ofBytes]), ih]
      rfl
    · rw [hread] at herror
      simp at herror

end Scanner

end BlockIndex
