import BlockIndex.Store.Database
import BlockIndex.Store.Memory
import BlockIndex.Proofs.Cursor
import BlockIndex.Proofs.FileMap

/-!
# Snapshots in tables

What it means that tables hold a snapshot, and that it can be read back.

* `Snapshot.Fits`  every number but the heights has a place in a row;
* `Encodes`        tables hold a snapshot.

Main statement: `Encodes.snapshot` (what is held is read back, or the tables count as corrupt:
heights in rows have 32 bits).
-/

namespace BlockIndex

/-! ## Numbers -/

section Numbers

theorem digitValue?_digitChar {d : Nat} (h : d < 10) :
    Text.digitValue? d.digitChar = some d := by
  have hdigits : ∀ i : Fin 10, Text.digitValue? (Nat.digitChar i.val) = some i.val := by decide
  exact hdigits ⟨d, h⟩

theorem digitsFrom?_append {start value : Nat} {cs ds : List Char}
    (h : Text.digitsFrom? start cs = some value) :
    Text.digitsFrom? start (cs ++ ds) = Text.digitsFrom? value ds := by
  induction cs generalizing start with
  | nil => rw [Option.some.inj h, List.nil_append]
  | cons c rest ih =>
    rw [List.cons_append, Text.digitsFrom?]
    rw [Text.digitsFrom?] at h
    split at h
    · next d hd => exact ih h
    · simp at h

theorem digitsFrom?_toDigits (n : Nat) : Text.digitsFrom? 0 (Nat.toDigits 10 n) = some n := by
  induction n using Nat.strongRecOn with
  | ind n ih =>
    by_cases hn : n < 10
    · rw [Nat.toDigits_of_lt_base hn, Text.digitsFrom?, digitValue?_digitChar hn]
      simp [Text.digitsFrom?]
    · have hlast : n % 10 < 10 := Nat.mod_lt _ (by decide)
      have hsplit := Nat.toDigits_append_toDigits (b := 10) (n := n / 10) (d := n % 10) (by decide)
        (by omega) hlast
      rw [Nat.div_add_mod, Nat.toDigits_of_lt_base hlast] at hsplit
      rw [← hsplit, digitsFrom?_append (ih (n / 10) (by omega)), Text.digitsFrom?,
        digitValue?_digitChar hlast]
      simp only [Text.digitsFrom?, Option.some.injEq]
      omega

theorem numeral?_toString {limit n : Nat} (h : n < limit) :
    Text.numeral? limit (toString n) = some n := by
  have hlist : (toString n).toList = Nat.toDigits 10 n := by
    show (Nat.repr n).toList = Nat.toDigits 10 n
    rw [Nat.repr, String.toList_ofList]
  have hdigits : Text.digits? (Nat.toDigits 10 n) = some n := by
    unfold Text.digits?
    split
    · next hnil => exact absurd hnil Nat.toDigits_ne_nil
    · exact digitsFrom?_toDigits n
  have hplus : ∀ rest, Nat.toDigits 10 n ≠ '+' :: rest := by
    intro rest heq
    have hdigit := Nat.isDigit_of_mem_toDigits (b := 10) (n := n) (by decide) (by decide)
      (c := '+') (by rw [heq]; exact List.mem_cons_self)
    exact absurd hdigit (by decide)
  unfold Text.numeral?
  rw [hlist]
  dsimp only
  split
  · next m hm =>
    split at hm
    · next rest heq => exact absurd heq (hplus rest)
    · rw [hdigits] at hm
      obtain rfl := Option.some.inj hm
      exact if_pos h
  · next hm =>
    split at hm
    · next rest heq => exact absurd heq (hplus rest)
    · rw [hdigits] at hm
      simp at hm

theorem signed64_eq {n : Nat} (h : n < 0x8000_0000_0000_0000) : signed64 n = n := by
  unfold signed64
  rw [Int.bmod_def]
  omega

theorem number32_eq {n : Nat} (h : n < 0x1_0000_0000) : TableReading.number32 n = .ok n := by
  unfold TableReading.number32
  rw [if_pos (by omega), Int.toNat_natCast]

theorem offset_signed64 {n : Nat} (h : n < 0x8000_0000_0000_0000) :
    TableReading.offset (signed64 n) = .ok n := by
  unfold TableReading.offset
  rw [signed64_eq h, if_pos (by omega), Int.toNat_natCast]

end Numbers

/-! ## What fits into rows -/

/-- The numbers of a record have places in a row. -/
def Record.Fits (r : Record) : Prop := r.fileId < 0x1_0000_0000 ∧ r.offset < 0x8000_0000_0000_0000 ∧ r.length < 0x1_0000_0000

/-- The record says its header's hash. -/
def Record.Genuine (r : Record) : Prop := r.header.hash = r.hash

/-- The numbers of a position can be stored. -/
def Cursor.Fits (c : Cursor) : Prop := c.fileId < 0x1_0000_0000 ∧ c.offset < 0x8000_0000_0000_0000

theorem Cursor.Fits.offset_lt {c : Cursor} (h : c.Fits) : c.offset < 0x1_0000_0000_0000_0000 := by
  have : c.offset < 0x8000_0000_0000_0000 := h.2
  omega

theorem Cursor.Fits.rewindToAll {a : Cursor} {others : List Cursor} (ha : a.Fits)
    (hothers : ∀ b ∈ others, b.Fits) : (a.rewindToAll others).Fits := by
  rcases Cursor.rewindToAll_mem a others with h | h
  · rw [h]
    exact ha
  · exact hothers _ h

/-- What a run writes besides entries fits. -/
structure ScanState.Fits (state : ScanState) : Prop where
  cursor : state.cursor.Fits
  files : ∀ id fp, (id, fp) ∈ state.files.toList →
    id < 0x1_0000_0000 ∧ fp.len < 0x8000_0000_0000_0000 ∧ fp.scannedTo < 0x8000_0000_0000_0000
  orphans : ∀ r ∈ state.orphans, r.Fits ∧ r.Genuine
  sorted : state.orphans.Pairwise fun x y => x.position ≤ y.position
  distinct : (state.orphans.map Record.hash).Nodup

/-- The state of a snapshot. -/
def Snapshot.state (s : Snapshot) : ScanState := ⟨s.cursor, s.tip, s.files, s.orphans⟩

/-- A snapshot fits, heights apart. -/
structure Snapshot.Fits (s : Snapshot) : Prop where
  entries : ∀ e ∈ s.entries, e.toRecord.Fits
  state : s.state.Fits

theorem Snapshot.Fits.empty : Snapshot.empty.Fits where
  entries := by
    intro e he
    simp [Snapshot.empty] at he
  state :=
    { cursor := ⟨by decide, by decide⟩
      files := by
        intro id fp h
        simp [Snapshot.empty, Snapshot.state, FileMap.empty] at h
      orphans := by
        intro r hr
        simp [Snapshot.empty, Snapshot.state] at hr
      sorted := List.Pairwise.nil
      distinct := List.Pairwise.nil }

theorem Snapshot.Fits.truncate {s : Snapshot} (h : s.Fits) (height : Nat) :
    (s.truncate height).Fits where
  entries := fun e he => h.entries e (List.mem_filter.1 he).1
  state :=
    { cursor := by
        apply h.state.cursor.rewindToAll
        intro c hc
        obtain ⟨e, he, rfl⟩ := List.mem_map.1 hc
        have hfits := h.entries e (List.mem_filter.1 he).1
        exact ⟨hfits.1, hfits.2.1⟩
      files := h.state.files
      orphans := h.state.orphans
      sorted := h.state.sorted
      distinct := h.state.distinct }

theorem Snapshot.Fits.withTip {s : Snapshot} (h : s.Fits) (tip : Option Hash) :
    { s with tip := tip }.Fits where
  entries := h.entries
  state :=
    { cursor := h.state.cursor
      files := h.state.files
      orphans := h.state.orphans
      sorted := h.state.sorted
      distinct := h.state.distinct }

/-! ## Settings -/

section Settings

variable {t : Tables} {key other value : String}

theorem setting?_removeSetting :
    (t.removeSetting key).setting? other = if other = key then none else t.setting? other := by
  unfold Tables.setting? Tables.removeSetting
  dsimp only
  rw [List.find?_filter]
  by_cases h : other = key
  · rw [if_pos h, Option.map_eq_none_iff, List.find?_eq_none]
    intro p _ hp
    simp only [Bool.decide_and, Bool.and_eq_true, decide_eq_true_eq] at hp
    exact hp.1 (hp.2.trans h)
  · rw [if_neg h]
    have hsame : (fun p : String × String => decide (decide (p.1 ≠ key) = true ∧
        decide (p.1 = other) = true)) = fun p => decide (p.1 = other) := by
      funext p
      by_cases hp : p.1 = other
      · simp [hp, h]
      · simp [hp]
    rw [hsame]

theorem setting?_putSetting :
    (t.putSetting key value).setting? other
      = if other = key then some value else t.setting? other := by
  show ((((t.removeSetting key).settings ++ [(key, value)]).find? fun s => s.1 = other).map (·.2)) = _
  have hremoved : (t.removeSetting key).setting? other = _ := setting?_removeSetting
  unfold Tables.setting? at hremoved
  rw [List.find?_append]
  by_cases h : other = key
  · rw [if_pos h] at hremoved
    rw [if_pos h, Option.map_eq_none_iff.1 hremoved, List.find?_cons_of_pos (by simp [h])]
    rfl
  · rw [if_neg h] at hremoved
    rw [if_neg h, List.find?_cons_of_neg (by simp [Ne.symm h]), List.find?_nil, Option.or_none,
      hremoved]
    rfl

theorem putNewSetting_of_some (h : t.setting? key = some other) : t.putNewSetting key value = t := by
  unfold Tables.putNewSetting
  rw [h]
  rfl

end Settings

/-! ## Tables that hold a snapshot -/

/-- Tables for the network of a magic hold a snapshot. -/
structure Encodes (magic : UInt32) (t : Tables) (s : Snapshot) : Prop where
  entries : t.entries = s.entries.map TableWriting.entryRow
  orphans : t.orphans = s.orphans.map TableWriting.orphanRow
  files : t.files = s.files.toList.map fun p => TableWriting.fileRow p.1 p.2
  version : t.setting? "format_version" = some (toString formatVersion)
  network : t.setting? "magic" = some (toString magic.toNat)
  cursor : TableReading.cursor t = .ok s.cursor
  tip : TableReading.tip t = .ok s.tip
  fits : s.Fits

section Reading

variable {magic : UInt32} {t u : Tables} {s : Snapshot}

theorem readCursor_congr (hfile : u.setting? "cursor_file" = t.setting? "cursor_file")
    (hoffset : u.setting? "cursor_offset" = t.setting? "cursor_offset") :
    TableReading.cursor u = TableReading.cursor t := by
  unfold TableReading.cursor
  rw [hfile, hoffset]

theorem readTip_congr (h : u.setting? "tip" = t.setting? "tip") :
    TableReading.tip u = TableReading.tip t := by
  unfold TableReading.tip
  rw [h]

theorem rows_map {α β : Type} {read : α → Except Error β} {write : β → α} {bs : List β}
    (h : ∀ b ∈ bs, read (write b) = .ok b) : TableReading.rows read (bs.map write) = .ok bs := by
  induction bs with
  | nil => rfl
  | cons b rest ih =>
    rw [List.map_cons, TableReading.rows, h b List.mem_cons_self,
      ih fun c hc => h c (List.mem_cons_of_mem b hc)]
    rfl

theorem hash_bytes (hash : Hash) : TableReading.hash hash.bytes = .ok hash := by
  unfold TableReading.hash
  rw [Hash.ofBytes?_bytes]

theorem header_encode (header : Header) : TableReading.header header.encode = .ok header := by
  unfold TableReading.header
  rw [Header.ofBytes?_encode]

/-- An entry is read back, unless its height is too large for its row. -/
theorem entry_entryRow {e : Entry} (h : e.toRecord.Fits) :
    TableReading.entry (TableWriting.entryRow e)
      = if e.height < 0x1_0000_0000 then .ok e else .error (.cacheCorrupt .engine) := by
  obtain ⟨hfile, hoffset, hlength⟩ := h
  unfold TableReading.entry TableWriting.entryRow
  dsimp only [Entry.toRecord] at hfile hoffset hlength ⊢
  rw [number32_eq hfile, number32_eq hlength, hash_bytes, header_encode, offset_signed64 hoffset]
  by_cases hheight : e.height < 0x1_0000_0000
  · rw [number32_eq hheight, if_pos hheight]
    rfl
  · rw [if_neg hheight]
    unfold TableReading.number32
    rw [if_neg (by omega)]
    rfl

theorem orphan_orphanRow {r : Record} (hfits : r.Fits) (hgenuine : r.Genuine) :
    TableReading.orphan (TableWriting.orphanRow r) = .ok r := by
  obtain ⟨hfile, hoffset, hlength⟩ := hfits
  have hrecord : Record.ofHeader r.header r.length r.fileId r.offset = r := by
    unfold Record.ofHeader
    rw [hgenuine]
  unfold TableReading.orphan TableWriting.orphanRow
  dsimp only
  rw [number32_eq hfile, number32_eq hlength, hash_bytes, header_encode, offset_signed64 hoffset]
  show (if (Record.ofHeader r.header r.length r.fileId r.offset).hash = r.hash then
    Except.ok (Record.ofHeader r.header r.length r.fileId r.offset) else _) = _
  rw [hrecord, if_pos rfl]

theorem file_fileRow {id : Nat} {fp : Fingerprint} (hid : id < 0x1_0000_0000) (hlen : fp.len < 0x8000_0000_0000_0000)
    (hscanned : fp.scannedTo < 0x8000_0000_0000_0000) :
    TableReading.file (TableWriting.fileRow id fp) = .ok (id, fp) := by
  unfold TableReading.file TableWriting.fileRow
  dsimp only
  rw [number32_eq hid, offset_signed64 hlen, offset_signed64 hscanned]
  rfl

/-- Heights are read as numbers of 32 bits. -/
def Snapshot.IsLow (s : Snapshot) : Prop := ∀ e ∈ s.entries, e.height < 0x1_0000_0000

instance (s : Snapshot) : Decidable s.IsLow :=
  inferInstanceAs (Decidable (∀ e ∈ s.entries, e.height < 0x1_0000_0000))

theorem rows_entries {es : List Entry} (h : ∀ e ∈ es, e.toRecord.Fits) :
    TableReading.rows TableReading.entry (es.map TableWriting.entryRow)
      = if ∀ e ∈ es, e.height < 0x1_0000_0000 then .ok es else .error (.cacheCorrupt .engine) := by
  induction es with
  | nil => rfl
  | cons e rest ih =>
    rw [List.map_cons, TableReading.rows, entry_entryRow (h e List.mem_cons_self),
      ih fun f hf => h f (List.mem_cons_of_mem e hf)]
    simp only [List.forall_mem_cons]
    by_cases he : e.height < 0x1_0000_0000
    · by_cases hrest : ∀ f ∈ rest, f.height < 0x1_0000_0000
      · rw [if_pos he, if_pos hrest, if_pos ⟨he, hrest⟩]
        rfl
      · rw [if_pos he, if_neg hrest, if_neg fun hboth => hrest hboth.2]
        rfl
    · rw [if_neg he, if_neg (show ¬ (e.height < 0x1_0000_0000 ∧ _) from fun hboth => he hboth.1)]
      rfl

/-- Orphans are stored by position, and so sorting their rows changes nothing. -/
theorem insertBy_of_le {α : Type} {le : α → α → Bool} {a : α} {l : List α}
    (h : ∀ b ∈ l, le a b = true) : insertBy le a l = a :: l := by
  cases l with
  | nil => rfl
  | cons b rest =>
    rw [insertBy, if_pos (h b List.mem_cons_self)]

theorem sortBy_of_sorted {α : Type} {le : α → α → Bool} {l : List α}
    (h : l.Pairwise fun a b => le a b = true) : sortBy le l = l := by
  induction l with
  | nil => rfl
  | cons a rest ih =>
    have hc := List.pairwise_cons.1 h
    rw [sortBy, ih hc.2, insertBy_of_le hc.1]

theorem orphansByPosition_eq {rs : List Record} (horphans : t.orphans = rs.map TableWriting.orphanRow)
    (hfits : ∀ r ∈ rs, r.Fits) (hsorted : rs.Pairwise fun x y => x.position ≤ y.position) :
    TableReading.orphansByPosition t = rs.map TableWriting.orphanRow := by
  unfold TableReading.orphansByPosition
  rw [horphans]
  apply sortBy_of_sorted
  rw [List.pairwise_map]
  refine List.Pairwise.imp_of_mem ?_ hsorted
  intro x y hx hy hle
  obtain ⟨_, hxoffset, _⟩ := hfits x hx
  obtain ⟨_, hyoffset, _⟩ := hfits y hy
  rw [Cursor.le_iff] at hle
  simp only [Record.position] at hle
  simp only [TableWriting.orphanRow, signed64_eq hxoffset, signed64_eq hyoffset, Bool.or_eq_true,
    Bool.and_eq_true, decide_eq_true_eq]
  omega

/-- **Reading tables.**  What tables hold is read back, or they count as corrupt. -/
theorem Encodes.snapshot (h : Encodes magic t s) :
    TableReading.snapshot magic t = if s.IsLow then .ok s else .error (.cacheCorrupt .engine) := by
  have hstamps : TableReading.stamps magic t = .ok () := by
    unfold TableReading.stamps
    dsimp only
    rw [if_neg (by rw [h.version]; simp), if_neg (by rw [h.network]; simp)]
  have horphans : TableReading.rows TableReading.orphan (TableReading.orphansByPosition t)
      = .ok s.orphans := by
    rw [orphansByPosition_eq h.orphans (fun r hr => (h.fits.state.orphans r hr).1)
      h.fits.state.sorted]
    exact rows_map fun r hr =>
      orphan_orphanRow (h.fits.state.orphans r hr).1 (h.fits.state.orphans r hr).2
  have hfiles : TableReading.rows TableReading.file t.files = .ok s.files.toList := by
    rw [h.files]
    apply rows_map
    intro p hp
    obtain ⟨hid, hlen, hscanned⟩ := h.fits.state.files p.1 p.2 hp
    exact file_fileRow hid hlen hscanned
  unfold TableReading.snapshot
  rw [hstamps, h.entries, horphans, hfiles, h.cursor, h.tip, rows_entries h.fits.entries]
  by_cases hlow : s.IsLow
  · rw [if_pos hlow, if_pos (show ∀ e ∈ s.entries, e.height < 0x1_0000_0000 from hlow)]
    show Except.ok _ = _
    rw [FileMap.ofList_toList]
  · rw [if_neg hlow, if_neg (show ¬ ∀ e ∈ s.entries, e.height < 0x1_0000_0000 from hlow)]
    rfl

end Reading

end BlockIndex
