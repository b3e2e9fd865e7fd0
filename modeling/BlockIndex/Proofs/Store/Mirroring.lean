import BlockIndex.Cache
import BlockIndex.Proofs.Store.Encoding

/-!
# Stores that agree

A store in a database does what a store in memory does.

* `DatabaseStore.Holds`    a database at rest holds a snapshot;
* `DatabaseStore.Mirrors`  a database in use holds what a store in memory holds, and has the same
                           entries queued;
* `DatabaseStore.renewed`  a database in which there is nothing, after it was loaded.

Main statements: `Mirrors.edit` (an edit of both leaves them in agreement and does not fail),
`Mirrors.applyEdits`, `Holds.load`.
-/

namespace BlockIndex

namespace Encodes

variable {magic : UInt32} {t : Tables} {s : Snapshot}

/-! ## Entries -/

theorem withEntries (h : Encodes magic t s) (es : List Entry)
    (hes : ∀ e ∈ es, e.toRecord.Fits) :
    Encodes magic { t with entries := es.map TableWriting.entryRow } { s with entries := es } where
  entries := rfl
  orphans := h.orphans
  files := h.files
  version := h.version
  network := h.network
  cursor := h.cursor
  tip := h.tip
  fits := ⟨hes, h.fits.state⟩

theorem any_hash (h : Encodes magic t s) (hash : Hash) :
    (t.entries.any fun r => r.hash = hash.bytes) = s.entries.any fun e => e.hash = hash := by
  rw [h.entries, List.any_map]
  congr 1
  funext e
  have hiff : e.hash.bytes = hash.bytes ↔ e.hash = hash :=
    ⟨Hash.ext, fun heq => by rw [heq]⟩
  show decide (e.hash.bytes = hash.bytes) = decide (e.hash = hash)
  exact decide_eq_decide.2 hiff

theorem addEntry {e : Entry} (h : Encodes magic t s) (he : e.toRecord.Fits) :
    Encodes magic (t.addEntry (TableWriting.entryRow e))
      { s with entries := MemoryStore.addEntry s.entries e } := by
  unfold Tables.addEntry MemoryStore.addEntry
  have hany := h.any_hash e.hash
  show Encodes magic (if (t.entries.any fun r => r.hash = e.hash.bytes) then _ else _) _
  rw [hany]
  split
  · exact h
  · have hadded := h.withEntries (s.entries ++ [e]) (by
      intro f hf
      rcases List.mem_append.1 hf with hf | hf
      · exact h.fits.entries f hf
      · rw [List.mem_singleton.1 hf]
        exact he)
    rw [List.map_append, ← h.entries] at hadded
    exact hadded

theorem queued {es : List Entry} (h : Encodes magic t s) (hes : ∀ e ∈ es, e.toRecord.Fits) :
    Encodes magic (TableWriting.queued es t)
      { s with entries := es.foldl MemoryStore.addEntry s.entries } := by
  induction es generalizing t s with
  | nil => exact h
  | cons e rest ih =>
    exact ih (h.addEntry (hes e List.mem_cons_self)) fun f hf => hes f (List.mem_cons_of_mem e hf)

/-! ## Forgetting -/

theorem readCursor_cursor {c : Cursor} (hc : c.Fits) (t : Tables) :
    TableReading.cursor (TableWriting.cursor c t) = .ok c := by
  have hfile : (TableWriting.cursor c t).setting? "cursor_file" = some (toString c.fileId) := by
    unfold TableWriting.cursor
    rw [setting?_putSetting, if_neg (by decide), setting?_putSetting, if_pos rfl]
  have hoffset : (TableWriting.cursor c t).setting? "cursor_offset"
      = some (toString c.offset) := by
    unfold TableWriting.cursor
    rw [setting?_putSetting, if_pos rfl]
  have hbound : c.fileId < 0x1_0000_0000 := hc.1
  unfold TableReading.cursor
  rw [hfile, hoffset]
  dsimp only
  rw [numeral?_toString hbound, numeral?_toString hc.offset_lt]

theorem setting?_cursor {c : Cursor} {key : String} (hfile : key ≠ "cursor_file")
    (hoffset : key ≠ "cursor_offset") :
    (TableWriting.cursor c t).setting? key = t.setting? key := by
  unfold TableWriting.cursor
  rw [setting?_putSetting, if_neg hoffset, setting?_putSetting, if_neg hfile]

theorem withCursor {c : Cursor} (h : Encodes magic t s) (hc : c.Fits) :
    Encodes magic (TableWriting.cursor c t) { s with cursor := c } where
  entries := h.entries
  orphans := h.orphans
  files := h.files
  version := by rw [setting?_cursor (by decide) (by decide), h.version]
  network := by rw [setting?_cursor (by decide) (by decide), h.network]
  cursor := readCursor_cursor hc t
  tip := by
    rw [readTip_congr (setting?_cursor (by decide) (by decide)), h.tip]
  fits := ⟨h.fits.entries, { h.fits.state with cursor := hc }⟩

/-- The row that stands first among those of some entries. -/
theorem earliest?_entryRow {es : List Entry} (hes : ∀ e ∈ es, e.toRecord.Fits) :
    TableWriting.earliest? (es.map TableWriting.entryRow)
      = (Cursor.earliest? (es.map Entry.position)).map fun c => ((c.fileId : Int), (c.offset : Int))
    := by
  induction es with
  | nil => rfl
  | cons e rest ih =>
    have hoffset : signed64 e.offset = e.offset := signed64_eq (hes e List.mem_cons_self).2.1
    rw [List.map_cons, List.map_cons, TableWriting.earliest?, Cursor.earliest?,
      ih fun f hf => hes f (List.mem_cons_of_mem e hf)]
    cases Cursor.earliest? (rest.map Entry.position) with
    | none => simp [TableWriting.entryRow, Entry.position, hoffset]
    | some c =>
      simp only [Option.map_some, TableWriting.entryRow, hoffset, Cursor.rewindTo, Cursor.lt_def,
        Entry.position]
      split
      · next h => rw [if_pos (by omega)]
      · next h => rw [if_neg (by omega)]

theorem sameTip (h : Encodes magic t s) {tip : Option Hash} (htip : tip = s.tip) :
    Encodes magic t { s with tip } := by
  rw [htip]
  exact h

theorem dropLostTip (h : Encodes magic t s) :
    Encodes magic (TableWriting.dropLostTip t)
      { s with tip := s.tip.filter fun tip => s.entries.any fun e => e.hash = tip } := by
  have htip := h.tip
  unfold TableReading.tip at htip
  unfold TableWriting.dropLostTip
  cases hsetting : t.setting? "tip" with
  | none =>
    rw [hsetting] at htip
    refine h.sameTip ?_
    rw [← Except.ok.inj htip]
    rfl
  | some text =>
    rw [hsetting] at htip
    dsimp only at htip ⊢
    cases hhash : Hash.ofHex text with
    | error fault =>
      rw [hhash] at htip
      simp [TableReading.corrupt] at htip
    | ok hash =>
      rw [hhash] at htip
      dsimp only at htip ⊢
      rw [h.any_hash hash, ← Except.ok.inj htip, Option.filter_some]
      split
      · exact h.sameTip (Except.ok.inj htip)
      · exact {
          entries := h.entries
          orphans := h.orphans
          files := h.files
          version := by rw [setting?_removeSetting, if_neg (by decide), h.version]
          network := by rw [setting?_removeSetting, if_neg (by decide), h.network]
          cursor := by
            rw [readCursor_congr (t := t) (by rw [setting?_removeSetting, if_neg (by decide)])
              (by rw [setting?_removeSetting, if_neg (by decide)]), h.cursor]
          tip := by
            unfold TableReading.tip
            rw [setting?_removeSetting, if_pos rfl]
          fits := h.fits.withTip _ }

theorem rewindCursor_some {first : Cursor} (hfile : first.fileId < 0x1_0000_0000) (t : Tables) :
    TableWriting.rewindCursor (some ((first.fileId : Int), (first.offset : Int))) t
      = .ok (TableWriting.cursor ((TableWriting.storedCursor t).rewindTo first) t) := by
  unfold TableWriting.rewindCursor
  dsimp only
  rw [if_pos ⟨by omega, by omega⟩, Int.toNat_natCast, Int.toNat_natCast]

theorem truncate (h : Encodes magic t s) (height : Nat) :
    ∃ u, TableWriting.truncate height t = .ok u ∧ Encodes magic u (s.truncate height) := by
  have hkept : (t.entries.filter fun r => r.height < (height : Int))
      = (s.entries.filter fun e => e.height < height).map TableWriting.entryRow := by
    rw [h.entries, List.filter_map]
    congr 2
    funext e
    show decide ((e.height : Int) < height) = decide (e.height < height)
    exact decide_eq_decide.2 (by omega)
  have hdropped : (t.entries.filter fun r => (height : Int) ≤ r.height)
      = (s.entries.filter fun e => height ≤ e.height).map TableWriting.entryRow := by
    rw [h.entries, List.filter_map]
    congr 2
    funext e
    show decide ((height : Int) ≤ e.height) = decide (height ≤ e.height)
    exact decide_eq_decide.2 (by omega)
  have hentries := h.withEntries (s.entries.filter fun e => e.height < height)
    fun e he => h.fits.entries e (List.mem_filter.1 he).1
  have hfits : ∀ e ∈ s.entries.filter (fun e => height ≤ e.height), e.toRecord.Fits :=
    fun e he => h.fits.entries e (List.mem_filter.1 he).1
  have hcursor := Cursor.rewindToAll_eq_earliest s.cursor
    ((s.entries.filter fun e => height ≤ e.height).map Entry.position)
  unfold TableWriting.truncate
  dsimp only
  rw [hkept, hdropped, earliest?_entryRow hfits]
  unfold Snapshot.truncate
  dsimp only
  cases hfirst : Cursor.earliest? ((s.entries.filter fun e => height ≤ e.height).map
      Entry.position) with
  | none =>
    rw [hfirst] at hcursor
    rw [hcursor]
    exact ⟨_, rfl, hentries.dropLostTip⟩
  | some first =>
    rw [hfirst] at hcursor
    have hmoved : (s.cursor.rewindTo first).Fits := by
      have := (h.fits.truncate height).state.cursor
      unfold Snapshot.truncate Snapshot.state at this
      dsimp only at this
      rw [hcursor] at this
      exact this
    obtain ⟨e, he, heq⟩ := List.mem_map.1 (Cursor.earliest?_mem hfirst)
    have hfile : first.fileId < 0x1_0000_0000 := by
      rw [← heq]
      exact (hfits e he).1
    have hstored : TableWriting.storedCursor { t with
        entries := (s.entries.filter fun e => e.height < height).map TableWriting.entryRow }
        = s.cursor := by
      unfold TableWriting.storedCursor
      rw [hentries.cursor]
    rw [hcursor, Option.map_some]
    dsimp only
    rw [rewindCursor_some hfile, hstored]
    exact ⟨_, rfl, (hentries.withCursor hmoved).dropLostTip⟩

/-! ## Writing the progress of a scan -/

theorem addOrphan_foldl {rs : List Record} (t : Tables)
    (hdistinct : (rs.map Record.hash).Nodup)
    (hnew : ∀ r ∈ rs, ∀ row ∈ t.orphans, row.hash ≠ r.hash.bytes) :
    (rs.map TableWriting.orphanRow).foldl Tables.addOrphan t
      = { t with orphans := t.orphans ++ rs.map TableWriting.orphanRow } := by
  induction rs generalizing t with
  | nil => rw [List.map_nil, List.append_nil, List.foldl_nil]
  | cons r rest ih =>
    have hc := List.nodup_cons.1 hdistinct
    have hadd : t.addOrphan (TableWriting.orphanRow r)
        = { t with orphans := t.orphans ++ [TableWriting.orphanRow r] } := by
      unfold Tables.addOrphan
      rw [if_neg]
      rw [List.any_eq_true]
      intro h
      obtain ⟨row, hrow, heq⟩ := h
      exact hnew r List.mem_cons_self row hrow (of_decide_eq_true heq)
    rw [List.map_cons, List.foldl_cons, hadd, ih _ hc.2, List.append_assoc]
    · rfl
    · intro x hx row hrow
      rcases List.mem_append.1 hrow with hrow | hrow
      · exact hnew x (List.mem_cons_of_mem r hx) row hrow
      · rw [List.mem_singleton.1 hrow]
        intro heq
        exact hc.1 (List.mem_map.2 ⟨x, hx, (Hash.ext heq).symm⟩)

theorem readTip_tip (hash : Option Hash) (t : Tables) :
    TableReading.tip (TableWriting.tip hash t) = .ok hash := by
  unfold TableReading.tip TableWriting.tip
  cases hash with
  | none => rw [setting?_removeSetting, if_pos rfl]
  | some hash =>
    rw [setting?_putSetting, if_pos rfl]
    dsimp only
    rw [Hash.ofHex_toHex]

theorem setting?_tip {hash : Option Hash} {key : String} (h : key ≠ "tip") :
    (TableWriting.tip hash t).setting? key = t.setting? key := by
  unfold TableWriting.tip
  cases hash with
  | none => rw [setting?_removeSetting, if_neg h]
  | some hash => rw [setting?_putSetting, if_neg h]

theorem rows_tip (hash : Option Hash) (t : Tables) :
    (TableWriting.tip hash t).entries = t.entries ∧ (TableWriting.tip hash t).orphans = t.orphans
      ∧ (TableWriting.tip hash t).files = t.files := by
  unfold TableWriting.tip
  cases hash with
  | none => exact ⟨rfl, rfl, rfl⟩
  | some hash => exact ⟨rfl, rfl, rfl⟩

theorem scanState {state : ScanState} (h : Encodes magic t s) (hstate : state.Fits) :
    Encodes magic (TableWriting.scanState state t) (s.apply state) := by
  unfold TableWriting.scanState
  dsimp only
  rw [addOrphan_foldl _ hstate.distinct (by intro r _ row hrow; simp at hrow), List.nil_append]
  dsimp only
  generalize hfilled : ({ t with
    orphans := state.orphans.map TableWriting.orphanRow
    files := state.files.toList.map fun p => TableWriting.fileRow p.1 p.2 } : Tables) = filled
  have hrows := rows_tip state.tip (TableWriting.cursor state.cursor filled)
  have hsettings : filled.settings = t.settings := by rw [← hfilled]
  have hkey : ∀ key, filled.setting? key = t.setting? key := by
    intro key
    unfold Tables.setting?
    rw [hsettings]
  exact {
    entries := by
      show (TableWriting.tip _ _).entries = _
      rw [hrows.1, ← hfilled]
      exact h.entries
    orphans := by
      show (TableWriting.tip _ _).orphans = _
      rw [hrows.2.1, ← hfilled]
      rfl
    files := by
      show (TableWriting.tip _ _).files = _
      rw [hrows.2.2, ← hfilled]
      rfl
    version := by
      rw [setting?_putSetting, if_neg (by decide), setting?_tip (by decide),
        setting?_cursor (by decide) (by decide), hkey, h.version]
    network := by
      rw [setting?_putSetting, if_neg (by decide), setting?_tip (by decide),
        setting?_cursor (by decide) (by decide), hkey, h.network]
    cursor := by
      rw [readCursor_congr (t := TableWriting.cursor state.cursor filled)
        (by rw [setting?_putSetting, if_neg (by decide), setting?_tip (by decide)])
        (by rw [setting?_putSetting, if_neg (by decide), setting?_tip (by decide)]),
        readCursor_cursor hstate.cursor]
      rfl
    tip := by
      rw [readTip_congr (t := TableWriting.tip state.tip (TableWriting.cursor state.cursor filled))
        (by rw [setting?_putSetting, if_neg (by decide)]), readTip_tip]
      rfl
    fits := ⟨h.fits.entries, hstate⟩ }

/-! ## Stamps -/

theorem empty (magic : UInt32) :
    Encodes magic (TableWriting.stamp magic Tables.empty) Snapshot.empty := by
  have hstamp : TableWriting.stamp magic Tables.empty
      = ⟨[], [], [], [("format_version", toString formatVersion),
          ("magic", toString magic.toNat)]⟩ := by
    unfold TableWriting.stamp Tables.putNewSetting Tables.putSetting Tables.removeSetting
      Tables.setting? Tables.empty
    simp
  rw [hstamp]
  exact {
    entries := rfl
    orphans := rfl
    files := rfl
    version := by simp [Tables.setting?]
    network := by simp [Tables.setting?]
    cursor := by simp [TableReading.cursor, Tables.setting?, Snapshot.empty]
    tip := by simp [TableReading.tip, Tables.setting?, Snapshot.empty]
    fits := Snapshot.Fits.empty }

theorem stamp (h : Encodes magic t s) (other : UInt32) : TableWriting.stamp other t = t := by
  unfold TableWriting.stamp
  rw [putNewSetting_of_some h.version, putNewSetting_of_some h.network]

end Encodes

/-! ## Stores -/

/-- The numbers that an edit writes fit. -/
def Edit.Fits : Edit → Prop
  | .append entry => entry.toRecord.Fits
  | .truncate _ => True
  | .flush state => state.Fits
  | .reset => True

namespace DatabaseStore

variable {store : DatabaseStore} {m : MemoryStore} {s : Snapshot}

/-- A database in use holds what a store in memory holds, and the same entries are queued. -/
structure Mirrors (store : DatabaseStore) (m : MemoryStore) : Prop where
  tables : ∃ t, store.database = .tables t ∧ Encodes store.magic t m.committed
  queued : store.queued = m.queued
  fits : ∀ e ∈ m.queued, e.toRecord.Fits

/-- A database at rest holds a snapshot. -/
def Holds (store : DatabaseStore) (s : Snapshot) : Prop :=
  ∃ t, store.initialised = some t ∧ Encodes store.magic t s

theorem mirrors_of_encodes {magic : UInt32} {t : Tables} {s : Snapshot} (h : Encodes magic t s) :
    Mirrors ⟨.tables t, magic, []⟩ (MemoryStore.ofSnapshot s) where
  tables := ⟨t, rfl, h⟩
  queued := rfl
  fits := fun _ he => absurd he List.not_mem_nil

theorem holds_inMemory (network : Network) : (inMemory network).Holds Snapshot.empty :=
  ⟨_, rfl, Encodes.empty _⟩

theorem Mirrors.holds (h : store.Mirrors m) : store.Holds m.committed := by
  obtain ⟨t, ht, henc⟩ := h.tables
  refine ⟨t, ?_, henc⟩
  unfold initialised
  rw [ht]
  dsimp only
  rw [henc.stamp store.magic]

theorem Mirrors.commit {change : Tables → Except Error Tables} {s : Snapshot} (h : store.Mirrors m)
    (hchange : ∀ t, Encodes store.magic t m.withQueued →
      ∃ u, change t = .ok u ∧ Encodes store.magic u s) :
    (store.commit change).1 = .ok () ∧ (store.commit change).2.magic = store.magic ∧
      (store.commit change).2.Mirrors (MemoryStore.ofSnapshot s) := by
  obtain ⟨t, ht, henc⟩ := h.tables
  obtain ⟨u, hu, henc'⟩ := hchange _ (henc.queued h.fits)
  unfold DatabaseStore.commit
  rw [ht]
  dsimp only
  rw [h.queued, hu]
  exact ⟨rfl, rfl, mirrors_of_encodes henc'⟩

/-- **One edit.**  It does not fail, and both stores agree afterwards. -/
theorem Mirrors.edit {change : Edit} (h : store.Mirrors m) (hfits : change.Fits) :
    (DatabaseStore.edit change store).1 = .ok () ∧
      (DatabaseStore.edit change store).2.magic = store.magic ∧
      (DatabaseStore.edit change store).2.Mirrors (m.edit change) := by
  cases change with
  | append entry =>
    obtain ⟨t, ht, henc⟩ := h.tables
    refine ⟨rfl, rfl, ⟨t, ht, henc⟩, ?_, ?_⟩
    · show store.queued ++ [entry] = m.queued ++ [entry]
      rw [h.queued]
    · intro e he
      rcases List.mem_append.1 he with he | he
      · exact h.fits e he
      · rw [List.mem_singleton.1 he]
        exact hfits
  | truncate height => exact h.commit fun t ht => ht.truncate height
  | flush state => exact h.commit fun t ht => ⟨_, rfl, ht.scanState hfits⟩
  | reset => exact ⟨rfl, rfl, mirrors_of_encodes (Encodes.empty store.magic)⟩

end DatabaseStore

/-! ## Caches -/

/-- The store in memory after some edits. -/
def MemoryStore.editAll (m : MemoryStore) (edits : List Edit) : MemoryStore :=
  edits.foldl MemoryStore.edit m

theorem MemoryStore.editAll_append (m : MemoryStore) (es fs : List Edit) :
    m.editAll (es ++ fs) = (m.editAll es).editAll fs := List.foldl_append

section Edits

variable {σ : Type} [IndexStore σ]

theorem IndexCache.edit_fst (change : Edit) (cache : IndexCache σ) :
    (IndexCache.edit change cache).1 = (IndexStore.edit change cache.store).1 := by
  unfold IndexCache.edit
  cases change with
  | append entry => rfl
  | truncate height => rfl
  | flush state =>
    dsimp only
    split
    · next h => exact h.symm
    · next e h => exact h.symm
  | reset => rfl

theorem IndexCache.store_edit (change : Edit) (cache : IndexCache σ) :
    (IndexCache.edit change cache).2.store = (IndexStore.edit change cache.store).2 := by
  unfold IndexCache.edit
  cases change with
  | append entry => rfl
  | truncate height => rfl
  | flush state =>
    dsimp only
    split <;> rfl
  | reset => rfl

end Edits

namespace DatabaseStore

variable {cache : IndexCache DatabaseStore} {m : MemoryStore} {store : DatabaseStore} {s : Snapshot}

/-- **Edits one after the other.**  None fails, and both stores agree afterwards. -/
theorem Mirrors.applyEdits {edits : List Edit} (h : cache.store.Mirrors m)
    (hfits : ∀ e ∈ edits, e.Fits) :
    (applyEdits IndexCache.edit edits cache).1 = .ok () ∧
      (BlockIndex.applyEdits IndexCache.edit edits cache).2.store.magic = cache.store.magic ∧
      (BlockIndex.applyEdits IndexCache.edit edits cache).2.store.Mirrors (m.editAll edits) := by
  induction edits generalizing cache m with
  | nil => exact ⟨rfl, rfl, h⟩
  | cons e rest ih =>
    obtain ⟨hok, hmagic, hmirrors⟩ := h.edit (hfits e List.mem_cons_self)
    have hok' : (IndexCache.edit e cache).1 = .ok () := (IndexCache.edit_fst e cache).trans hok
    have hstore : (IndexCache.edit e cache).2.store = (DatabaseStore.edit e cache.store).2 :=
      IndexCache.store_edit e cache
    rw [← hstore] at hmirrors hmagic
    obtain ⟨hrest, hmagic', hmirrors'⟩ := ih hmirrors fun f hf => hfits f (List.mem_cons_of_mem e hf)
    unfold BlockIndex.applyEdits
    cases hedit : IndexCache.edit e cache with
    | mk result next =>
      rw [hedit] at hok' hrest hmagic' hmirrors' hmagic
      dsimp only at hok' hmagic
      rw [hok']
      exact ⟨hrest, hmagic'.trans hmagic, hmirrors'⟩

/-- What a database answers that is loaded: what it holds, or that it is corrupt if a height is too
great to be read. -/
theorem Holds.open (h : store.Holds s) :
    (DatabaseStore.load store).1 = (if s.IsLow then .ok s else .error (.cacheCorrupt .engine)) ∧
      (DatabaseStore.load store).2.magic = store.magic ∧
      (DatabaseStore.load store).2.Mirrors (MemoryStore.ofSnapshot s) := by
  obtain ⟨t, ht, henc⟩ := h
  have hload : DatabaseStore.load store = (TableReading.snapshot store.magic t,
      { store with database := .tables t, queued := [] }) := by
    unfold DatabaseStore.load
    rw [ht]
  rw [hload]
  exact ⟨henc.snapshot, rfl, mirrors_of_encodes henc⟩

/-- A database that was given up, or had no tables, after it was loaded. -/
def renewed (magic : UInt32) : IndexCache DatabaseStore :=
  ⟨⟨.tables (TableWriting.stamp magic Tables.empty), magic, []⟩, 0, false⟩

theorem mirrors_renewed (magic : UInt32) :
    (renewed magic).store.Mirrors (MemoryStore.ofSnapshot Snapshot.empty) :=
  mirrors_of_encodes (Encodes.empty magic)

theorem cache_corrupt {fault : CacheFault}
    (h : (DatabaseStore.load store).1 = .error (.cacheCorrupt fault)) :
    (IndexCache.ofStore store).load = (.ok Snapshot.empty, renewed store.magic) := by
  have hmagic : (DatabaseStore.load store).2.magic = store.magic := by
    unfold DatabaseStore.load
    split <;> rfl
  have hload : IndexStore.load store
      = (.error (.cacheCorrupt fault), (DatabaseStore.load store).2) :=
    congrArg (·, (DatabaseStore.load store).2) h
  unfold IndexCache.load IndexCache.ofStore
  dsimp only
  rw [hload, ← hmagic]
  rfl

theorem cache_ok (h : (DatabaseStore.load store).1 = .ok s) :
    ∃ t, store.initialised = some t ∧ TableReading.snapshot store.magic t = .ok s ∧
      (IndexCache.ofStore store).load
        = (.ok s, ⟨⟨.tables t, store.magic, []⟩, 0, !s.isEmpty⟩) := by
  unfold DatabaseStore.load at h
  split at h
  · cases h
  · next t ht =>
    have hload : IndexStore.load store = (.ok s, ⟨.tables t, store.magic, []⟩) := by
      show DatabaseStore.load store = _
      unfold DatabaseStore.load
      rw [ht]
      exact congrArg (·, _) h
    refine ⟨t, ht, h, ?_⟩
    unfold IndexCache.load IndexCache.ofStore
    dsimp only
    rw [hload]

/-- What the cache loads from a database: what it holds, or nothing if that cannot be read. -/
theorem Holds.load (h : store.Holds s) :
    ∃ loaded cache, (IndexCache.ofStore store).load = (.ok loaded, cache) ∧
      loaded = (if s.IsLow then s else Snapshot.empty) ∧ cache.store.magic = store.magic ∧
      cache.store.Mirrors (MemoryStore.ofSnapshot loaded) := by
  have hresult := h.open.1
  obtain ⟨t, ht, henc⟩ := h
  by_cases hlow : s.IsLow
  · rw [if_pos hlow] at hresult
    obtain ⟨u, hu, _, hcache⟩ := cache_ok hresult
    rw [ht] at hu
    obtain rfl := Option.some.inj hu
    exact ⟨s, _, hcache, (if_pos hlow).symm, rfl, mirrors_of_encodes henc⟩
  · rw [if_neg hlow] at hresult
    exact ⟨_, _, cache_corrupt hresult, (if_neg hlow).symm, rfl, mirrors_renewed store.magic⟩

end DatabaseStore

end BlockIndex
