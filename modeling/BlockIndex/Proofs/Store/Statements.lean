import BlockIndex.Store.Database

/-!
# Changes of tables, statement by statement

A change of an index database is a transaction of many statements, and the engine may refuse any of
them: the one that begins it, each one inside, and the one that commits it.  A transaction that is
not committed is rolled back.

* `Script`                           statements inside a transaction, each depending on what was
                                     found before;
* `Script.meaning`                   what they come to if none is refused;
* `Script.flush`, `Script.truncate`  the two changes that a store makes;
* `Connection.transaction`           a script between its beginning and its commit.

Main statements: `Script.outcome_flush`, `Script.outcome_truncate` (the changes are those of
`TableWriting`), `Connection.transaction_cases` (all of a script or nothing).
-/

namespace BlockIndex

/-! ## Scripts -/

/-- Statements on tables, with an answer in the end. -/
inductive Script (α : Type) where
  | done (answer : α)
  /-- A statement, which can fail by itself; how it goes on depends on the tables it has found. -/
  | give (statement : Tables → Option Tables) (next : Tables → Script α)

namespace Script

variable {α β : Type}

/-- One script after the other. -/
def bind : Script α → (α → Script β) → Script β
  | done a, then' => then' a
  | give statement next, then' => give statement fun found => (next found).bind then'

instance : Monad Script where
  pure := done
  bind := bind

/-- A change of rows. -/
def change (f : Tables → Tables) : Script Unit := give (fun t => some (f t)) fun _ => done ()

/-- A question to the tables, whose answer must make sense. -/
def ask (sensible : Tables → Bool) (answer : Tables → α) : Script α :=
  give (fun t => if sensible t then some t else none) fun found => done (answer found)

/-- A statement is made ready for many rows, for which its table must be there. -/
def prepare : Script Unit := change id

/-- The tables after all statements and the answer, if no statement fails by itself. -/
def meaning : Script α → Tables → Option (α × Tables)
  | done a, t => some (a, t)
  | give statement next, t => (statement t).bind (next t).meaning

/-- The tables after all statements, or the error of the one that fails by itself. -/
def outcome (s : Script Unit) (t : Tables) : Except Error Tables :=
  match s.meaning t with
  | some (_, u) => .ok u
  | none => .error (.cache .engine)

theorem meaning_bind (s : Script α) (k : α → Script β) (t : Tables) :
    (s >>= k).meaning t = (s.meaning t).bind fun r => (k r.1).meaning r.2 := by
  show (s.bind k).meaning t = _
  induction s generalizing t with
  | done a => rfl
  | give statement next ih =>
    rw [bind, meaning, meaning]
    cases statement t with
    | none => rfl
    | some u => exact ih t u

/-! ## The changes that a store makes -/

/-- Inserts the queued entries. -/
def insertQueued (queued : List Entry) : Script Unit := do
  prepare
  queued.forM fun e => change (·.addEntry (TableWriting.entryRow e))

/-- Inserts a fingerprint, whose file must have none. -/
def insertFile (row : FileRow) : Script Unit :=
  give (fun t => if t.files.any fun r => r.fileId = row.fileId then none
    else some { t with files := Tables.placeFile row t.files }) fun _ => done ()

/-- Stores a cursor. -/
def storeCursor (c : Cursor) : Script Unit := do
  change (·.putSetting "cursor_file" (toString c.fileId))
  change (·.putSetting "cursor_offset" (toString c.offset))

/-- Writes the queued entries and the progress of a scan. -/
def flush (state : ScanState) (queued : List Entry) : Script Unit := do
  insertQueued queued
  change fun t => { t with files := [] }
  prepare
  state.files.toList.forM fun p => insertFile (TableWriting.fileRow p.1 p.2)
  change fun t => { t with orphans := [] }
  prepare
  state.orphans.forM fun r => change (·.addOrphan (TableWriting.orphanRow r))
  storeCursor state.cursor
  change (TableWriting.tip state.tip)
  change (·.putSetting "updated_at" "")

/-- The position of the first row at a height and above. -/
def firstFrom (height : Nat) (t : Tables) : Option (Int × Int) :=
  TableWriting.earliest? (t.entries.filter fun r => (height : Int) ≤ r.height)

/-- A position whose file id has 32 bits, or none. -/
def isPosition : Option (Int × Int) → Bool
  | none => true
  | some (fileId, _) => 0 ≤ fileId ∧ fileId < 0x1_0000_0000

/-- Moves the stored cursor back to a position. -/
def rewind : Option (Int × Int) → Script Unit
  | none => done ()
  | some (fileId, offset) => do
    let stored ← ask (fun _ => true) TableWriting.storedCursor
    storeCursor (stored.rewindTo ⟨fileId.toNat, offset.toNat⟩)

/-- Removes the stored tip if no entry has its hash. -/
def dropLostTip : Option String → Script Unit
  | none => done ()
  | some text =>
    match Hash.ofHex text with
    | .error _ => done ()
    | .ok hash => do
      let kept ← ask (fun _ => true) fun t => t.entries.any fun r => r.hash = hash.bytes
      if kept then done () else change (·.removeSetting "tip")

/-- Writes the queued entries and forgets all at a height and above. -/
def truncate (height : Nat) (queued : List Entry) : Script Unit := do
  insertQueued queued
  let first ← ask (fun t => isPosition (firstFrom height t)) (firstFrom height)
  change fun t => { t with entries := t.entries.filter fun r => r.height < (height : Int) }
  rewind first
  let tip ← ask (fun _ => true) (·.setting? "tip")
  dropLostTip tip

/-! ### What the changes come to -/

theorem meaning_change (f : Tables → Tables) (t : Tables) :
    (change f).meaning t = some ((), f t) := rfl

theorem meaning_prepare (t : Tables) : prepare.meaning t = some ((), t) := rfl

theorem meaning_ask (sensible : Tables → Bool) (answer : Tables → α) (t : Tables) :
    (ask sensible answer).meaning t = if sensible t then some (answer t, t) else none := by
  unfold ask meaning
  dsimp only
  split
  · rfl
  · rfl

theorem meaning_changes (row : β → Tables → Tables) (l : List β) (t : Tables) :
    (l.forM fun b => change (row b)).meaning t = some ((), l.foldl (fun u b => row b u) t) := by
  induction l generalizing t with
  | nil => rfl
  | cons b rest ih =>
    rw [List.forM_eq_forM, List.forM_cons, meaning_bind, meaning_change, Option.bind_some]
    exact ih (row b t)

theorem meaning_insertQueued (queued : List Entry) (t : Tables) :
    (insertQueued queued).meaning t = some ((), TableWriting.queued queued t) := by
  rw [insertQueued, meaning_bind, meaning_prepare, Option.bind_some, meaning_changes,
    TableWriting.queued, List.foldl_map]

theorem meaning_storeCursor (c : Cursor) (t : Tables) :
    (storeCursor c).meaning t = some ((), TableWriting.cursor c t) := rfl

theorem placeFile_of_lt {row : FileRow} {rows : List FileRow}
    (h : ∀ r ∈ rows, r.fileId < row.fileId) : Tables.placeFile row rows = rows ++ [row] := by
  induction rows with
  | nil => rfl
  | cons r rest ih =>
    have hr : r.fileId < row.fileId := h r List.mem_cons_self
    rw [Tables.placeFile, if_neg (by omega), ih fun q hq => h q (List.mem_cons_of_mem r hq),
      List.cons_append]

/-- No file of a map has two fingerprints, so none of them is refused. -/
theorem meaning_insertFiles {pairs : List (Nat × Fingerprint)} {t : Tables}
    (hsorted : pairs.Pairwise fun a b => a.1 < b.1)
    (hnew : ∀ p ∈ pairs, ∀ r ∈ t.files, r.fileId < p.1) :
    (pairs.forM fun p => insertFile (TableWriting.fileRow p.1 p.2)).meaning t
      = some ((), { t with
          files := t.files ++ pairs.map fun p => TableWriting.fileRow p.1 p.2 }) := by
  induction pairs generalizing t with
  | nil =>
    rw [List.map_nil, List.append_nil]
    rfl
  | cons p rest ih =>
    have hc := List.pairwise_cons.1 hsorted
    have hp := hnew p List.mem_cons_self
    have hone : (insertFile (TableWriting.fileRow p.1 p.2)).meaning t
        = some ((), { t with files := t.files ++ [TableWriting.fileRow p.1 p.2] }) := by
      unfold insertFile meaning
      dsimp only
      rw [if_neg, placeFile_of_lt hp]
      · rfl
      · rw [List.any_eq_true]
        intro h
        obtain ⟨r, hr, heq⟩ := h
        have hlt := hp r hr
        have heq : r.fileId = p.1 := of_decide_eq_true heq
        omega
    rw [List.forM_eq_forM, List.forM_cons, meaning_bind, hone, Option.bind_some]
    refine (ih hc.2 ?_).trans ?_
    · intro q hq r hr
      rcases List.mem_append.1 hr with hr | hr
      · exact hnew q (List.mem_cons_of_mem p hq) r hr
      · rw [List.mem_singleton.1 hr]
        have hlt : p.1 < q.1 := hc.1 q hq
        show (p.1 : Int) < q.1
        omega
    · rw [List.append_assoc, List.map_cons, List.singleton_append]

/-- Writing the progress of a scan never fails by itself. -/
theorem outcome_flush (state : ScanState) (queued : List Entry) (t : Tables) :
    (flush state queued).outcome t
      = .ok (TableWriting.scanState state (TableWriting.queued queued t)) := by
  have hfiles := meaning_insertFiles (t := { TableWriting.queued queued t with files := [] })
    state.files.sorted fun p _ r hr => absurd hr List.not_mem_nil
  unfold outcome
  simp only [flush, meaning_bind, meaning_insertQueued, meaning_change, meaning_prepare, hfiles,
    meaning_changes, meaning_storeCursor, Option.bind_some]
  rw [TableWriting.scanState, List.foldl_map]
  rfl

theorem meaning_rewind {first : Option (Int × Int)} (h : isPosition first) (t : Tables) :
    ∃ u, TableWriting.rewindCursor first t = .ok u ∧ (rewind first).meaning t = some ((), u) := by
  cases first with
  | none => exact ⟨t, rfl, rfl⟩
  | some position =>
    obtain ⟨fileId, offset⟩ := position
    exact ⟨_, if_pos (of_decide_eq_true h), rfl⟩

theorem rewindCursor_of_not_isPosition {first : Option (Int × Int)} (h : ¬ isPosition first)
    (t : Tables) : TableWriting.rewindCursor first t = .error (.cache .engine) := by
  cases first with
  | none => exact absurd rfl h
  | some position =>
    obtain ⟨fileId, offset⟩ := position
    exact if_neg fun hrange => h (decide_eq_true hrange)

theorem meaning_dropLostTip (t : Tables) :
    (dropLostTip (t.setting? "tip")).meaning t = some ((), TableWriting.dropLostTip t) := by
  unfold TableWriting.dropLostTip
  cases t.setting? "tip" with
  | none => rfl
  | some text =>
    unfold dropLostTip
    dsimp only
    cases Hash.ofHex text with
    | error fault => rfl
    | ok hash =>
      dsimp only
      rw [meaning_bind, meaning_ask, if_pos rfl, Option.bind_some]
      dsimp only
      split
      · rfl
      · rfl

/-- Forgetting fails by itself just where the file of the first row to go cannot be read. -/
theorem outcome_truncate (height : Nat) (queued : List Entry) (t : Tables) :
    (truncate height queued).outcome t
      = TableWriting.truncate height (TableWriting.queued queued t) := by
  unfold outcome truncate TableWriting.truncate
  simp only [meaning_bind, meaning_insertQueued, meaning_ask, meaning_change, Option.bind_some]
  generalize TableWriting.queued queued t = t
  have hdropped : TableWriting.earliest? (t.entries.filter fun r => (height : Int) ≤ r.height)
      = firstFrom height t := rfl
  rw [hdropped]
  by_cases hfirst : isPosition (firstFrom height t)
  · obtain ⟨u, hrewound, hmeaning⟩ := meaning_rewind hfirst
      { t with entries := t.entries.filter fun r => r.height < (height : Int) }
    rw [if_pos hfirst, hrewound, Option.bind_some, hmeaning, Option.bind_some, if_pos trivial,
      Option.bind_some, meaning_dropLostTip]
  · rw [if_neg hfirst, rewindCursor_of_not_isPosition hfirst, Option.bind_none]

end Script

/-! ## Connections -/

/-- A database in the hands of the engine. -/
structure Connection where
  database : Database
  /-- The database before the transaction at work, if there is one. -/
  before : Option Database
  /-- How many statements the transaction was given. -/
  given : Nat

namespace Connection

variable {α : Type} (refused : Nat → Bool)

/-- Begins a transaction. -/
def begin (c : Connection) : Bool × Connection :=
  if refused c.given then (false, c)
  else (true, { c with before := some c.database, given := c.given + 1 })

/-- Performs a statement and answers the tables that it has found. -/
def perform (statement : Tables → Option Tables) (c : Connection) : Option Tables × Connection :=
  if refused c.given then (none, c)
  else
    match c.database with
    | .tables t =>
      match statement t with
      | none => (none, c)
      | some u => (some t, { c with database := .tables u, given := c.given + 1 })
    | _ => (none, c)

/-- Performs a script, as far as its first statement that is refused or fails. -/
def run : Script α → Connection → Option α × Connection
  | .done answer, c => (some answer, c)
  | .give statement next, c =>
    match c.perform refused statement with
    | (none, c) => (none, c)
    | (some found, c) => run (next found) c

/-- Ends a transaction with what it did. -/
def commit (c : Connection) : Bool × Connection :=
  if refused c.given then (false, c) else (true, { c with before := none })

/-- Ends a transaction with what was before. -/
def rollback (c : Connection) : Connection :=
  { c with database := c.before.getD c.database, before := none }

/-- A script as a transaction. -/
def transaction (script : Script α) (c : Connection) : Option α × Connection :=
  match c.begin refused with
  | (false, c) => (none, c)
  | (true, c) =>
    match c.run refused script with
    | (none, c) => (none, c.rollback)
    | (some answer, c) =>
      match c.commit refused with
      | (false, c) => (none, c.rollback)
      | (true, c) => (some answer, c)

/-! ### All or nothing -/

variable {refused} {s : Script α} {c : Connection} {t : Tables} {a : α}

theorem perform_cases (refused : Nat → Bool) (statement : Tables → Option Tables)
    (c : Connection) :
    (c.perform refused statement = (none, c) ∧
        ((∃ n, refused n) ∨ ∀ t, c.database = .tables t → statement t = none)) ∨
      ∃ t u, c.database = .tables t ∧ statement t = some u ∧
        c.perform refused statement
          = (some t, { c with database := .tables u, given := c.given + 1 }) := by
  unfold perform
  by_cases hrefused : refused c.given
  · exact .inl ⟨if_pos hrefused, .inl ⟨_, hrefused⟩⟩
  rw [if_neg hrefused]
  cases hdatabase : c.database with
  | unreadable => exact .inl ⟨rfl, .inr fun t ht => by cases ht⟩
  | blank => exact .inl ⟨rfl, .inr fun t ht => by cases ht⟩
  | tables t =>
    dsimp only
    cases hu : statement t with
    | none => exact .inl ⟨rfl, .inr fun u ht => by rwa [← Database.tables.inj ht]⟩
    | some u => exact .inr ⟨t, u, rfl, hu, rfl⟩

theorem before_run (s : Script α) (c : Connection) : (c.run refused s).2.before = c.before := by
  induction s generalizing c with
  | done a => rfl
  | give statement next ih =>
    unfold run
    rcases perform_cases refused statement c with ⟨h, _⟩ | ⟨t, u, _, _, h⟩
    · rw [h]
    · rw [h]
      exact ih t _

theorem run_some (h : (c.run refused s).1 = some a) (ht : c.database = .tables t) :
    ∃ u, s.meaning t = some (a, u) ∧ (c.run refused s).2.database = .tables u := by
  -- on the script, for all tables: the rest of it begins where its first statement has led
  induction s generalizing c t with
  | done b => exact ⟨t, by rw [← Option.some.inj h]; rfl, ht⟩
  | give statement next ih =>
    unfold run at h ⊢
    rcases perform_cases refused statement c with ⟨hp, _⟩ | ⟨v, u, hv, hu, hp⟩
    · rw [hp] at h
      cases h
    · obtain rfl : v = t := Database.tables.inj (hv.symm.trans ht)
      rw [hp] at h ⊢
      obtain ⟨w, hw, hlast⟩ := ih v h rfl
      exact ⟨w, by rw [Script.meaning, hu]; exact hw, hlast⟩

theorem run_none (h : (c.run refused s).1 = none) (ht : c.database = .tables t) :
    (∃ n, refused n) ∨ s.meaning t = none := by
  induction s generalizing c t with
  | done b => cases h
  | give statement next ih =>
    unfold run at h
    rcases perform_cases refused statement c with ⟨_, hwhy⟩ | ⟨v, u, hv, hu, hp⟩
    · rcases hwhy with hrefused | hfails
      · exact .inl hrefused
      · exact .inr (by rw [Script.meaning, hfails t ht]; rfl)
    · obtain rfl : v = t := Database.tables.inj (hv.symm.trans ht)
      rw [hp] at h
      rcases ih v h rfl with hrefused | hfails
      · exact .inl hrefused
      · exact .inr (by rw [Script.meaning, hu]; exact hfails)

/-- No statement succeeds on a database without tables. -/
theorem tables_of_run (hs : ∀ b, s ≠ .done b) (h : (c.run refused s).1 = some a) :
    ∃ t, c.database = .tables t := by
  cases s with
  | done b => exact absurd rfl (hs b)
  | give statement next =>
    unfold run at h
    rcases perform_cases refused statement c with ⟨hp, _⟩ | ⟨t, _, ht, _⟩
    · rw [hp] at h
      cases h
    · exact ⟨t, ht⟩

/-- **A transaction.**  Either it comes to nothing and leaves the database as it was, because a
statement was refused or failed, or it has done all of its script. -/
theorem transaction_cases (refused : Nat → Bool) (hs : ∀ b, s ≠ .done b) (c : Connection) :
    ((c.transaction refused s).1 = none ∧ (c.transaction refused s).2.database = c.database ∧
        ((∃ n, refused n) ∨ ∀ t, c.database = .tables t → s.meaning t = none)) ∨
      ∃ t a u, c.database = .tables t ∧ s.meaning t = some (a, u) ∧
        (c.transaction refused s).1 = some a ∧
        (c.transaction refused s).2.database = .tables u := by
  unfold transaction begin
  by_cases hbegin : refused c.given
  · rw [if_pos hbegin]
    exact .inl ⟨rfl, rfl, .inl ⟨_, hbegin⟩⟩
  rw [if_neg hbegin]
  dsimp only
  generalize hopened : ({ c with before := some c.database, given := c.given + 1 } : Connection)
    = opened
  have hdatabase : opened.database = c.database := by rw [← hopened]
  -- a run keeps what was before, so both ways to fail once it has begun lead back there
  have hrollback : (opened.run refused s).2.rollback.database = c.database := by
    rw [rollback, before_run, ← hopened]
    rfl
  cases hrun : opened.run refused s with
  | mk answer d =>
    rw [hrun] at hrollback
    cases answer with
    | none =>
      refine .inl ⟨rfl, hrollback, ?_⟩
      by_cases hrefused : ∃ n, refused n
      · exact .inl hrefused
      · refine .inr fun t ht => ?_
        exact (run_none (congrArg Prod.fst hrun) (hdatabase.trans ht)).resolve_left hrefused
    | some a =>
      dsimp only
      unfold commit
      by_cases hcommit : refused d.given
      · rw [if_pos hcommit]
        exact .inl ⟨rfl, hrollback, .inl ⟨_, hcommit⟩⟩
      · rw [if_neg hcommit]
        obtain ⟨t, ht⟩ := tables_of_run hs (congrArg Prod.fst hrun)
        obtain ⟨u, hu, hlast⟩ := run_some (congrArg Prod.fst hrun) ht
        rw [hrun] at hlast
        exact .inr ⟨t, a, u, hdatabase.symm.trans ht, hu, rfl, hlast⟩

end Connection

end BlockIndex
