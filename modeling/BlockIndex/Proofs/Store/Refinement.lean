import BlockIndex.Proofs.Store.Mirroring
import BlockIndex.Store.Memory

/-!
# Stores that answer alike

A store in a database refines a store in memory: whatever calls come, both answer the same.

* `Call`                    a call of a store: loading it, or an edit;
* `answerAll`               what a store answers to calls, one after the other;
* `DatabaseStore.Refines`   a database in use holds what a store in memory holds, and can be read.

Main statements: `Refines.answer` (one call), `Refines.answerAll` (many), `answers_as_memory`.
-/

namespace BlockIndex

/-! ## Calls -/

/-- A call of a store. -/
inductive Call where
  | load
  | edit (change : Edit)
  deriving DecidableEq, Repr

section Answers

variable {σ : Type} [IndexStore σ]

/-- What a store answers to a call: its snapshot if it is loaded, nothing to an edit it accepts. -/
def Call.answer (call : Call) (store : σ) : Except Error (Option Snapshot) × σ :=
  match call with
  | .load => ((IndexStore.load store).1.map some, (IndexStore.load store).2)
  | .edit change =>
    ((IndexStore.edit change store).1.map fun _ => none, (IndexStore.edit change store).2)

/-- What a store answers to calls, and the store afterwards.  A call that fails does not end them. -/
def answerAll : List Call → σ → List (Except Error (Option Snapshot)) × σ
  | [], store => ([], store)
  | call :: rest, store =>
    ((call.answer store).1 :: (answerAll rest (call.answer store).2).1,
      (answerAll rest (call.answer store).2).2)

end Answers

/-! ## Heights -/

/-- The height that an edit writes is one of 32 bits. -/
def Edit.IsLow : Edit → Prop
  | .append entry => entry.height < 0x1_0000_0000
  | .truncate _ => True
  | .flush _ => True
  | .reset => True

/-- The numbers of a call fit, heights among them. -/
def Call.Fits : Call → Prop
  | .load => True
  | .edit change => change.Fits ∧ change.IsLow

namespace MemoryStore

variable {m : MemoryStore}

/-- No entry is too high to be read, be it queued or not. -/
def IsLow (m : MemoryStore) : Prop :=
  ∀ e ∈ m.committed.entries ++ m.queued, e.height < 0x1_0000_0000

theorem isLow_empty : empty.IsLow := by
  intro e he
  simp [empty, ofSnapshot, Snapshot.empty] at he

theorem IsLow.committed (h : m.IsLow) : m.committed.IsLow :=
  fun e he => h e (List.mem_append_left _ he)

theorem isLow_ofSnapshot {s : Snapshot} (h : s.IsLow) : (ofSnapshot s).IsLow := by
  intro e he
  rw [ofSnapshot, List.append_nil] at he
  exact h e he

theorem mem_foldl_addEntry {entries queue : List Entry} {e : Entry}
    (h : e ∈ queue.foldl addEntry entries) : e ∈ entries ++ queue := by
  induction queue generalizing entries with
  | nil => rwa [List.append_nil]
  | cons q rest ih =>
    have hmem := ih h
    rw [addEntry] at hmem
    split at hmem
    · rcases List.mem_append.1 hmem with hentries | hrest
      · exact List.mem_append_left _ hentries
      · exact List.mem_append_right _ (List.mem_cons_of_mem q hrest)
    · rwa [List.append_assoc, List.singleton_append] at hmem

theorem IsLow.withQueued (h : m.IsLow) : m.withQueued.IsLow :=
  fun e he => h e (mem_foldl_addEntry he)

theorem IsLow.edit {change : Edit} (h : m.IsLow) (hlow : change.IsLow) : (m.edit change).IsLow := by
  cases change with
  | append entry =>
    intro e he
    have hmem : e ∈ m.committed.entries ++ m.queued ++ [entry] := by
      rwa [List.append_assoc]
    rcases List.mem_append.1 hmem with he | he
    · exact h e he
    · rw [List.mem_singleton.1 he]
      exact hlow
  | truncate height =>
    exact isLow_ofSnapshot fun e he => h.withQueued e (List.mem_filter.1 he).1
  | flush state => exact isLow_ofSnapshot h.withQueued
  | reset => exact isLow_empty

end MemoryStore

/-! ## Refinement -/

namespace DatabaseStore

variable {store : DatabaseStore} {m : MemoryStore}

/-- A database in use holds what a store in memory holds, and all of it can be read. -/
structure Refines (store : DatabaseStore) (m : MemoryStore) : Prop where
  mirrors : store.Mirrors m
  low : m.IsLow

theorem refines_empty (network : Network) :
    (inMemory network).load.1 = .ok Snapshot.empty ∧
      (inMemory network).load.2.magic = network.magic ∧
      (inMemory network).load.2.Refines MemoryStore.empty := by
  obtain ⟨hresult, hmagic, hmirrors⟩ := (holds_inMemory network).open
  have hlow : Snapshot.empty.IsLow := MemoryStore.isLow_empty.committed
  rw [if_pos hlow] at hresult
  exact ⟨hresult, hmagic, hmirrors, MemoryStore.isLow_empty⟩

/-- A database that is loaded answers what the store in memory holds. -/
theorem Refines.load (h : store.Refines m) :
    store.load.1 = .ok m.load.1 ∧ store.load.2.magic = store.magic ∧
      store.load.2.Refines m.load.2 := by
  obtain ⟨hresult, hmagic, hmirrors⟩ := h.mirrors.holds.open
  rw [if_pos h.low.committed] at hresult
  exact ⟨hresult, hmagic, hmirrors, MemoryStore.isLow_ofSnapshot h.low.committed⟩

/-- **One call.**  Both stores accept it with one answer, and agree afterwards. -/
theorem Refines.answer {call : Call} (h : store.Refines m) (hfits : call.Fits) :
    (∃ known?, (call.answer store).1 = .ok known? ∧ (call.answer m).1 = .ok known?) ∧
      (call.answer store).2.magic = store.magic ∧
      (call.answer store).2.Refines (call.answer m).2 := by
  cases call with
  | load =>
    obtain ⟨hresult, hmagic, hnext⟩ := h.load
    have hanswer : (Call.load.answer store).1 = (store.load.1).map some := rfl
    rw [hresult] at hanswer
    exact ⟨⟨some m.load.1, hanswer, rfl⟩, hmagic, hnext⟩
  | edit change =>
    obtain ⟨hresult, hmagic, hnext⟩ := h.mirrors.edit hfits.1
    have hanswer : ((Call.edit change).answer store).1
        = (DatabaseStore.edit change store).1.map fun _ => none := rfl
    rw [hresult] at hanswer
    exact ⟨⟨none, hanswer, rfl⟩, hmagic, hnext, h.low.edit hfits.2⟩

/-- **Many calls.** -/
theorem Refines.answerAll {calls : List Call} (h : store.Refines m)
    (hfits : ∀ call ∈ calls, call.Fits) :
    (answerAll calls store).1 = (answerAll calls m).1 ∧
      (∀ answer ∈ (BlockIndex.answerAll calls store).1, ∃ known?, answer = .ok known?) ∧
      (BlockIndex.answerAll calls store).2.magic = store.magic ∧
      (BlockIndex.answerAll calls store).2.Refines (BlockIndex.answerAll calls m).2 := by
  induction calls generalizing store m with
  | nil => exact ⟨rfl, fun answer hmem => absurd hmem List.not_mem_nil, rfl, h⟩
  | cons call rest ih =>
    obtain ⟨⟨known?, hstore, hm⟩, hmagic, hnext⟩ := h.answer (hfits call List.mem_cons_self)
    obtain ⟨hanswers, haccepted, hmagic', hlast⟩ :=
      ih hnext fun c hc => hfits c (List.mem_cons_of_mem call hc)
    simp only [BlockIndex.answerAll]
    refine ⟨by rw [hstore, hm, hanswers], ?_, hmagic'.trans hmagic, hlast⟩
    intro answer hmem
    rcases List.mem_cons.1 hmem with rfl | hmem
    · exact ⟨known?, hstore⟩
    · exact haccepted answer hmem

/-- A database that is dropped, opened and loaded again is as one that is loaded. -/
theorem load_ofDatabase {network : Network} (h : store.magic = network.magic) :
    (ofDatabase store.database network).load = store.load := by
  unfold load initialised ofDatabase
  rw [h]

end DatabaseStore

/-- **Refinement.**  A new database and a new store in memory that have been loaded accept the same
calls with the same answers, whatever calls they are; and a database that is then dropped, opened
and loaded again is as if it had only been loaded. -/
theorem answers_as_memory (network : Network) (calls : List Call)
    (hfits : ∀ call ∈ calls, call.Fits) :
    let database := answerAll (.load :: calls) (DatabaseStore.inMemory network)
    let memory := answerAll (.load :: calls) MemoryStore.empty
    database.1 = memory.1 ∧ (∀ answer ∈ database.1, ∃ known?, answer = .ok known?) ∧
      (DatabaseStore.ofDatabase database.2.database network).load = database.2.load := by
  intro database memory
  obtain ⟨hfirst, hmagic, hrefines⟩ := DatabaseStore.refines_empty network
  obtain ⟨hanswers, haccepted, hkept, _⟩ := hrefines.answerAll hfits
  have hdatabase : database.1 = .ok (some Snapshot.empty)
      :: (answerAll calls (DatabaseStore.inMemory network).load.2).1 :=
    congrArg (· :: _) (congrArg (Except.map some) hfirst)
  refine ⟨?_, ?_, DatabaseStore.load_ofDatabase (hkept.trans hmagic)⟩
  · rw [hdatabase, hanswers]
    rfl
  · rw [hdatabase]
    intro answer hmem
    rcases List.mem_cons.1 hmem with rfl | hmem
    · exact ⟨some Snapshot.empty, rfl⟩
    · exact haccepted answer hmem

/-! ### Calls that commit, drop and forget -/

/-- A record that a trial stores. -/
def trialRecord (nonce : UInt32) (offset : Nat) : Record :=
  .ofHeader { (default : Header) with nonce } 80 0 offset

/-- What a trial flushes: a cursor behind three records, of which the last waits. -/
def trialState : ScanState :=
  ⟨⟨0, 264⟩, some (trialRecord 1 88).hash, .ofList [(0, ⟨264, some 1, 264⟩)], [trialRecord 2 176]⟩

/-- Two entries and one of them again at another height, flushed; one that loading drops; a cut, and
a reset. -/
def trialCalls : List Call :=
  [.edit (.append (.ofRecord (trialRecord 0 0) 0)), .edit (.append (.ofRecord (trialRecord 1 88) 1)),
    .edit (.append (.ofRecord (trialRecord 0 0) 7)), .edit (.flush trialState),
    .edit (.append (.ofRecord (trialRecord 3 264) 2)), .load, .edit (.truncate 1), .load,
    .edit .reset, .load]

theorem trialRecord_fits {nonce : UInt32} {offset : Nat} (h : offset < 0x8000_0000_0000_0000) :
    (trialRecord nonce offset).Fits := by
  refine ⟨?_, h, ?_⟩
  · show 0 < 0x1_0000_0000
    decide
  · show 80 < 0x1_0000_0000
    decide

theorem append_trialRecord_fits {nonce : UInt32} {offset height : Nat}
    (hoffset : offset < 0x8000_0000_0000_0000) (hheight : height < 0x1_0000_0000) :
    (Call.edit (.append (.ofRecord (trialRecord nonce offset) height))).Fits :=
  ⟨trialRecord_fits hoffset, hheight⟩

theorem trialState_fits : trialState.Fits where
  cursor := ⟨by decide, by decide⟩
  files := by
    intro id fp hmem
    obtain ⟨rfl, rfl⟩ := Prod.mk.inj (List.mem_singleton.1 hmem)
    decide
  orphans := by
    intro r hr
    rw [List.mem_singleton.1 hr]
    exact ⟨trialRecord_fits (by decide), rfl⟩
  sorted := List.pairwise_singleton _ _
  distinct := List.pairwise_singleton _ _

theorem answers_as_memory_trial :
    (∀ call ∈ trialCalls, call.Fits) ∧
      (answerAll (.load :: trialCalls) (DatabaseStore.inMemory .regtest)).1
        = (answerAll (.load :: trialCalls) MemoryStore.empty).1 ∧
      (∀ answer ∈ (answerAll (.load :: trialCalls) (DatabaseStore.inMemory .regtest)).1,
        ∃ known?, answer = .ok known?) ∧
      (DatabaseStore.ofDatabase (answerAll (.load :: trialCalls)
          (DatabaseStore.inMemory .regtest)).2.database .regtest).load
        = (answerAll (.load :: trialCalls) (DatabaseStore.inMemory .regtest)).2.load := by
  have hfits : ∀ call ∈ trialCalls, call.Fits := by
    simp only [trialCalls, List.forall_mem_cons]
    exact ⟨append_trialRecord_fits (by decide) (by decide),
      append_trialRecord_fits (by decide) (by decide),
      append_trialRecord_fits (by decide) (by decide), ⟨trialState_fits, trivial⟩,
      append_trialRecord_fits (by decide) (by decide), trivial, ⟨trivial, trivial⟩, trivial,
      ⟨trivial, trivial⟩, trivial, fun call hcall => absurd hcall List.not_mem_nil⟩
  exact ⟨hfits, answers_as_memory .regtest trialCalls hfits⟩

end BlockIndex
