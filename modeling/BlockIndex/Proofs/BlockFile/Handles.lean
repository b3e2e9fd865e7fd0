import BlockIndex.Run.Stale

/-!
# What a reader keeps open

A reader comes to a file through what it has kept open, or else through the file's path.  As long
as the paths lead to what was opened there, both come to the same, and every reading answers as it
would for a reader that has opened nothing.

* `Reader.Tracks`    what is kept open is what the paths lead to;
* `Reader.rereads`   what reading a record again says of it;
* `Reader.Answers`   the end of readings one after another.

Main statements: `Tracks.onDisk`, `Tracks.allOnDisk`, `Tracks.moved`.
-/

namespace BlockIndex

namespace Reader

/-- What a reader keeps open is what the paths of its files lead to. -/
structure Tracks (reader : Reader) (v : Volume) (files : BlockFiles) (magic : UInt32) : Prop where
  opened : ∀ o ∈ reader.opened, ∃ file, files.get? o.1 = some file ∧ v.find file.path = .ok o.2
  files : reader.files = files
  magic : reader.magic = magic

/-- Whether a record stands at its position, read by a reader that has opened nothing. -/
def rereads (v : Volume) (files : BlockFiles) (magic : UInt32) (r : Record) : Except Error Bool :=
  ((ofFiles files magic).onDisk v r).1

/-- Records are read again one after another: in the end there is an answer, and a reader that
tracks, or one of the records could not be read. -/
inductive Answers {α : Type} (v : Volume) (files : BlockFiles) (magic : UInt32)
    (among : Record → Prop) (holds : α → Prop) : Except Error α × Reader → Prop where
  | ok {x : α} {next : Reader} (answer : holds x) (tracks : next.Tracks v files magic) :
      Answers v files magic among holds (.ok x, next)
  | error {e : Error} {next : Reader} (r : Record) (mem : among r)
      (failed : rereads v files magic r = .error e) :
      Answers v files magic among holds (.error e, next)

variable {reader : Reader} {v : Volume} {files : BlockFiles} {magic : UInt32} {fileId : Nat}
  {file : BlockFile} {r : Record}

theorem tracks_ofFiles (v : Volume) (files : BlockFiles) (magic : UInt32) :
    (ofFiles files magic).Tracks v files magic where
  files := rfl
  magic := rfl
  opened := by
    intro o ho
    cases ho

theorem Tracks.keep (h : reader.Tracks v files magic) {node : NodeNumber}
    (hfile : files.get? fileId = some file) (hfind : v.find file.path = .ok node) :
    Tracks { reader with opened := keep reader.opened fileId node } v files magic where
  files := h.files
  magic := h.magic
  opened := by
    intro o ho
    rcases List.mem_append.1 ho with ho | ho
    · split at ho
      · exact h.opened o (List.mem_of_mem_drop ho)
      · exact h.opened o ho
    · rw [List.mem_singleton.1 ho]
      exact ⟨file, hfile, hfind⟩

/-! ## Single readings -/

/-- Coming to a file: through its path, or through what is kept open. -/
theorem Tracks.target (h : reader.Tracks v files magic) (fileId : Nat) :
    (reader.target v fileId).1 = ((ofFiles files magic).target v fileId).1 ∧
      (reader.target v fileId).2.Tracks v files magic := by
  unfold Reader.target
  rw [h.files]
  dsimp only [ofFiles]
  cases hfile : files.get? fileId with
  | none => exact ⟨rfl, h⟩
  | some file =>
    dsimp only [List.find?_nil]
    cases hopen : reader.opened.find? fun o => o.1 = fileId with
    | some o =>
      have hid : o.1 = fileId := by simpa using List.find?_some hopen
      obtain ⟨other, hother, hnode⟩ := h.opened o (List.mem_of_find?_eq_some hopen)
      rw [hid, hfile] at hother
      obtain rfl := Option.some.inj hother
      rw [hnode]
      exact ⟨rfl, h⟩
    | none =>
      cases hfind : v.find file.path with
      | error problem => exact ⟨rfl, h⟩
      | ok node =>
        have hkeep := h.keep hfile hfind
        rw [h.files] at hkeep
        exact ⟨rfl, hkeep⟩

theorem Tracks.readAt (h : reader.Tracks v files magic) (fileId offset count : Nat) :
    (reader.readAt v fileId offset count).1
        = ((ofFiles files magic).readAt v fileId offset count).1 ∧
      (reader.readAt v fileId offset count).2.Tracks v files magic := by
  obtain ⟨hsame, hnext⟩ := h.target fileId
  unfold Reader.readAt
  generalize reader.target v fileId = one at hsame hnext ⊢
  generalize (ofFiles files magic).target v fileId = other at hsame ⊢
  obtain ⟨answer, next⟩ := one
  obtain ⟨_, _⟩ := other
  obtain rfl := hsame
  cases answer with
  | error e => exact ⟨rfl, hnext⟩
  | ok found =>
    dsimp only
    split <;> exact ⟨rfl, hnext⟩

theorem Tracks.recordAt (h : reader.Tracks v files magic) (fileId offset : Nat) :
    (reader.recordAt v fileId offset).1 = ((ofFiles files magic).recordAt v fileId offset).1 ∧
      (reader.recordAt v fileId offset).2.Tracks v files magic := by
  obtain ⟨hsame, hnext⟩ := h.readAt fileId offset (Record.prefixSize + Header.size)
  obtain ⟨_, hother⟩ :=
    (tracks_ofFiles v files magic).readAt fileId offset (Record.prefixSize + Header.size)
  unfold Reader.recordAt
  generalize reader.readAt v fileId offset (Record.prefixSize + Header.size) = one at hsame hnext ⊢
  generalize (ofFiles files magic).readAt v fileId offset (Record.prefixSize + Header.size) = other
    at hsame hother ⊢
  obtain ⟨answer, next⟩ := one
  obtain ⟨_, last⟩ := other
  obtain rfl := hsame
  cases answer with
  | error e => exact ⟨rfl, hnext⟩
  | ok raw =>
    refine ⟨?_, hnext⟩
    show parseRecord next.magic fileId offset raw = parseRecord last.magic fileId offset raw
    rw [hnext.magic, hother.magic]

/-- **A record is read again** as by a reader that has opened nothing. -/
theorem Tracks.onDisk (h : reader.Tracks v files magic) (r : Record) :
    ∃ next, reader.onDisk v r = (rereads v files magic r, next) ∧ next.Tracks v files magic := by
  obtain ⟨hsame, hnext⟩ := h.recordAt r.fileId r.offset
  unfold rereads Reader.onDisk
  generalize reader.recordAt v r.fileId r.offset = one at hsame hnext ⊢
  generalize (ofFiles files magic).recordAt v r.fileId r.offset = other at hsame ⊢
  obtain ⟨answer, next⟩ := one
  obtain ⟨_, _⟩ := other
  obtain rfl := hsame
  refine ⟨next, ?_, hnext⟩
  cases answer with
  | ok found => rfl
  | error e => cases e <;> rfl

/-- A record stands if another with its hash and length is read at its position. -/
theorem rereads_eq_true_iff : rereads v files magic r = .ok true ↔
    ∃ found, ((ofFiles files magic).recordAt v r.fileId r.offset).1 = .ok found ∧
      found.hash = r.hash ∧ found.length = r.length := by
  unfold rereads Reader.onDisk
  generalize (ofFiles files magic).recordAt v r.fileId r.offset = one
  obtain ⟨answer, next⟩ := one
  cases answer with
  | ok found => simp
  | error e => cases e <;> simp

/-! ## Readings one after another -/

theorem Answers.mono {α : Type} {among among' : Record → Prop} {holds holds' : α → Prop}
    {run : Except Error α × Reader} (h : Answers v files magic among holds run)
    (hamong : ∀ r, among r → among' r) (hholds : ∀ x, holds x → holds' x) :
    Answers v files magic among' holds' run := by
  cases h with
  | ok hx htracks => exact .ok (hholds _ hx) htracks
  | error r hr hfailed => exact .error r (hamong r hr) hfailed

theorem Tracks.allOnDisk (h : reader.Tracks v files magic) (rs : List Record) :
    Answers v files magic (· ∈ rs)
      (fun b => b = true ↔ ∀ r ∈ rs, rereads v files magic r = .ok true)
      (reader.allOnDisk v rs) := by
  induction rs generalizing reader with
  | nil => exact .ok (by simp) h
  | cons r rest ih =>
    obtain ⟨next, hread, hnext⟩ := h.onDisk r
    unfold Reader.allOnDisk
    rw [hread]
    cases hr : rereads v files magic r with
    | error e => exact .error r List.mem_cons_self hr
    | ok b =>
      cases b with
      | false => exact .ok (by simp [hr]) hnext
      | true =>
        refine (ih hnext).mono (fun s hs => List.mem_cons_of_mem r hs) ?_
        intro b hb
        rw [hb, List.forall_mem_cons]
        exact ⟨fun hall => ⟨hr, hall⟩, fun hall => hall.2⟩

/-- **Records are read again one by one**, and those that do not stand are left. -/
theorem Tracks.moved {α : Type} (h : reader.Tracks v files magic) (record : α → Record)
    (as : List α) :
    Answers v files magic (· ∈ as.map record)
      (fun others => ∀ a, a ∈ others ↔ a ∈ as ∧ rereads v files magic (record a) ≠ .ok true)
      (reader.moved v record as) := by
  induction as generalizing reader with
  | nil => exact .ok (by simp) h
  | cons a rest ih =>
    obtain ⟨next, hread, hnext⟩ := h.onDisk (record a)
    have hrest := ih hnext
    unfold Reader.moved
    rw [hread]
    cases hr : rereads v files magic (record a) with
    | error e => exact .error (record a) (List.mem_map.2 ⟨a, List.mem_cons_self, rfl⟩) hr
    | ok b =>
      dsimp only
      generalize next.moved v record rest = run at hrest ⊢
      cases hrest with
      | error s hs hfailed => exact .error s (List.mem_cons_of_mem _ hs) hfailed
      | @ok others last hothers hlast =>
        refine .ok ?_ hlast
        intro c
        cases b with
        | true =>
          rw [if_pos rfl, hothers, List.mem_cons]
          constructor
          · exact fun hc => ⟨Or.inr hc.1, hc.2⟩
          · rintro ⟨rfl | hc, hmoved⟩
            · exact absurd hr hmoved
            · exact ⟨hc, hmoved⟩
        | false =>
          rw [if_neg (by simp), List.mem_cons, hothers, List.mem_cons]
          constructor
          · rintro (rfl | ⟨hc, hmoved⟩)
            · exact ⟨Or.inl rfl, by simp [hr]⟩
            · exact ⟨Or.inr hc, hmoved⟩
          · rintro ⟨rfl | hc, hmoved⟩
            · exact Or.inl rfl
            · exact Or.inr ⟨hc, hmoved⟩

end Reader

end BlockIndex
