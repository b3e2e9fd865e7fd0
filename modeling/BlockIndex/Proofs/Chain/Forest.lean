import BlockIndex.Proofs.Chain.Insertion
import BlockIndex.Run.Resume

/-!
# Forests of entries

The entries that a run stores are those of the linked records, each after its parent's.  A list of
entries of that kind is a `Forest`: it can be replayed, and it stays one when its highest entries
are cut off.

* `Forest`            entries, each new and attached to those before it;
* `Listed a entries`  a forest that has just the entries of the linked records of `a`.

Main statements: `Forest.filter_lt` (cutting at a height), `Listed.absorbAll` (the entries that a run
queues, put after those that it started from), and `replay_forest` (replaying a forest links every
entry at its height and nothing else).
-/

namespace BlockIndex

/-- An entry has its place on top of others: it is a first block at height zero, or one above its
parent. -/
def Entry.AttachesTo (e : Entry) (es : List Entry) : Prop :=
  (e.header.isGenesis = true ∧ e.height = 0) ∨
    (e.header.isGenesis = false ∧
      ∃ p ∈ es, p.hash = e.header.prevHash ∧ e.height = p.height + 1)

/-- Entries, each of a new hash and attached to those before it. -/
inductive Forest : List Entry → Prop where
  | nil : Forest []
  | snoc {es : List Entry} {e : Entry} (init : Forest es) (fresh : e.hash ∉ es.map Entry.hash)
      (attached : e.AttachesTo es) : Forest (es ++ [e])

theorem Entry.AttachesTo.mono {e : Entry} {es fs : List Entry} (h : e.AttachesTo es)
    (hsub : ∀ p ∈ es, p ∈ fs) : e.AttachesTo fs := by
  rcases h with h | ⟨hg, p, hp, hrest⟩
  · exact Or.inl h
  · exact Or.inr ⟨hg, p, hsub p hp, hrest⟩

/-- What an entry below a height attaches to is below it too. -/
theorem Entry.AttachesTo.filter_lt {e : Entry} {es : List Entry} {height : Nat}
    (h : e.AttachesTo es) (hlow : e.height < height) :
    e.AttachesTo (es.filter fun f => f.height < height) := by
  rcases h with h | ⟨hg, p, hp, hhash, hheight⟩
  · exact Or.inl h
  · have hbelow : p.height < height := by omega
    exact Or.inr ⟨hg, p, List.mem_filter.2 ⟨hp, decide_eq_true hbelow⟩, hhash, hheight⟩

namespace Forest

variable {es fs : List Entry}

theorem nodup (h : Forest es) : (es.map Entry.hash).Nodup := by
  induction h with
  | nil => exact List.nodup_nil
  | @snoc es e _ hfresh _ ih =>
    rw [List.map_append, List.nodup_append]
    refine ⟨ih, by simp, ?_⟩
    intro y hy z hz
    rw [List.map_singleton, List.mem_singleton] at hz
    rintro rfl
    exact hfresh (hz ▸ hy)

theorem eq_of_hash (h : Forest es) {e f : Entry} (he : e ∈ es) (hf : f ∈ es)
    (heq : e.hash = f.hash) : e = f := by
  induction h with
  | nil => simp at he
  | @snoc es g _ hfresh _ ih =>
    rw [List.mem_append, List.mem_singleton] at he hf
    rcases he with he | rfl
    · rcases hf with hf | rfl
      · exact ih he hf
      · exact absurd (heq ▸ List.mem_map_of_mem he) hfresh
    · rcases hf with hf | rfl
      · exact absurd (heq ▸ List.mem_map_of_mem hf) hfresh
      · rfl

theorem attached (h : Forest es) {e : Entry} (he : e ∈ es) : e.AttachesTo es := by
  induction h with
  | nil => simp at he
  | @snoc es f _ _ hatt ih =>
    rw [List.mem_append, List.mem_singleton] at he
    rcases he with he | rfl
    · exact (ih he).mono fun p hp => List.mem_append_left _ hp
    · exact hatt.mono fun p hp => List.mem_append_left _ hp

/-- Cutting off the entries at a height and above leaves a forest: a parent stands lower than its
child. -/
theorem filter_lt (h : Forest es) (height : Nat) :
    Forest (es.filter fun e => e.height < height) := by
  induction h with
  | nil => exact Forest.nil
  | @snoc es e _ hfresh hatt ih =>
    rw [List.filter_append, List.filter_cons, List.filter_nil]
    by_cases hlow : e.height < height
    · rw [if_pos (by simpa using hlow)]
      refine ih.snoc ?_ ?_
      · intro hmem
        obtain ⟨f, hf, heq⟩ := List.mem_map.1 hmem
        exact hfresh (heq ▸ List.mem_map_of_mem (List.mem_filter.1 hf).1)
      · exact hatt.filter_lt hlow
    · rw [if_neg (by simpa using hlow), List.append_nil]
      exact ih

/-- Entries can be put after a forest by height: a parent then comes before its child. -/
theorem append_sorted (h : Forest es) (hnodup : ((es ++ fs).map Entry.hash).Nodup)
    (hsorted : fs.Pairwise fun e f => e.height ≤ f.height)
    (hatt : ∀ e ∈ fs, e.AttachesTo (es ++ fs)) : Forest (es ++ fs) := by
  induction fs generalizing es with
  | nil =>
    rw [List.append_nil]
    exact h
  | cons e fs ih =>
    obtain ⟨hlow, hsorted⟩ := List.pairwise_cons.1 hsorted
    have hfresh : e.hash ∉ es.map Entry.hash := by
      intro hmem
      rw [List.map_append, List.nodup_append] at hnodup
      exact hnodup.2.2 _ hmem e.hash (by simp) rfl
    have hearlier : e.AttachesTo es := by
      rcases hatt e List.mem_cons_self with hg | ⟨hg, p, hp, hhash, hheight⟩
      · exact Or.inl hg
      · refine Or.inr ⟨hg, p, ?_, hhash, hheight⟩
        rcases List.mem_append.1 hp with hp | hp
        · exact hp
        · rcases List.mem_cons.1 hp with rfl | hp
          · omega
          · have := hlow p hp
            omega
    rw [List.append_cons] at hnodup hatt ⊢
    exact ih (h.snoc hfresh hearlier) hnodup hsorted fun f hf => hatt f (List.mem_cons_of_mem e hf)

theorem splits (h : Forest es) {before after : List Entry} {e : Entry}
    (hes : es = before ++ e :: after) : e.AttachesTo before := by
  induction h generalizing after with
  | nil => simp at hes
  | @snoc es f _ _ hatt ih =>
    rcases List.eq_nil_or_concat after with rfl | ⟨rest, g, rfl⟩
    · obtain ⟨hinit, hlast⟩ := List.append_inj' hes rfl
      rw [List.cons.injEq] at hlast
      rw [← hinit, ← hlast.1]
      exact hatt
    · rw [List.concat_eq_append, ← List.cons_append, ← List.append_assoc] at hes
      obtain ⟨hinit, -⟩ := List.append_inj' hes rfl
      exact ih hinit

end Forest

/-- The record of an entry, linked at its height. -/
def Entry.node (e : Entry) : Node := ⟨e.toRecord, some e.height⟩

namespace Assembler

variable {a b : Assembler} {r : Record} {id : NodeId} {n : Node} {height : Nat}
  {es : List Entry} {e : Entry}

/-! ## The entries of linked records -/

theorem entryOf?_eq_some_iff :
    a.entryOf? id = some e ↔
      ∃ (n : Node) (k : Nat), a.nodes[id]? = some n ∧ n.height = some k ∧
        Entry.ofRecord n.record k = e := by
  unfold entryOf?
  cases hid : a.nodes[id]? with
  | none => simp
  | some n =>
    constructor
    · intro h
      obtain ⟨k, hk, he⟩ := Option.map_eq_some_iff.1 h
      exact ⟨n, k, rfl, hk, he⟩
    · rintro ⟨m, k, hm, hk, he⟩
      rw [Option.some.inj hm]
      exact Option.map_eq_some_iff.2 ⟨k, hk, he⟩

/-- A forest that has just the entries of the linked records. -/
structure Listed (a : Assembler) (es : List Entry) : Prop where
  forest : Forest es
  mem_iff : ∀ e, e ∈ es ↔ ∃ id, a.entryOf? id = some e

theorem Listed.empty : Assembler.empty.Listed [] where
  forest := Forest.nil
  mem_iff := by
    intro e
    constructor
    · intro h; simp at h
    · rintro ⟨id, h⟩
      obtain ⟨n, k, hid, _⟩ := entryOf?_eq_some_iff.1 h
      simp [Assembler.empty] at hid

theorem entryOf?_congr (h : a.nodes = b.nodes) : a.entryOf? = b.entryOf? := by
  funext id
  rw [entryOf?, entryOf?, h]

theorem Listed.congr (h : a.Listed es) (hn : b.nodes = a.nodes) : b.Listed es := by
  refine ⟨h.forest, ?_⟩
  rw [entryOf?_congr hn]
  exact h.mem_iff

theorem Listed.heightOf?_iff (h : a.Listed es) (hd : a.Distinct) {x : Hash} {k : Nat} :
    a.heightOf? x = some k ↔ ∃ e ∈ es, e.hash = x ∧ e.height = k := by
  rw [heightOf?_eq_some_iff hd]
  constructor
  · rintro ⟨id, n, hid, rfl, hk⟩
    refine ⟨Entry.ofRecord n.record k, ?_, rfl, rfl⟩
    exact (h.mem_iff _).2 ⟨id, entryOf?_eq_some_iff.2 ⟨n, k, hid, hk, rfl⟩⟩
  · rintro ⟨e, he, rfl, rfl⟩
    obtain ⟨id, hid⟩ := (h.mem_iff e).1 he
    obtain ⟨n, k, hn, hk, rfl⟩ := entryOf?_eq_some_iff.1 hid
    exact ⟨id, n, hn, rfl, hk⟩

theorem Listed.mem_records (h : a.Listed es) (he : e ∈ es) : e.toRecord ∈ a.records := by
  obtain ⟨id, hid⟩ := (h.mem_iff e).1 he
  obtain ⟨n, k, hn, _, rfl⟩ := entryOf?_eq_some_iff.1 hid
  exact mem_records_iff.2 ⟨id, n, hn, rfl⟩

/-- To entries of all linked records none can be added. -/
theorem Listed.eq_nil_of_append {new : List Entry} (h : a.Listed es) (h' : a.Listed (es ++ new)) :
    new = [] := by
  rw [List.eq_nil_iff_forall_not_mem]
  intro e he
  have hin := (h.mem_iff e).2 ((h'.mem_iff e).1 (List.mem_append_right es he))
  have hnodup := h'.forest.nodup
  rw [List.map_append, List.nodup_append] at hnodup
  exact hnodup.2.2 e.hash (List.mem_map.2 ⟨e, hin, rfl⟩) e.hash (List.mem_map.2 ⟨e, he, rfl⟩) rfl

/-- The record that links next gives the next entry. -/
theorem Listed.popped {others : List (NodeId × Nat)} (h : a.Listed es)
    (hl : a.Linking ((id, height) :: others)) (hid : a.nodes[id]? = some n)
    (hn : n.height = none) (hdue : a.linkHeight? n.record = some height) :
    (a.popped id n height).Listed (es ++ [Entry.ofRecord n.record height]) := by
  constructor
  case forest =>
    refine h.forest.snoc ?_ ?_
    · intro hmem
      obtain ⟨e, he, heq⟩ := List.mem_map.1 hmem
      have hlinked := (h.heightOf?_iff hl.distinct).2 ⟨e, he, heq, rfl⟩
      have hnone := hl.heightOf?_unlinked hid hn
      rw [show n.hash = (Entry.ofRecord n.record height).hash from rfl, hlinked] at hnone
      simp at hnone
    · unfold linkHeight? at hdue
      split at hdue
      · next hg => exact Or.inl ⟨hg, (Option.some.inj hdue).symm⟩
      · next hg =>
        obtain ⟨k, hk, hheight⟩ := Option.map_eq_some_iff.1 hdue
        obtain ⟨p, hp, hhash, hpk⟩ := (h.heightOf?_iff hl.distinct).1 hk
        have hchild : n.record.isGenesis = false := by simpa using hg
        refine Or.inr ⟨hchild, p, hp, hhash, ?_⟩
        show height = p.height + 1
        rw [hpk]
        exact hheight.symm
  case mem_iff =>
    intro e
    rw [List.mem_append, List.mem_singleton, h.mem_iff]
    constructor
    · rintro (⟨j, hj⟩ | rfl)
      · obtain ⟨m, k, hm, hk, he⟩ := entryOf?_eq_some_iff.1 hj
        exact ⟨j, entryOf?_eq_some_iff.2 ⟨m, k, (getElem?_popped_linked hid hn hm hk).2, hk, he⟩⟩
      · exact ⟨id, entryOf?_eq_some_iff.2
          ⟨{ n with height := some height }, height, by rw [getElem?_popped hid, if_pos rfl],
            rfl, rfl⟩⟩
    · rintro ⟨j, hj⟩
      obtain ⟨m, k, hm, hk, he⟩ := entryOf?_eq_some_iff.1 hj
      rw [getElem?_popped hid] at hm
      by_cases hji : j = id
      · rw [if_pos hji] at hm
        rw [← Option.some.inj hm] at hk he
        refine Or.inr ?_
        rw [← he, ← Option.some.inj hk]
      · rw [if_neg hji] at hm
        exact Or.inl ⟨j, entryOf?_eq_some_iff.2 ⟨m, k, hm, hk, he⟩⟩

theorem entryOf?_linkStack {stack : List (NodeId × Nat)} (linked : List NodeId)
    (h : a.Linking stack) (hid : a.entryOf? id = some e) :
    (a.linkStack stack linked).2.entryOf? id = some e := by
  refine linkStack_keeps (P := fun a => a.entryOf? id = some e) ?_ linked h hid
  intro a top n height others ha _ htop hn _
  obtain ⟨m, k, hm, hk, he⟩ := entryOf?_eq_some_iff.1 ha
  exact entryOf?_eq_some_iff.2 ⟨m, k, (getElem?_popped_linked htop hn hm hk).2, hk, he⟩

/-- The entries of the records that link, put after those that were there, are again the entries of
all linked records. -/
theorem Listed.linkStack {stack : List (NodeId × Nat)} (linked : List NodeId)
    (hl : a.Linking stack) (h : a.Listed es) :
    ∃ ids, (a.linkStack stack linked).1 = linked.reverse ++ ids ∧
      (a.linkStack stack linked).2.Listed
        (es ++ (a.linkStack stack linked).2.entriesOf ids) := by
  refine linkStack_induction
    (motive := fun a stack linked => ∀ es, a.Listed es →
      ∃ ids, (a.linkStack stack linked).1 = linked.reverse ++ ids ∧
        (a.linkStack stack linked).2.Listed
          (es ++ (a.linkStack stack linked).2.entriesOf ids)) ?_ ?_ a stack linked hl es h
  · intro a linked _ es ha
    refine ⟨[], ?_⟩
    rw [linkStack_nil]
    simpa [entriesOf] using ha
  · intro a id n height others linked hl hid hn hdue ih es ha
    obtain ⟨ids, hids, hlisted⟩ := ih _ (ha.popped hl hid hn hdue)
    rw [linkStack_cons hid]
    refine ⟨id :: ids, by rw [hids]; simp, ?_⟩
    have hself : (a.popped id n height).entryOf? id = some (Entry.ofRecord n.record height) :=
      entryOf?_eq_some_iff.2 ⟨{ n with height := some height }, height,
        by rw [getElem?_popped hid, if_pos rfl], rfl, rfl⟩
    have hkept := entryOf?_linkStack (id :: linked) (hl.step hid hn hdue) hself
    rw [entriesOf, List.filterMap_cons, hkept]
    dsimp only
    rw [List.append_cons]
    exact hlisted

/-! ## Absorbing records -/

theorem absorb_snd (a : Assembler) (r : Record) : (a.absorb r).2 = (a.insert r).2 := by
  unfold absorb
  cases a.insert r with
  | mk what after => cases what <;> rfl

theorem absorbAll_snd (a : Assembler) (rs : List Record) :
    (a.absorbAll rs).2 = a.insertAll rs := by
  induction rs generalizing a with
  | nil => rfl
  | cons r rest ih =>
    show ((a.absorb r).2.absorbAll rest).2 = _
    rw [ih, absorb_snd]
    rfl

theorem Listed.added (h : a.Listed es) : (a.added r).Listed es := by
  refine ⟨h.forest, ?_⟩
  intro e
  rw [h.mem_iff]
  constructor
  · rintro ⟨id, hid⟩
    obtain ⟨n, k, hn, hk, he⟩ := entryOf?_eq_some_iff.1 hid
    exact ⟨id, entryOf?_eq_some_iff.2 ⟨n, k, getElem?_added_of_some hn, hk, he⟩⟩
  · rintro ⟨id, hid⟩
    obtain ⟨n, k, hn, hk, he⟩ := entryOf?_eq_some_iff.1 hid
    exact ⟨id, entryOf?_eq_some_iff.2 ⟨n, k, linked_of_added hn hk, hk, he⟩⟩

/-- What absorbing a record stores are the entries of what links with it. -/
theorem Listed.absorb (h : a.Listed es) (hl : a.Linking []) (r : Record) :
    ∃ new, (a.absorb r).1 = new.map Edit.append ∧ (a.insert r).2.Listed (es ++ new) := by
  unfold Assembler.absorb
  rcases insert_cases a r with ⟨_, heq, hne⟩ | ⟨hnew, height, hlink, heq⟩ | ⟨hnew, hlink, heq⟩
  · refine ⟨[], ?_, by rw [heq, List.append_nil]; exact h⟩
    cases hins : a.insert r with
    | mk what after =>
      rw [hins] at hne
      cases what with
      | linked ids => exact absurd rfl (hne ids)
      | pending => rfl
      | rescan => rfl
      | duplicate => rfl
  · obtain ⟨ids, hids, hlisted⟩ := h.added.linkStack [] (hl.added hnew hlink)
    rw [List.reverse_nil, List.nil_append] at hids
    rw [heq]
    exact ⟨_, rfl, by rw [hids]; exact hlisted⟩
  · rw [heq]
    exact ⟨[], rfl, by rw [List.append_nil]; exact (h.added (r := r)).congr rfl⟩

theorem Listed.absorbAll (h : a.Listed es) (hl : a.Linking []) (rs : List Record) :
    ∃ new, (a.absorbAll rs).1 = new.map Edit.append ∧ (a.insertAll rs).Listed (es ++ new) := by
  induction rs generalizing a es with
  | nil => exact ⟨[], rfl, by rw [List.append_nil]; exact h⟩
  | cons r rest ih =>
    obtain ⟨new, hedits, hlisted⟩ := h.absorb hl r
    obtain ⟨more, hmore, hall⟩ := ih hlisted (hl.insert r)
    refine ⟨new ++ more, ?_, by rw [← List.append_assoc]; exact hall⟩
    show (a.absorb r).1 ++ ((a.absorb r).2.absorbAll rest).1 = _
    rw [hedits, absorb_snd, hmore, List.map_append]

/-! ## Replaying a forest -/

/-- Just the records of some entries are held, in their order and all linked. -/
structure Replayed (a : Assembler) (es : List Entry) : Prop where
  nodes : a.nodes = es.map Entry.node
  waiting : a.waiting = []

theorem Replayed.listed (h : a.Replayed es) (hf : Forest es) : a.Listed es := by
  refine ⟨hf, ?_⟩
  intro e
  have hentry : ∀ id : NodeId, a.entryOf? id = es[id]? := by
    intro id
    rw [entryOf?, h.nodes, List.getElem?_map]
    cases es[id]? <;> rfl
  constructor
  · intro he
    obtain ⟨id, hid⟩ := List.getElem?_of_mem he
    exact ⟨id, by rw [hentry, hid]⟩
  · rintro ⟨id, hid⟩
    rw [hentry] at hid
    exact List.mem_of_getElem? hid

theorem Replayed.records (h : a.Replayed es) : a.records = es.map Entry.toRecord := by
  rw [Assembler.records, h.nodes, List.map_map]
  rfl

/-- The next entry of a forest links at once, at its height. -/
theorem Replayed.insert (h : a.Replayed es) (hl : a.Linking []) (hf : Forest es)
    (hfresh : e.hash ∉ es.map Entry.hash) (hatt : e.AttachesTo es) :
    (a.insert e.toRecord).2.Replayed (es ++ [e]) := by
  have hnew : e.toRecord.hash ∉ a.records.map Record.hash := by
    rw [h.records, List.map_map]
    exact hfresh
  have hlink : a.linkHeight? e.toRecord = some e.height := by
    unfold linkHeight?
    rcases hatt with ⟨hg, hzero⟩ | ⟨hg, p, hp, hhash, hheight⟩
    · have hg' : e.toRecord.isGenesis = true := hg
      rw [if_pos hg', hzero]
    · have hg' : e.toRecord.isGenesis = false := hg
      have hparent := ((h.listed hf).heightOf?_iff hl.distinct).2 ⟨p, hp, hhash, rfl⟩
      rw [if_neg (by simp [hg'])]
      rw [show e.toRecord.parentHash = e.header.prevHash from rfl, hparent, hheight]
      rfl
  rcases insert_cases a e.toRecord with ⟨hmem, _⟩ | ⟨_, height, hheight, heq⟩ | ⟨_, hnone, _⟩
  · exact absurd hmem hnew
  · rw [hlink] at hheight
    obtain rfl := Option.some.inj hheight
    have hself : (a.added e.toRecord).nodes[a.nodes.length]? = some (Node.unlinked e.toRecord) := by
      rw [getElem?_added, if_pos rfl]
    have hwaiting : (a.added e.toRecord).waiting = [] := h.waiting
    have hpushed : (a.added e.toRecord).pushed (Node.unlinked e.toRecord) e.height [] = [] := by
      rw [pushed, hwaiting]
      rfl
    rw [heq, linkStack_cons hself, hpushed, linkStack_nil]
    constructor
    · show ((a.added e.toRecord).linkNode a.nodes.length _ e.height).nodes = _
      rw [nodes_linkNode]
      show (a.nodes ++ [Node.unlinked e.toRecord]).set a.nodes.length _ = _
      rw [List.set_append_right _ _ (Nat.le_refl _), Nat.sub_self, h.nodes, List.map_append]
      rfl
    · show ((a.added e.toRecord).waiting.take _).2 = []
      rw [hwaiting]
      rfl
  · rw [hlink] at hnone
    simp at hnone

theorem replay_append (a : Assembler) (es fs : List Entry) :
    a.replay (es ++ fs) =
      match a.replay es with
      | (.ok (), b) => b.replay fs
      | (.error fault, b) => (.error fault, b) := by
  induction es generalizing a with
  | nil => rfl
  | cons e rest ih =>
    rw [List.cons_append, replay, replay]
    split
    · rfl
    · dsimp only
      split
      · exact ih _
      · rfl

theorem replay_forest (hf : Forest es) (hhash : ∀ e ∈ es, e.header.hash = e.hash) :
    Assembler.empty.replay es = (.ok (), Assembler.empty.insertAll (es.map Entry.toRecord)) ∧
      (Assembler.empty.insertAll (es.map Entry.toRecord)).Replayed es := by
  induction hf with
  | nil => exact ⟨rfl, rfl, rfl⟩
  | @snoc es e hinit hfresh hatt ih =>
    obtain ⟨hreplay, hheld⟩ := ih fun f hf => hhash f (List.mem_append_left _ hf)
    have hl := Linking.empty.insertAll (es.map Entry.toRecord)
    have hnext := hheld.insert hl hinit hfresh hatt
    have hlast : Assembler.empty.insertAll ((es ++ [e]).map Entry.toRecord)
        = ((Assembler.empty.insertAll (es.map Entry.toRecord)).insert e.toRecord).2 := by
      rw [List.map_append, insertAll_append]
      rfl
    rw [hlast]
    refine ⟨?_, hnext⟩
    have hself : e.header.hash = e.hash := hhash e (List.mem_append_right _ (by simp))
    have hheight := ((hnext.listed (hinit.snoc hfresh hatt)).heightOf?_iff
      (hl.insert e.toRecord).distinct).2 ⟨e, by simp, rfl, rfl⟩
    rw [replay_append, hreplay]
    dsimp only
    rw [replay, if_neg (by simp [hself])]
    dsimp only
    rw [if_pos hheight, replay]

theorem Linking.congr {stack : List (NodeId × Nat)} (h : a.Linking stack)
    (hn : b.nodes = a.nodes) (hw : b.waiting = a.waiting) : b.Linking stack := by
  have hheights : ∀ r, b.linkHeight? r = a.linkHeight? r :=
    linkHeight?_congr (heightOf?_congr hn)
  constructor
  case distinct => rw [Distinct, hn]; exact h.distinct
  case parents => rw [hw]; exact h.parents
  case once => rw [hw]; exact h.once
  case unlinked => rw [hn, hw]; exact h.unlinked
  case due => simp only [hn, hheights]; exact h.due
  case waits => simp only [hn, hw, hheights]; exact h.waits
  case linked => simp only [hn, hheights]; exact h.linked

/-- The assembler with the tip that is asked for, if its record is held. -/
def restored (a : Assembler) (tip : Option Hash) : Assembler :=
  match tip with
  | none => a
  | some hash =>
    match a.idOf? hash with
    | none => a
    | some id => a.forceTip id hash

theorem nodes_restored (a : Assembler) (tip : Option Hash) :
    (a.restored tip).nodes = a.nodes := by
  unfold restored forceTip
  split
  · rfl
  · split
    · rfl
    · split <;> rfl

theorem waiting_restored (a : Assembler) (tip : Option Hash) :
    (a.restored tip).waiting = a.waiting := by
  unfold restored forceTip
  split
  · rfl
  · split
    · rfl
    · split <;> rfl

/-- What a forest seeds, whatever tip is asked for. -/
def seeded (es : List Entry) (tip : Option Hash) : Assembler :=
  let a := (Assembler.empty.insertAll (es.map Entry.toRecord)).restored tip
  { a with reorgs := [], persistedLen := a.best.length }

theorem seed_forest (hf : Forest es) (hhash : ∀ e ∈ es, e.header.hash = e.hash)
    (tip : Option Hash) : Assembler.empty.seed es tip = (.ok (), seeded es tip) := by
  unfold seed
  rw [(replay_forest hf hhash).1]
  rfl

theorem Replayed.seeded (hf : Forest es) (hhash : ∀ e ∈ es, e.header.hash = e.hash)
    (tip : Option Hash) : (seeded es tip).Replayed es := by
  have hheld := (replay_forest hf hhash).2
  refine ⟨?_, ?_⟩
  · rw [← hheld.nodes]
    exact nodes_restored _ tip
  · rw [← hheld.waiting]
    exact waiting_restored _ tip

theorem Linking.seeded (es : List Entry) (tip : Option Hash) :
    (Assembler.seeded es tip).Linking [] :=
  (Linking.empty.insertAll (es.map Entry.toRecord)).congr (nodes_restored _ tip)
    (waiting_restored _ tip)

end Assembler

end BlockIndex
