import BlockIndex.Proofs.Chain.Forest
import BlockIndex.Proofs.Cursor

/-!
# What is reported of an assembler

The two lists that a run takes out of its assembler: the records that wait, by position, and the
linked ones from a height on, by height.

* `mem_unresolved_iff`    just the records that are not linked are reported as waiting;
* `unresolved_sorted`     and they are reported by position;
* `unresolved_perm`       each of them once;
* `Listed.linkedFrom`     entries below a height and the linked records from there on make a forest
                          of all linked records.
-/

namespace BlockIndex

namespace Assembler

open Waiting

variable {a : Assembler} {r : Record}

/-! ## Waiting records -/

theorem mem_unresolved_iff (h : a.Linking []) :
    r ∈ a.unresolved ↔ r ∈ a.records ∧ a.heightOf? r.hash = none := by
  have hids : ∀ id, id ∈ Waiting.ids a.waiting →
      ∃ n, a.nodes[id]? = some n ∧ n.height = none := by
    intro id hid
    have hlt := h.id_lt (List.mem_append_right _ hid)
    refine ⟨a.nodes[id], List.getElem?_eq_getElem hlt, ?_⟩
    exact (h.unlinked id _ (List.getElem?_eq_getElem hlt)).2 hid
  rw [unresolved, (sortBy_perm _ _).mem_iff, List.mem_filterMap]
  constructor
  · rintro ⟨id, hid, hr⟩
    obtain ⟨n, hn, hheight⟩ := hids id hid
    rw [hn] at hr
    obtain rfl := Option.some.inj hr
    exact ⟨mem_records_iff.2 ⟨id, n, hn, rfl⟩, h.heightOf?_unlinked hn hheight⟩
  · rintro ⟨hr, hnone⟩
    obtain ⟨id, n, hn, rfl⟩ := mem_records_iff.1 hr
    refine ⟨id, ?_, by rw [hn]; rfl⟩
    refine (h.unlinked id n hn).1 ?_
    cases hheight : n.height with
    | none => rfl
    | some k =>
      have := (heightOf?_eq_some_iff h.distinct).2 ⟨id, n, hn, rfl, hheight⟩
      rw [show n.record.hash = n.hash from rfl, this] at hnone
      simp at hnone

theorem unresolved_sorted (a : Assembler) :
    a.unresolved.Pairwise fun x y => x.position ≤ y.position := by
  have hsorted := pairwise_sortBy (fun x y : Record => decide (x.position ≤ y.position))
    (fun x y hxy => by
      rw [decide_eq_false_iff_not] at hxy
      rw [decide_eq_true_eq]
      exact (Cursor.le_total y.position x.position).resolve_right hxy)
    (fun x y z hxy hyz => by
      rw [decide_eq_true_eq] at hxy hyz ⊢
      exact Cursor.le_trans hxy hyz)
    (a.waiting.ids.filterMap fun id => a.nodes[id]?.map Node.record)
  refine hsorted.imp ?_
  intro x y hxy
  exact of_decide_eq_true hxy

theorem nodup_unresolved (h : a.Linking []) : (a.unresolved.map Record.hash).Nodup := by
  have hids : (Waiting.ids a.waiting).Nodup := h.once
  have hperm := (sortBy_perm (fun x y : Record => decide (x.position ≤ y.position))
    (a.waiting.ids.filterMap fun id => a.nodes[id]?.map Node.record)).map Record.hash
  refine hperm.nodup_iff.2 ?_
  rw [List.map_filterMap]
  refine List.Pairwise.filterMap _ ?_ hids
  intro i j hij x hx y hy hxy
  simp only [Option.map_map, Option.map_eq_some_iff] at hx hy
  obtain ⟨n, hn, rfl⟩ := hx
  obtain ⟨m, hm, rfl⟩ := hy
  exact hij (h.distinct.id_eq hn hm hxy)

theorem nodup_of_hashes {rs : List Record} (h : (rs.map Record.hash).Nodup) : rs.Nodup :=
  List.Pairwise.of_map Record.hash (fun _ _ hne heq => hne (congrArg Record.hash heq)) h

theorem unresolved_perm (hl : a.Linking []) :
    a.unresolved.Perm (a.records.filter fun r => a.heightOf? r.hash = none) := by
  have hrecords : a.records.Nodup := nodup_of_hashes (hashes_eq ▸ hl.distinct)
  refine (List.perm_ext_iff_of_nodup (nodup_of_hashes (nodup_unresolved hl))
    (hrecords.filter _)).2 ?_
  intro r
  rw [mem_unresolved_iff hl, List.mem_filter, decide_eq_true_eq]

theorem Listed.mem_records_iff {es : List Entry} (h : a.Listed es) (hl : a.Linking []) :
    r ∈ a.records ↔ r ∈ es.map Entry.toRecord ++ a.unresolved := by
  rw [List.mem_append, mem_unresolved_iff hl]
  constructor
  · intro hr
    cases hheight : a.heightOf? r.hash with
    | none => exact Or.inr ⟨hr, rfl⟩
    | some k =>
      obtain ⟨id, n, hid, rfl⟩ := Assembler.mem_records_iff.1 hr
      obtain ⟨j, m, hj, hm, hk⟩ := (heightOf?_eq_some_iff hl.distinct).1 hheight
      have hji := hl.distinct.id_eq hj hid hm
      subst hji
      rw [hj] at hid
      obtain rfl := Option.some.inj hid
      refine Or.inl (List.mem_map.2 ⟨Entry.ofRecord m.record k, ?_, rfl⟩)
      exact (h.mem_iff _).2 ⟨j, entryOf?_eq_some_iff.2 ⟨m, k, hj, hk, rfl⟩⟩
  · rintro (hr | ⟨hr, _⟩)
    · obtain ⟨e, he, rfl⟩ := List.mem_map.1 hr
      exact h.mem_records he
    · exact hr

/-- The entries of all linked records, in the order in which they were first seen. -/
def linkedEntries (a : Assembler) : List Entry :=
  a.nodes.filterMap fun n => n.height.map (Entry.ofRecord n.record)

/-- A list that has just the entries of the linked records has each of them once. -/
theorem Listed.perm {es : List Entry} (h : a.Listed es) (hd : a.Distinct) :
    es.Perm a.linkedEntries := by
  have hes : es.Nodup :=
    List.Pairwise.of_map Entry.hash (fun _ _ hne heq => hne (congrArg Entry.hash heq)) h.forest.nodup
  have hlinked : a.linkedEntries.Nodup := by
    refine List.Pairwise.filterMap _ ?_ (List.pairwise_map.1 hd)
    intro n m hne e he f hf
    obtain ⟨_, _, rfl⟩ := Option.map_eq_some_iff.1 he
    obtain ⟨_, _, rfl⟩ := Option.map_eq_some_iff.1 hf
    exact fun heq => hne (congrArg Entry.hash heq)
  refine (List.perm_ext_iff_of_nodup hes hlinked).2 ?_
  intro e
  rw [h.mem_iff, linkedEntries, List.mem_filterMap]
  constructor
  · rintro ⟨id, hid⟩
    obtain ⟨n, k, hn, hk, rfl⟩ := entryOf?_eq_some_iff.1 hid
    exact ⟨n, List.mem_of_getElem? hn, by rw [hk]; rfl⟩
  · rintro ⟨n, hn, he⟩
    obtain ⟨k, hk, rfl⟩ := Option.map_eq_some_iff.1 he
    obtain ⟨id, hid⟩ := List.getElem?_of_mem hn
    exact ⟨id, entryOf?_eq_some_iff.2 ⟨n, k, hid, hk, rfl⟩⟩

/-! ## Linked records by height -/

/-- Heights and ids of the linked records at a height and above, in the order first seen. -/
def standing (a : Assembler) (height : Nat) : List (Nat × NodeId) :=
  a.nodes.zipIdx.filterMap fun (node, id) =>
    match node.height with
    | some h => if height ≤ h then some (h, id) else none
    | none => none

theorem linkedFrom_eq (a : Assembler) (height : Nat) :
    a.linkedFrom height = (sortBy (fun x y => x.1 ≤ y.1) (a.standing height)).map (·.2) := rfl

theorem mem_standing_iff {height k : Nat} {id : NodeId} :
    (k, id) ∈ a.standing height ↔
      height ≤ k ∧ ∃ n, a.nodes[id]? = some n ∧ n.height = some k := by
  rw [standing, List.mem_filterMap]
  constructor
  · rintro ⟨⟨n, i⟩, hmem, heq⟩
    have hn := List.mk_mem_zipIdx_iff_getElem?.1 hmem
    cases hh : n.height with
    | none => simp [hh] at heq
    | some h =>
      simp only [hh] at heq
      split at heq
      · next hle =>
        obtain ⟨rfl, rfl⟩ := Prod.mk.inj (Option.some.inj heq)
        exact ⟨hle, n, hn, hh⟩
      · simp at heq
  · rintro ⟨hle, n, hn, hh⟩
    refine ⟨(n, id), List.mk_mem_zipIdx_iff_getElem?.2 hn, ?_⟩
    simp [hh, hle]

theorem standing_ids (a : Assembler) (height : Nat) :
    (a.standing height).Pairwise fun x y => x.2 ≠ y.2 := by
  have hids : (a.nodes.zipIdx.map Prod.snd).Nodup := by
    rw [List.zipIdx_map_snd]
    exact List.nodup_range'
  rw [List.Nodup, List.pairwise_map] at hids
  refine List.Pairwise.filterMap _ ?_ hids
  rintro ⟨n, i⟩ ⟨m, j⟩ hij x hx y hy
  have hsnd : ∀ (p : Node × NodeId) (q : Nat × NodeId),
      (match p.1.height with
        | some h => if height ≤ h then some (h, p.2) else none
        | none => none) = some q → q.2 = p.2 := by
    rintro ⟨p, i⟩ q hq
    dsimp only at hq
    split at hq
    · split at hq
      · rw [← Option.some.inj hq]
      · simp at hq
    · simp at hq
  rw [hsnd (n, i) x hx, hsnd (m, j) y hy]
  exact hij

theorem mem_linkedFrom_iff {height : Nat} {id : NodeId} :
    id ∈ a.linkedFrom height ↔ ∃ e, a.entryOf? id = some e ∧ height ≤ e.height := by
  rw [linkedFrom_eq, List.mem_map]
  constructor
  · rintro ⟨⟨k, i⟩, hmem, rfl⟩
    obtain ⟨hle, n, hn, hk⟩ := mem_standing_iff.1 ((sortBy_perm _ _).mem_iff.1 hmem)
    exact ⟨_, entryOf?_eq_some_iff.2 ⟨n, k, hn, hk, rfl⟩, hle⟩
  · rintro ⟨e, he, hle⟩
    obtain ⟨n, k, hn, hk, rfl⟩ := entryOf?_eq_some_iff.1 he
    refine ⟨(k, id), (sortBy_perm _ _).mem_iff.2 (mem_standing_iff.2 ⟨hle, n, hn, hk⟩), rfl⟩

theorem linkedFrom_sorted (a : Assembler) (height : Nat) :
    (a.entriesOf (a.linkedFrom height)).Pairwise fun e f => e.height ≤ f.height := by
  have hsorted := pairwise_sortBy (fun x y : Nat × NodeId => decide (x.1 ≤ y.1))
    (fun x y hxy => by
      rw [decide_eq_false_iff_not] at hxy
      rw [decide_eq_true_eq]
      omega)
    (fun x y z hxy hyz => by
      rw [decide_eq_true_eq] at hxy hyz ⊢
      omega)
    (a.standing height)
  rw [linkedFrom_eq, entriesOf, List.filterMap_map]
  have hmem := hsorted.imp_of_mem (S := fun x y : Nat × NodeId =>
    x ∈ a.standing height ∧ y ∈ a.standing height ∧ x.1 ≤ y.1) (by
      intro x y hx hy hxy
      exact ⟨(sortBy_perm _ _).mem_iff.1 hx, (sortBy_perm _ _).mem_iff.1 hy,
        of_decide_eq_true hxy⟩)
  refine hmem.filterMap _ ?_
  rintro ⟨k, i⟩ ⟨l, j⟩ ⟨hx, hy, hle⟩ e he f hf
  obtain ⟨_, n, hn, hk⟩ := mem_standing_iff.1 hx
  obtain ⟨_, m, hm, hl⟩ := mem_standing_iff.1 hy
  have hheight : ∀ (id : NodeId) (n : Node) (k : Nat) (e : Entry), a.nodes[id]? = some n →
      n.height = some k → a.entryOf? id = some e → e.height = k := by
    intro id n k e hn hk he
    obtain ⟨n', k', hn', hk', rfl⟩ := entryOf?_eq_some_iff.1 he
    rw [hn] at hn'
    rw [← Option.some.inj hn', hk] at hk'
    exact (Option.some.inj hk').symm
  rw [hheight i n k e hn hk he, hheight j m l f hm hl hf]
  exact hle

theorem nodup_linkedFrom (hd : a.Distinct) (height : Nat) :
    ((a.entriesOf (a.linkedFrom height)).map Entry.hash).Nodup := by
  have hids : (a.linkedFrom height).Nodup := by
    rw [linkedFrom_eq, List.Nodup, List.pairwise_map]
    exact ((sortBy_perm _ (a.standing height)).pairwise_iff (fun h => Ne.symm h)).2
      (standing_ids a height)
  rw [List.Nodup, List.pairwise_map, entriesOf]
  refine List.Pairwise.filterMap _ ?_ hids
  intro i j hij e he f hf heq
  obtain ⟨n, k, hn, _, rfl⟩ := entryOf?_eq_some_iff.1 he
  obtain ⟨m, l, hm, _, rfl⟩ := entryOf?_eq_some_iff.1 hf
  exact hij (hd.id_eq hn hm heq)

theorem mem_entriesOf_linkedFrom {height : Nat} {e : Entry} :
    e ∈ a.entriesOf (a.linkedFrom height) ↔
      (∃ id, a.entryOf? id = some e) ∧ height ≤ e.height := by
  rw [entriesOf, List.mem_filterMap]
  constructor
  · rintro ⟨id, hid, he⟩
    obtain ⟨f, hf, hle⟩ := mem_linkedFrom_iff.1 hid
    rw [he] at hf
    obtain rfl := Option.some.inj hf
    exact ⟨⟨id, he⟩, hle⟩
  · rintro ⟨⟨id, he⟩, hle⟩
    exact ⟨id, mem_linkedFrom_iff.2 ⟨e, he, hle⟩, he⟩

/-- Below a height the entries stay; from there on the linked records are entered anew, by height.
A parent stands lower than its child, so it still comes before it. -/
theorem Listed.linkedFrom {es : List Entry} (h : a.Listed es) (hd : a.Distinct) (height : Nat) :
    a.Listed ((es.filter fun e => e.height < height) ++ a.entriesOf (a.linkedFrom height)) := by
  have hmem : ∀ e, e ∈ (es.filter fun e => e.height < height) ++ a.entriesOf (a.linkedFrom height) ↔
      ∃ id, a.entryOf? id = some e := by
    intro e
    rw [List.mem_append, List.mem_filter, decide_eq_true_eq, mem_entriesOf_linkedFrom, h.mem_iff]
    constructor
    · rintro (⟨he, _⟩ | ⟨he, _⟩) <;> exact he
    · intro he
      rcases Nat.lt_or_ge e.height height with hlt | hge
      · exact Or.inl ⟨he, hlt⟩
      · exact Or.inr ⟨he, hge⟩
  refine ⟨(h.forest.filter_lt height).append_sorted ?_ (linkedFrom_sorted a height) ?_, hmem⟩
  · rw [List.map_append, List.nodup_append]
    refine ⟨(h.forest.filter_lt height).nodup, nodup_linkedFrom hd height, ?_⟩
    intro x hx y hy hxy
    obtain ⟨e, he, rfl⟩ := List.mem_map.1 hx
    obtain ⟨f, hf, rfl⟩ := List.mem_map.1 hy
    rw [List.mem_filter, decide_eq_true_eq] at he
    obtain ⟨hlinked, hge⟩ := mem_entriesOf_linkedFrom.1 hf
    have := h.forest.eq_of_hash he.1 ((h.mem_iff f).2 hlinked) hxy
    rw [this] at he
    omega
  · intro e he
    have hin := (h.mem_iff e).2 (mem_entriesOf_linkedFrom.1 he).1
    exact (h.forest.attached hin).mono fun p hp => (hmem p).2 ((h.mem_iff p).1 hp)

end Assembler

end BlockIndex
