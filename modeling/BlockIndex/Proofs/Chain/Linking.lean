import BlockIndex.Proofs.Chain.Ancestry
import BlockIndex.Proofs.Chain.Waiting

/-!
# Linking

Which records are linked, and at which heights.  Linking works on a stack; `Linking` is what holds
of an assembler and the stack at every moment, and with an empty stack it is what holds between two
insertions:

* every record that is not linked is on the stack or waits, and only once;
* a record on the stack can link at the height that stands beside it;
* a waiting record cannot link, and waits under its parent;
* a linked record stands at the height at which it would link.

Main statements: `Linking.linkStack` and `Linking.insert` (it is kept), and `heightOf?_iff_rooted`
(a block is linked just if the records hold an ancestry of it, and at the height that this says).
-/

namespace BlockIndex

namespace Assembler

open Waiting

/-- The records held, in the order in which they were first seen. -/
def records (a : Assembler) : List Record := a.nodes.map Node.record

/-- No two records held have the same hash. -/
def Distinct (a : Assembler) : Prop := (a.nodes.map Node.hash).Nodup

variable {a b : Assembler} {x : Hash} {id : NodeId} {n : Node} {height : Nat}

/-! ## Look-up -/

theorem Distinct.id_eq (hd : a.Distinct) {i j : NodeId} {m : Node} (hi : a.nodes[i]? = some n)
    (hj : a.nodes[j]? = some m) (hhash : n.hash = m.hash) : i = j := by
  have hlt : i < (a.nodes.map Node.hash).length := by
    rw [List.length_map]
    exact (List.getElem?_eq_some_iff.1 hi).1
  rw [← List.getElem?_inj hlt hd, List.getElem?_map, List.getElem?_map, hi, hj]
  simp [hhash]

theorem node?_eq_some_iff (hd : a.Distinct) :
    a.node? x = some n ↔ ∃ id : NodeId, a.nodes[id]? = some n ∧ n.hash = x := by
  constructor
  · intro h
    have hx : n.hash = x := by simpa using List.find?_some h
    obtain ⟨id, hid⟩ := List.getElem?_of_mem (List.mem_of_find?_eq_some h)
    exact ⟨id, hid, hx⟩
  · rintro ⟨id, hid, hx⟩
    cases hfound : a.node? x with
    | none =>
      have := List.find?_eq_none.1 hfound n (List.mem_of_getElem? hid)
      simp [hx] at this
    | some m =>
      have hm : m.hash = x := by simpa using List.find?_some hfound
      obtain ⟨j, hj⟩ := List.getElem?_of_mem (List.mem_of_find?_eq_some hfound)
      have hij := hd.id_eq hid hj (by rw [hx, hm])
      rw [hij, hj] at hid
      exact hid

theorem node?_eq_none_iff : a.node? x = none ↔ ∀ n ∈ a.nodes, n.hash ≠ x := by
  rw [node?, List.find?_eq_none]
  simp

theorem heightOf?_eq_some_iff (hd : a.Distinct) :
    a.heightOf? x = some height ↔
      ∃ (id : NodeId) (n : Node), a.nodes[id]? = some n ∧ n.hash = x ∧ n.height = some height := by
  rw [heightOf?, Option.bind_eq_some_iff]
  constructor
  · rintro ⟨n, hn, hheight⟩
    obtain ⟨id, hid, hx⟩ := (node?_eq_some_iff hd).1 hn
    exact ⟨id, n, hid, hx, hheight⟩
  · rintro ⟨id, n, hid, hx, hheight⟩
    exact ⟨n, (node?_eq_some_iff hd).2 ⟨id, hid, hx⟩, hheight⟩

theorem mem_records_iff {r : Record} :
    r ∈ a.records ↔ ∃ (id : NodeId) (n : Node), a.nodes[id]? = some n ∧ n.record = r := by
  constructor
  · intro h
    obtain ⟨n, hn, hr⟩ := List.mem_map.1 h
    obtain ⟨id, hid⟩ := List.getElem?_of_mem hn
    exact ⟨id, n, hid, hr⟩
  · rintro ⟨id, n, hid, hr⟩
    exact List.mem_map.2 ⟨n, List.mem_of_getElem? hid, hr⟩

theorem hashes_eq : a.nodes.map Node.hash = a.records.map Record.hash := by
  rw [records, List.map_map]
  rfl

theorem Distinct.consistent (hd : a.Distinct) : Consistent a.records :=
  Consistent.of_nodup (hashes_eq ▸ hd)

theorem Distinct.record_eq (hd : a.Distinct) {r s : Record} (hr : r ∈ a.records)
    (hs : s ∈ a.records) (hhash : r.hash = s.hash) : r = s := by
  obtain ⟨i, n, hi, rfl⟩ := mem_records_iff.1 hr
  obtain ⟨j, m, hj, rfl⟩ := mem_records_iff.1 hs
  have hij := hd.id_eq hi hj hhash
  rw [hij, hj] at hi
  rw [Option.some.inj hi]

theorem heightOf?_congr (h : a.nodes = b.nodes) : a.heightOf? = b.heightOf? := by
  funext x
  rw [heightOf?, heightOf?, node?, node?, h]

theorem linkHeight?_congr (h : a.heightOf? = b.heightOf?) (r : Record) :
    a.linkHeight? r = b.linkHeight? r := by
  rw [linkHeight?, linkHeight?, h]

theorem linkHeight?_eq_none_iff {r : Record} :
    a.linkHeight? r = none ↔ r.isGenesis = false ∧ a.heightOf? r.parentHash = none := by
  unfold linkHeight?
  cases hg : r.isGenesis <;> simp

/-! ## A linked record -/

@[simp] theorem nodes_adopt : (a.adopt id n height).nodes = a.nodes := by
  unfold adopt
  dsimp only
  split <;> rfl

@[simp] theorem waiting_adopt : (a.adopt id n height).waiting = a.waiting := by
  unfold adopt
  dsimp only
  split <;> rfl

@[simp] theorem nodes_linkNode :
    (a.linkNode id n height).nodes = a.nodes.set id { n with height := some height } := by
  unfold linkNode
  dsimp only
  split
  · rw [nodes_adopt]
  · rfl

theorem getElem?_linkNode (hid : a.nodes[id]? = some n) (j : NodeId) :
    (a.linkNode id n height).nodes[j]? =
      if j = id then some { n with height := some height } else a.nodes[j]? := by
  have hlt := (List.getElem?_eq_some_iff.1 hid).1
  rw [nodes_linkNode, List.getElem?_set]
  by_cases hj : j = id
  · rw [if_pos hj.symm, if_pos hlt, if_pos hj]
  · rw [if_neg (Ne.symm hj), if_neg hj]

theorem records_linkNode (hid : a.nodes[id]? = some n) :
    (a.linkNode id n height).records = a.records := by
  apply List.ext_getElem?
  intro j
  rw [records, records, List.getElem?_map, List.getElem?_map, getElem?_linkNode hid]
  by_cases hj : j = id
  · rw [if_pos hj, hj, hid]
    rfl
  · rw [if_neg hj]

theorem Distinct.of_records (hd : a.Distinct) (h : b.records = a.records) : b.Distinct := by
  unfold Distinct at hd ⊢
  rw [hashes_eq] at hd ⊢
  rw [h]
  exact hd

theorem heightOf?_linkNode (hd : a.Distinct) (hid : a.nodes[id]? = some n) (x : Hash) :
    (a.linkNode id n height).heightOf? x = if x = n.hash then some height else a.heightOf? x := by
  have hd' : (a.linkNode id n height).Distinct := hd.of_records (records_linkNode hid)
  apply Option.ext
  intro k
  rw [heightOf?_eq_some_iff hd']
  by_cases hx : x = n.hash
  · rw [if_pos hx]
    constructor
    · rintro ⟨j, m, hj, hm, hk⟩
      rw [getElem?_linkNode hid] at hj
      by_cases hji : j = id
      · rw [if_pos hji] at hj
        rw [← Option.some.inj hj] at hk
        exact hk
      · rw [if_neg hji] at hj
        exact absurd (hd.id_eq hj hid (by rw [hm, hx])) hji
    · intro hk
      refine ⟨id, { n with height := some height }, ?_, hx.symm, hk⟩
      rw [getElem?_linkNode hid, if_pos rfl]
  · rw [if_neg hx, heightOf?_eq_some_iff hd]
    constructor
    · rintro ⟨j, m, hj, hm, hk⟩
      rw [getElem?_linkNode hid] at hj
      by_cases hji : j = id
      · rw [if_pos hji] at hj
        rw [← Option.some.inj hj] at hm
        exact absurd hm.symm hx
      · rw [if_neg hji] at hj
        exact ⟨j, m, hj, hm, hk⟩
    · rintro ⟨j, m, hj, hm, hk⟩
      refine ⟨j, m, ?_, hm, hk⟩
      have hji : j ≠ id := by
        rintro rfl
        rw [hid] at hj
        exact hx (by rw [Option.some.inj hj, hm])
      rw [getElem?_linkNode hid, if_neg hji, hj]

/-! ## The invariant -/

/-- What holds of an assembler while the records on a stack are being linked. -/
structure Linking (a : Assembler) (stack : List (NodeId × Nat)) : Prop where
  distinct : a.Distinct
  parents : (Waiting.parents a.waiting).Nodup
  once : (stack.map (·.1) ++ Waiting.ids a.waiting).Nodup
  unlinked : ∀ (id : NodeId) (n : Node), a.nodes[id]? = some n →
    (n.height = none ↔ id ∈ stack.map (·.1) ++ Waiting.ids a.waiting)
  due : ∀ (id : NodeId) (height : Nat), (id, height) ∈ stack →
    ∃ n, a.nodes[id]? = some n ∧ a.linkHeight? n.record = some height
  waits : ∀ (parent : Hash) (id : NodeId), Waits a.waiting parent id →
    ∃ n, a.nodes[id]? = some n ∧ n.parentHash = parent ∧ a.linkHeight? n.record = none
  linked : ∀ (id : NodeId) (n : Node) (height : Nat), a.nodes[id]? = some n → n.height = some height →
    a.linkHeight? n.record = some height

theorem Linking.empty : Assembler.empty.Linking [] where
  distinct := List.nodup_nil
  parents := List.nodup_nil
  once := List.nodup_nil
  unlinked := by intro id n h; simp [Assembler.empty] at h
  due := by intro id height h; simp at h
  waits := by rintro parent id ⟨ids, h, _⟩; simp [Assembler.empty] at h
  linked := by intro id n height h; simp [Assembler.empty] at h

/-- The assembler after the record on top of the stack has linked. -/
def popped (a : Assembler) (id : NodeId) (n : Node) (height : Nat) : Assembler :=
  { a.linkNode id n height with waiting := (a.waiting.take n.hash).2 }

/-- The stack after that. -/
def pushed (a : Assembler) (n : Node) (height : Nat) (others : List (NodeId × Nat)) :
    List (NodeId × Nat) :=
  (a.waiting.take n.hash).1.map (fun child => (child, height + 1)) ++ others

theorem records_popped (hid : a.nodes[id]? = some n) :
    (a.popped id n height).records = a.records := records_linkNode hid

theorem getElem?_popped (hid : a.nodes[id]? = some n) (j : NodeId) :
    (a.popped id n height).nodes[j]? =
      if j = id then some { n with height := some height } else a.nodes[j]? :=
  getElem?_linkNode hid j

theorem getElem?_popped_linked {t : NodeId} {m : Node} {k : Nat} (hid : a.nodes[id]? = some n)
    (hn : n.height = none) (hm : a.nodes[t]? = some m) (hk : m.height = some k) :
    t ≠ id ∧ (a.popped id n height).nodes[t]? = some m := by
  have hne : t ≠ id := by
    rintro rfl
    rw [hid] at hm
    rw [← Option.some.inj hm, hn] at hk
    simp at hk
  exact ⟨hne, by rw [getElem?_popped hid, if_neg hne, hm]⟩

theorem heightOf?_popped (hd : a.Distinct) (hid : a.nodes[id]? = some n) (x : Hash) :
    (a.popped id n height).heightOf? x = if x = n.hash then some height else a.heightOf? x :=
  heightOf?_linkNode hd hid x

theorem linkStack_cons {others : List (NodeId × Nat)} {linked : List NodeId}
    (hid : a.nodes[id]? = some n) :
    a.linkStack ((id, height) :: others) linked =
      (a.popped id n height).linkStack (a.pushed n height others) (id :: linked) := by
  rw [linkStack, hid]
  rfl

theorem linkStack_nil {linked : List NodeId} : a.linkStack [] linked = (linked.reverse, a) := by
  rw [linkStack]

namespace Linking

variable {stack others : List (NodeId × Nat)}

theorem top (h : a.Linking ((id, height) :: others)) :
    ∃ n, a.nodes[id]? = some n ∧ n.height = none ∧ a.linkHeight? n.record = some height := by
  obtain ⟨n, hid, hdue⟩ := h.due id height List.mem_cons_self
  refine ⟨n, hid, ?_, hdue⟩
  rw [h.unlinked id n hid]
  simp

theorem heightOf?_unlinked (h : a.Linking stack) (hid : a.nodes[id]? = some n)
    (hheight : n.height = none) : a.heightOf? n.hash = none := by
  cases hfound : a.heightOf? n.hash with
  | none => rfl
  | some k =>
    obtain ⟨j, m, hj, hm, hk⟩ := (heightOf?_eq_some_iff h.distinct).1 hfound
    have hji := h.distinct.id_eq hj hid hm
    rw [hji, hid] at hj
    rw [← Option.some.inj hj, hheight] at hk
    simp at hk

/-- What could link before can link after, at the same height. -/
theorem linkHeight?_popped (h : a.Linking ((id, height) :: others)) (hid : a.nodes[id]? = some n)
    (hn : n.height = none) {r : Record} {k : Nat} (hr : a.linkHeight? r = some k) :
    (a.popped id n height).linkHeight? r = some k := by
  unfold linkHeight? at hr ⊢
  split
  · next hg => rwa [if_pos hg] at hr
  · next hg =>
    rw [if_neg hg] at hr
    rw [heightOf?_popped h.distinct hid]
    by_cases hp : r.parentHash = n.hash
    · rw [hp, h.heightOf?_unlinked hid hn] at hr
      simp at hr
    · rwa [if_neg hp]

/-- The ids that are left after the top record has linked are the same ones. -/
theorem left_perm (a : Assembler) (n : Node) (height : Nat) (others : List (NodeId × Nat)) :
    ((a.pushed n height others).map (·.1) ++ Waiting.ids (a.waiting.take n.hash).2).Perm
      (others.map (·.1) ++ Waiting.ids a.waiting) := by
  have hmap : (a.pushed n height others).map (·.1)
      = (a.waiting.take n.hash).1 ++ others.map (·.1) := by
    rw [pushed, List.map_append, List.map_map]
    congr 1
    exact List.map_id _
  rw [hmap, List.append_assoc]
  refine List.perm_append_comm_assoc _ _ _ |>.trans ?_
  exact List.Perm.append_left _ (ids_take_perm a.waiting n.hash)

/-- The record on top of the stack stands there once, and does not wait. -/
theorem ne_top (h : a.Linking ((id, height) :: others)) {j : NodeId}
    (hj : j ∈ others.map (·.1) ++ Waiting.ids a.waiting) : j ≠ id := by
  have honce : (id :: (others.map (·.1) ++ Waiting.ids a.waiting)).Nodup := h.once
  intro heq
  exact (List.nodup_cons.1 honce).1 (heq ▸ hj)

/-- Who waits is not the record that links. -/
theorem waits_popped (h : a.Linking ((id, height) :: others)) (hid : a.nodes[id]? = some n)
    {parent : Hash} {j : NodeId} (hw : Waits a.waiting parent j) :
    ∃ m, (a.popped id n height).nodes[j]? = some m ∧ m.parentHash = parent ∧
      a.linkHeight? m.record = none := by
  obtain ⟨m, hj, hparent, hnone⟩ := h.waits parent j hw
  have hne : j ≠ id := h.ne_top (List.mem_append_right _ (mem_ids_iff.2 ⟨parent, hw⟩))
  exact ⟨m, by rw [getElem?_popped hid, if_neg hne, hj], hparent, hnone⟩

/-- One step of linking keeps the invariant. -/
theorem step (h : a.Linking ((id, height) :: others)) (hid : a.nodes[id]? = some n)
    (hn : n.height = none) (hdue : a.linkHeight? n.record = some height) :
    (a.popped id n height).Linking (a.pushed n height others) := by
  have honce : (id :: (others.map (·.1) ++ Waiting.ids a.waiting)).Nodup := h.once
  have hperm := left_perm a n height others
  constructor
  case distinct => exact h.distinct.of_records (records_popped hid)
  case parents => exact nodup_parents_take n.hash h.parents
  case once => exact hperm.nodup_iff.2 (List.nodup_cons.1 honce).2
  case unlinked =>
    intro j m hj
    show _ ↔ j ∈ (a.pushed n height others).map (·.1) ++ Waiting.ids (a.waiting.take n.hash).2
    rw [hperm.mem_iff]
    rw [getElem?_popped hid] at hj
    by_cases hji : j = id
    · rw [if_pos hji] at hj
      rw [← Option.some.inj hj]
      constructor
      · intro hnone
        simp at hnone
      · intro hmem
        exact absurd hji (h.ne_top hmem)
    · rw [if_neg hji] at hj
      rw [h.unlinked j m hj]
      simp only [List.map_cons, List.cons_append, List.mem_cons, hji, false_or]
  case due =>
    intro j k hmem
    rcases List.mem_append.1 hmem with hchild | hrest
    · -- a child of the linked record, taken from its bucket
      obtain ⟨child, hc, heq⟩ := List.mem_map.1 hchild
      obtain ⟨rfl, rfl⟩ := Prod.mk.inj heq
      obtain ⟨m, hj, hparent, hnone⟩ := h.waits_popped hid ((mem_take h.parents).1 hc)
      have hg := (linkHeight?_eq_none_iff.1 hnone).1
      have hp : m.record.parentHash = n.hash := hparent
      refine ⟨m, hj, ?_⟩
      rw [linkHeight?, hg, heightOf?_popped h.distinct hid, if_pos hp]
      rfl
    · obtain ⟨m, hj, hk⟩ := h.due j k (List.mem_cons_of_mem _ hrest)
      have hne : j ≠ id := h.ne_top (List.mem_append_left _ (List.mem_map.2 ⟨(j, k), hrest, rfl⟩))
      exact ⟨m, by rw [getElem?_popped hid, if_neg hne, hj], h.linkHeight?_popped hid hn hk⟩
  case waits =>
    intro parent j hw
    obtain ⟨hw, hne⟩ := (waits_rest h.parents).1 hw
    obtain ⟨m, hj, hparent, hnone⟩ := h.waits_popped hid hw
    refine ⟨m, hj, hparent, ?_⟩
    rw [linkHeight?_eq_none_iff] at hnone ⊢
    have hp : m.record.parentHash ≠ n.hash := fun heq => hne (hparent.symm.trans heq)
    rw [heightOf?_popped h.distinct hid, if_neg hp]
    exact hnone
  case linked =>
    intro j m k hj hk
    rw [getElem?_popped hid] at hj
    by_cases hji : j = id
    · rw [if_pos hji] at hj
      have hm := Option.some.inj hj
      rw [← hm] at hk ⊢
      have hkh : height = k := Option.some.inj hk
      rw [← hkh]
      exact h.linkHeight?_popped hid hn hdue
    · rw [if_neg hji] at hj
      exact h.linkHeight?_popped hid hn (h.linked j m k hj hk)

end Linking

/-- Induction along the linking of a stack: what holds at the end holds at the beginning if a step
carries it back. -/
theorem linkStack_induction {motive : Assembler → List (NodeId × Nat) → List NodeId → Prop}
    (done : ∀ a linked, a.Linking [] → motive a [] linked)
    (step : ∀ (a : Assembler) (id : NodeId) (n : Node) (height : Nat)
      (others : List (NodeId × Nat)) (linked : List NodeId),
      a.Linking ((id, height) :: others) → a.nodes[id]? = some n → n.height = none →
      a.linkHeight? n.record = some height →
      motive (a.popped id n height) (a.pushed n height others) (id :: linked) →
      motive a ((id, height) :: others) linked)
    (a : Assembler) (stack : List (NodeId × Nat)) (linked : List NodeId) (h : a.Linking stack) :
    motive a stack linked := by
  induction a, stack, linked using linkStack.induct with
  | case1 a linked => exact done a linked h
  | case2 a linked id height others hnone =>
    obtain ⟨n, hid, _, _⟩ := h.top
    rw [hnone] at hid
    simp at hid
  | case3 a linked id height others node hid children next ih =>
    obtain ⟨n, hid', hn, hdue⟩ := h.top
    rw [hid] at hid'
    obtain rfl := Option.some.inj hid'
    exact step a id node height others linked h hid hn hdue (ih (h.step hid hn hdue))

theorem Linking.linkStack {stack : List (NodeId × Nat)} (linked : List NodeId)
    (h : a.Linking stack) : (a.linkStack stack linked).2.Linking [] := by
  refine linkStack_induction
    (motive := fun a stack linked => (a.linkStack stack linked).2.Linking []) ?_ ?_ a stack linked h
  · intro a linked ha
    rw [linkStack_nil]
    exact ha
  · intro a id n height others linked _ hid _ _ ih
    rw [linkStack_cons hid]
    exact ih

/-- What one record that links keeps, the linking of a stack keeps. -/
theorem linkStack_keeps {P : Assembler → Prop}
    (hpopped : ∀ {a : Assembler} {id : NodeId} {n : Node} {height : Nat}
      {others : List (NodeId × Nat)}, P a → a.Linking ((id, height) :: others) →
      a.nodes[id]? = some n → n.height = none → a.linkHeight? n.record = some height →
      P (a.popped id n height))
    {stack : List (NodeId × Nat)} (linked : List NodeId) (hl : a.Linking stack) (h : P a) :
    P (a.linkStack stack linked).2 := by
  refine linkStack_induction
    (motive := fun a stack linked => P a → P (a.linkStack stack linked).2) ?_ ?_ a stack linked hl h
  · intro a linked _ ha
    rw [linkStack_nil]
    exact ha
  · intro a id n height others linked hl hid hn hdue ih ha
    rw [linkStack_cons hid]
    exact ih (hpopped ha hl hid hn hdue)

theorem records_linkStack {stack : List (NodeId × Nat)} (linked : List NodeId)
    (h : a.Linking stack) : (a.linkStack stack linked).2.records = a.records := by
  refine linkStack_keeps (P := fun b => b.records = a.records) ?_ linked h rfl
  intro b id n height others hb _ hid _ _
  rw [records_popped hid, hb]

end Assembler

end BlockIndex
