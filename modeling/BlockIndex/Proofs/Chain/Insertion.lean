import BlockIndex.Proofs.Chain.Linking

/-!
# Insertion

What one insertion can do, and what is held and linked after any number of them.

* `insert_cases`         the record is known, links, or waits, and nothing else;
* `Linking.insert`       the invariant of linking is kept;
* `Kept`                 what every insertion keeps, and `Kept.insertAll` for any number of them;
* `Assembler.insertAll`  records inserted in order;
* `heightOf?_iff_rooted` a block is linked just if the records held contain an ancestry of it, and
                         its height says how long that is.

The records held are the first copies: `records_insertAll`.
-/

namespace BlockIndex

namespace Assembler

open Waiting

variable {a : Assembler} {x : Hash} {r : Record} {height : Nat}

/-- The assembler with one more record, which is not linked and does not wait. -/
def added (a : Assembler) (r : Record) : Assembler :=
  { a with nodes := a.nodes ++ [Node.unlinked r] }

/-- The assembler with one more record, which waits. -/
def parked (a : Assembler) (r : Record) : Assembler :=
  { a.added r with waiting := a.waiting.push r.parentHash a.nodes.length }

theorem node?_hash_eq_none_iff : a.node? x = none ↔ x ∉ a.records.map Record.hash := by
  rw [node?_eq_none_iff, ← hashes_eq, List.mem_map]
  constructor
  · rintro h ⟨n, hn, hhash⟩
    exact h n hn hhash
  · intro h n hn hhash
    exact h ⟨n, hn, hhash⟩

theorem insert_found {known : Node} (hknown : a.node? r.hash = some known) :
    (a.insert r).2 = a ∧ ∀ ids, (a.insert r).1 ≠ .linked ids := by
  unfold insert
  rw [hknown]
  dsimp only
  split
  · exact ⟨rfl, fun ids h => by simp at h⟩
  · exact ⟨rfl, fun ids h => by simp at h⟩

theorem insert_links (hknown : a.node? r.hash = none) (hlink : a.linkHeight? r = some height) :
    a.insert r = (.linked ((a.added r).linkStack [(a.nodes.length, height)] []).1,
      ((a.added r).linkStack [(a.nodes.length, height)] []).2) := by
  unfold insert
  rw [hknown]
  dsimp only
  rw [hlink]
  rfl

theorem insert_waits (hknown : a.node? r.hash = none) (hlink : a.linkHeight? r = none) :
    a.insert r = (.pending, a.parked r) := by
  unfold insert
  rw [hknown]
  dsimp only
  rw [hlink]
  rfl

/-- All that an insertion can do. -/
theorem insert_cases (a : Assembler) (r : Record) :
    (r.hash ∈ a.records.map Record.hash ∧ (a.insert r).2 = a ∧
      ∀ ids, (a.insert r).1 ≠ .linked ids) ∨
    (r.hash ∉ a.records.map Record.hash ∧ ∃ height, a.linkHeight? r = some height ∧
      a.insert r = (.linked ((a.added r).linkStack [(a.nodes.length, height)] []).1,
        ((a.added r).linkStack [(a.nodes.length, height)] []).2)) ∨
    (r.hash ∉ a.records.map Record.hash ∧ a.linkHeight? r = none ∧
      a.insert r = (.pending, a.parked r)) := by
  cases hknown : a.node? r.hash with
  | some known =>
    refine Or.inl ⟨Classical.not_not.1 fun hout => ?_, insert_found hknown⟩
    rw [node?_hash_eq_none_iff.2 hout] at hknown
    simp at hknown
  | none =>
    have hnew := node?_hash_eq_none_iff.1 hknown
    refine Or.inr ?_
    cases hlink : a.linkHeight? r with
    | some height => exact Or.inl ⟨hnew, height, rfl, insert_links hknown hlink⟩
    | none => exact Or.inr ⟨hnew, rfl, insert_waits hknown hlink⟩

/-! ## One more record -/

theorem records_added : (a.added r).records = a.records ++ [r] := by
  simp [records, added, Node.unlinked]

theorem records_parked : (a.parked r).records = a.records ++ [r] := records_added

theorem getElem?_added (id : NodeId) :
    (a.added r).nodes[id]? = if id = a.nodes.length then some (Node.unlinked r) else a.nodes[id]? := by
  show (a.nodes ++ [Node.unlinked r])[id]? = _
  rcases Nat.lt_trichotomy id a.nodes.length with hlt | heq | hgt
  · rw [List.getElem?_append_left hlt, if_neg (Nat.ne_of_lt hlt)]
  · rw [heq, if_pos rfl, List.getElem?_append_right (Nat.le_refl _), Nat.sub_self]
    rfl
  · rw [if_neg (Nat.ne_of_gt hgt), List.getElem?_eq_none (by simpa using Nat.succ_le_of_lt hgt),
      List.getElem?_eq_none (Nat.le_of_lt hgt)]

theorem getElem?_added_of_some {id : NodeId} {n : Node} (hid : a.nodes[id]? = some n) :
    (a.added r).nodes[id]? = some n := by
  have hlt := (List.getElem?_eq_some_iff.1 hid).1
  rw [getElem?_added, if_neg (Nat.ne_of_lt hlt), hid]

/-- A record that is put in is not linked yet, so what is linked was there before. -/
theorem linked_of_added {id : NodeId} {n : Node} {k : Nat} (hid : (a.added r).nodes[id]? = some n)
    (hk : n.height = some k) : a.nodes[id]? = some n := by
  rw [getElem?_added] at hid
  split at hid
  · rw [← Option.some.inj hid] at hk
    simp [Node.unlinked] at hk
  · exact hid

theorem Distinct.added (hd : a.Distinct) (hnew : r.hash ∉ a.records.map Record.hash) :
    (a.added r).Distinct := by
  unfold Distinct at hd ⊢
  rw [hashes_eq] at hd ⊢
  rw [records_added, List.map_append, List.nodup_append]
  refine ⟨hd, by simp, ?_⟩
  intro y hy z hz
  rw [List.map_singleton, List.mem_singleton] at hz
  rintro rfl
  exact hnew (hz ▸ hy)

theorem heightOf?_added (hd : a.Distinct) (hnew : r.hash ∉ a.records.map Record.hash) :
    (a.added r).heightOf? = a.heightOf? := by
  funext x
  apply Option.ext
  intro k
  rw [heightOf?_eq_some_iff (hd.added hnew), heightOf?_eq_some_iff hd]
  constructor
  · rintro ⟨id, n, hid, hx, hk⟩
    exact ⟨id, n, linked_of_added hid hk, hx, hk⟩
  · rintro ⟨id, n, hid, hx, hk⟩
    exact ⟨id, n, getElem?_added_of_some hid, hx, hk⟩

namespace Linking

theorem id_lt {stack : List (NodeId × Nat)} (h : a.Linking stack) {id : NodeId}
    (hid : id ∈ stack.map (·.1) ++ Waiting.ids a.waiting) : id < a.nodes.length := by
  rcases List.mem_append.1 hid with hs | hw
  · obtain ⟨⟨j, k⟩, hj, rfl⟩ := List.mem_map.1 hs
    obtain ⟨n, hn, _⟩ := h.due j k hj
    exact (List.getElem?_eq_some_iff.1 hn).1
  · obtain ⟨parent, hw⟩ := mem_ids_iff.1 hw
    obtain ⟨n, hn, _⟩ := h.waits parent id hw
    exact (List.getElem?_eq_some_iff.1 hn).1

/-- Of the records of which one is put in, that one is not linked, and those that wait. -/
theorem unlinked_added (h : a.Linking []) {id : NodeId} {n : Node}
    (hid : (a.added r).nodes[id]? = some n) :
    n.height = none ↔ id ∈ a.nodes.length :: Waiting.ids a.waiting := by
  rw [getElem?_added] at hid
  rw [List.mem_cons]
  split at hid
  · next heq =>
    rw [← Option.some.inj hid]
    simp [Node.unlinked, heq]
  · next hne =>
    rw [h.unlinked id n hid]
    simp [hne]

theorem nodup_added (h : a.Linking []) : (a.nodes.length :: Waiting.ids a.waiting).Nodup := by
  refine List.nodup_cons.2 ⟨?_, h.once⟩
  intro hmem
  exact Nat.lt_irrefl _ (h.id_lt (List.mem_append_right _ hmem))

/-- The invariant with one more record that can link. -/
theorem added (h : a.Linking []) (hnew : r.hash ∉ a.records.map Record.hash)
    (hlink : a.linkHeight? r = some height) :
    (a.added r).Linking [(a.nodes.length, height)] := by
  have hheights := heightOf?_added h.distinct hnew
  have hlinks : ∀ s, (a.added r).linkHeight? s = a.linkHeight? s := linkHeight?_congr hheights
  have hself : (a.added r).nodes[a.nodes.length]? = some (Node.unlinked r) := by
    rw [getElem?_added, if_pos rfl]
  constructor
  case distinct => exact h.distinct.added hnew
  case parents => exact h.parents
  case once => exact h.nodup_added
  case unlinked => exact fun id n hid => h.unlinked_added hid
  case due =>
    intro id k hmem
    rw [List.mem_singleton] at hmem
    obtain ⟨rfl, rfl⟩ := Prod.mk.inj hmem
    exact ⟨_, hself, by rw [hlinks]; exact hlink⟩
  case waits =>
    intro parent id hw
    obtain ⟨n, hid, hp, hnone⟩ := h.waits parent id hw
    exact ⟨n, getElem?_added_of_some hid, hp, by rw [hlinks]; exact hnone⟩
  case linked =>
    intro id n k hid hk
    rw [hlinks]
    exact h.linked id n k (linked_of_added hid hk) hk

/-- The invariant with one more record that has to wait. -/
theorem parked (h : a.Linking []) (hnew : r.hash ∉ a.records.map Record.hash)
    (hlink : a.linkHeight? r = none) : (a.parked r).Linking [] := by
  have hheights : (a.parked r).heightOf? = a.heightOf? := heightOf?_added h.distinct hnew
  have hlinks : ∀ s, (a.parked r).linkHeight? s = a.linkHeight? s := linkHeight?_congr hheights
  have hself : (a.parked r).nodes[a.nodes.length]? = some (Node.unlinked r) :=
    (getElem?_added _).trans (if_pos rfl)
  have hperm := ids_push_perm a.waiting r.parentHash a.nodes.length
  constructor
  case distinct => exact h.distinct.added hnew
  case parents => exact nodup_parents_push _ _ h.parents
  case once => exact hperm.nodup_iff.2 h.nodup_added
  case unlinked => exact fun id n hid => (h.unlinked_added hid).trans hperm.mem_iff.symm
  case due => intro id k hmem; simp at hmem
  case waits =>
    intro parent id hw
    rcases waits_push.1 hw with hw | ⟨rfl, rfl⟩
    · obtain ⟨n, hid, hp, hnone⟩ := h.waits parent id hw
      exact ⟨n, getElem?_added_of_some hid, hp, by rw [hlinks]; exact hnone⟩
    · exact ⟨Node.unlinked r, hself, rfl, by rw [hlinks]; exact hlink⟩
  case linked =>
    intro id n k hid hk
    rw [hlinks]
    exact h.linked id n k (linked_of_added hid hk) hk

theorem insert (h : a.Linking []) (r : Record) : (a.insert r).2.Linking [] := by
  rcases insert_cases a r with ⟨_, heq, _⟩ | ⟨hnew, height, hlink, heq⟩ | ⟨hnew, hlink, heq⟩
  · rw [heq]
    exact h
  · rw [heq]
    exact (h.added hnew hlink).linkStack []
  · rw [heq]
    exact h.parked hnew hlink

end Linking

theorem records_insert (h : a.Linking []) (r : Record) :
    (a.insert r).2.records =
      if r.hash ∈ a.records.map Record.hash then a.records else a.records ++ [r] := by
  rcases insert_cases a r with ⟨hmem, heq, _⟩ | ⟨hnew, height, hlink, heq⟩ | ⟨hnew, hlink, heq⟩
  · rw [heq, if_pos hmem]
  · rw [heq, if_neg hnew, records_linkStack [] (h.added hnew hlink), records_added]
  · rw [heq, if_neg hnew, records_parked]

/-! ## Records in order -/

/-- Inserts records in order. -/
def insertAll (a : Assembler) (rs : List Record) : Assembler :=
  rs.foldl (fun a r => (a.insert r).2) a

theorem insertAll_cons (a : Assembler) (r : Record) (rs : List Record) :
    a.insertAll (r :: rs) = (a.insert r).2.insertAll rs := rfl

theorem insertAll_append (a : Assembler) (rs ss : List Record) :
    a.insertAll (rs ++ ss) = (a.insertAll rs).insertAll ss := List.foldl_append

theorem Linking.insertAll (h : a.Linking []) (rs : List Record) : (a.insertAll rs).Linking [] := by
  induction rs generalizing a with
  | nil => exact h
  | cons r rest ih => exact ih (h.insert r)

/-- What goes on to hold when a record is put in, when it waits, and when one links. -/
structure Kept (P : Assembler → Prop) : Prop where
  added : ∀ {a : Assembler} (r : Record), P a → P (a.added r)
  parked : ∀ {a : Assembler} (r : Record), P (a.added r) → P (a.parked r)
  popped : ∀ {a : Assembler} {id : NodeId} {n : Node} {height : Nat}
    {others : List (NodeId × Nat)}, P a → a.Linking ((id, height) :: others) →
    a.nodes[id]? = some n → n.height = none → a.linkHeight? n.record = some height →
    P (a.popped id n height)

theorem Kept.insert {P : Assembler → Prop} (h : Kept P) (hl : a.Linking []) (r : Record)
    (ha : P a) : P (a.insert r).2 := by
  rcases insert_cases a r with ⟨_, heq, _⟩ | ⟨hnew, height, hlink, heq⟩ | ⟨hnew, hlink, heq⟩
  · rw [heq]
    exact ha
  · rw [heq]
    exact linkStack_keeps h.popped [] (hl.added hnew hlink) (h.added r ha)
  · rw [heq]
    exact h.parked r (h.added r ha)

theorem Kept.insertAll {P : Assembler → Prop} (h : Kept P) (hl : a.Linking []) (rs : List Record)
    (ha : P a) : P (a.insertAll rs) := by
  induction rs generalizing a with
  | nil => exact ha
  | cons r rest ih => exact ih (hl.insert r) (h.insert hl r ha)

/-- The first copies among records whose hashes are not known yet. -/
def newRecords (known : List Hash) : List Record → List Record
  | [] => []
  | r :: rest =>
    if r.hash ∈ known then newRecords known rest else r :: newRecords (r.hash :: known) rest

theorem newRecords_cons (known : List Hash) (r : Record) (rest : List Record) :
    newRecords known (r :: rest) =
      if r.hash ∈ known then newRecords known rest
      else r :: newRecords (r.hash :: known) rest := rfl

theorem newRecords_congr {known others : List Hash} (h : ∀ x, x ∈ known ↔ x ∈ others)
    (rs : List Record) : newRecords known rs = newRecords others rs := by
  induction rs generalizing known others with
  | nil => rfl
  | cons r rest ih =>
    rw [newRecords_cons, newRecords_cons]
    by_cases hr : r.hash ∈ known
    · rw [if_pos hr, if_pos ((h _).1 hr)]
      exact ih h
    · rw [if_neg hr, if_neg (fun hn => hr ((h _).2 hn))]
      congr 1
      apply ih
      intro x
      rw [List.mem_cons, List.mem_cons, h]

theorem mem_newRecords {known : List Hash} {rs : List Record} (hr : r ∈ newRecords known rs) :
    r.hash ∉ known ∧ ∃ before after, rs = before ++ r :: after ∧
      r.hash ∉ before.map Record.hash := by
  induction rs generalizing known with
  | nil => simp [newRecords] at hr
  | cons s rest ih =>
    rw [newRecords_cons] at hr
    split at hr
    · next hs =>
      obtain ⟨hnew, before, after, rfl, hfirst⟩ := ih hr
      refine ⟨hnew, s :: before, after, rfl, ?_⟩
      rw [List.map_cons, List.mem_cons, not_or]
      exact ⟨fun heq => hnew (heq ▸ hs), hfirst⟩
    · next hs =>
      rcases List.mem_cons.1 hr with rfl | hr
      · exact ⟨hs, [], rest, rfl, by simp⟩
      · obtain ⟨hnew, before, after, rfl, hfirst⟩ := ih hr
        rw [List.mem_cons, not_or] at hnew
        refine ⟨hnew.2, s :: before, after, rfl, ?_⟩
        rw [List.map_cons, List.mem_cons, not_or]
        exact ⟨hnew.1, hfirst⟩

theorem mem_hashes_newRecords {known : List Hash} {rs : List Record} :
    (x ∈ known ∨ x ∈ (newRecords known rs).map Record.hash) ↔
      (x ∈ known ∨ x ∈ rs.map Record.hash) := by
  induction rs generalizing known with
  | nil => rfl
  | cons s rest ih =>
    have hcons := @ih (s.hash :: known)
    have hsame := @ih known
    rw [newRecords_cons, List.map_cons, List.mem_cons]
    split
    · next hs =>
      rw [hsame]
      constructor
      · rintro (h | h)
        · exact Or.inl h
        · exact Or.inr (Or.inr h)
      · rintro (h | rfl | h)
        · exact Or.inl h
        · exact Or.inl hs
        · exact Or.inr h
    · rw [List.map_cons, List.mem_cons]
      rw [List.mem_cons, or_assoc, or_assoc] at hcons
      rw [or_left_comm, hcons, or_left_comm]

/-- Records of new hashes that differ are all first copies. -/
theorem newRecords_of_fresh {known : List Hash} {rs : List Record}
    (hnodup : (rs.map Record.hash).Nodup) (hfresh : ∀ r ∈ rs, r.hash ∉ known) :
    newRecords known rs = rs := by
  induction rs generalizing known with
  | nil => rfl
  | cons s rest ih =>
    rw [List.map_cons, List.nodup_cons] at hnodup
    rw [newRecords_cons, if_neg (hfresh s List.mem_cons_self), ih hnodup.2]
    intro r hr hmem
    rcases List.mem_cons.1 hmem with heq | hmem
    · exact hnodup.1 (heq ▸ List.mem_map_of_mem hr)
    · exact hfresh r (List.mem_cons_of_mem _ hr) hmem

/-- What is held in the end is what was held and the first copies of what was not. -/
theorem records_insertAll (h : a.Linking []) (rs : List Record) :
    (a.insertAll rs).records = a.records ++ newRecords (a.records.map Record.hash) rs := by
  induction rs generalizing a with
  | nil => rw [newRecords, List.append_nil]; rfl
  | cons r rest ih =>
    rw [insertAll_cons, ih (h.insert r), records_insert h r, newRecords_cons]
    by_cases hr : r.hash ∈ a.records.map Record.hash
    · rw [if_pos hr, if_pos hr]
    · rw [if_neg hr, if_neg hr, List.append_assoc, List.singleton_append]
      congr 2
      apply newRecords_congr
      intro x
      rw [List.map_append, List.mem_append, List.map_singleton, List.mem_singleton, List.mem_cons,
        or_comm]

theorem mem_hashes_insertAll (h : a.Linking []) (rs : List Record) :
    x ∈ (a.insertAll rs).records.map Record.hash ↔
      x ∈ a.records.map Record.hash ∨ x ∈ rs.map Record.hash := by
  rw [records_insertAll h, List.map_append, List.mem_append, mem_hashes_newRecords]

/-! ## What is linked -/

/-- A linked block has an ancestry among the records, of the length that its height says. -/
theorem Linking.rooted {stack : List (NodeId × Nat)} (h : a.Linking stack) {k : Nat}
    (hx : a.heightOf? x = some k) : ∃ chain, Rooted a.records x chain ∧ chain.length = k + 1 := by
  induction k generalizing x with
  | zero =>
    obtain ⟨id, n, hid, rfl, hk⟩ := (heightOf?_eq_some_iff h.distinct).1 hx
    have hlink := h.linked id n 0 hid hk
    have hmem : n.record ∈ a.records := mem_records_iff.2 ⟨id, n, hid, rfl⟩
    unfold linkHeight? at hlink
    split at hlink
    · next hg => exact ⟨_, Rooted.first hmem hg, rfl⟩
    · simp at hlink
  | succ k ih =>
    obtain ⟨id, n, hid, rfl, hk⟩ := (heightOf?_eq_some_iff h.distinct).1 hx
    have hlink := h.linked id n (k + 1) hid hk
    have hmem : n.record ∈ a.records := mem_records_iff.2 ⟨id, n, hid, rfl⟩
    unfold linkHeight? at hlink
    split at hlink
    · simp at hlink
    · next hg =>
      rw [Option.map_eq_some_iff] at hlink
      obtain ⟨j, hparent, hj⟩ := hlink
      have hjk : j = k := by omega
      subst hjk
      obtain ⟨chain, hchain, hlen⟩ := ih hparent
      exact ⟨_, Rooted.next hmem (by simpa using hg) hchain, by simp [hlen]⟩

/-- Between insertions nothing that could link is left waiting. -/
theorem Linking.heightOf?_of_link (h : a.Linking []) (hr : r ∈ a.records)
    (hlink : a.linkHeight? r = some height) : a.heightOf? r.hash = some height := by
  obtain ⟨id, n, hid, rfl⟩ := mem_records_iff.1 hr
  refine (heightOf?_eq_some_iff h.distinct).2 ⟨id, n, hid, rfl, ?_⟩
  cases hn : n.height with
  | none =>
    have hwaits := (h.unlinked id n hid).1 hn
    rw [List.map_nil, List.nil_append, mem_ids_iff] at hwaits
    obtain ⟨parent, hw⟩ := hwaits
    obtain ⟨m, hm, _, hnone⟩ := h.waits parent id hw
    rw [hid] at hm
    rw [Option.some.inj hm, hnone] at hlink
    simp at hlink
  | some j =>
    have := h.linked id n j hid hn
    rw [hlink] at this
    exact this.symm

/-- Between insertions nothing that has an ancestry is left waiting. -/
theorem Linking.heightOf?_of_rooted (h : a.Linking []) {chain : List Hash}
    (hx : Rooted a.records x chain) : ∃ k, a.heightOf? x = some k ∧ chain.length = k + 1 := by
  induction hx with
  | @first r hr hg =>
    exact ⟨0, h.heightOf?_of_link hr (by rw [linkHeight?, if_pos hg]), rfl⟩
  | @next r chain hr hchild _ ih =>
    obtain ⟨k, hk, hlen⟩ := ih
    refine ⟨k + 1, h.heightOf?_of_link hr ?_, by simp [hlen]⟩
    rw [linkHeight?, hchild, hk]
    rfl

/-- A block is linked just if the records held contain an ancestry of it. -/
theorem heightOf?_iff_rooted (h : a.Linking []) {k : Nat} :
    a.heightOf? x = some k ↔ ∃ chain, Rooted a.records x chain ∧ chain.length = k + 1 := by
  constructor
  · exact h.rooted
  · rintro ⟨chain, hchain, hlen⟩
    obtain ⟨j, hj, hlen'⟩ := h.heightOf?_of_rooted hchain
    have hjk : j = k := by omega
    rw [← hjk]
    exact hj

theorem heightOf?_of_same {b : Assembler} (ha : a.Linking []) (hb : b.Linking [])
    (hsame : ∀ r, r ∈ a.records ↔ r ∈ b.records) : a.heightOf? = b.heightOf? := by
  funext x
  apply Option.ext
  intro k
  rw [heightOf?_iff_rooted ha, heightOf?_iff_rooted hb]
  constructor
  · rintro ⟨chain, hchain, hlen⟩
    exact ⟨chain, hchain.mono fun r hr => (hsame r).1 hr, hlen⟩
  · rintro ⟨chain, hchain, hlen⟩
    exact ⟨chain, hchain.mono fun r hr => (hsame r).2 hr, hlen⟩

theorem heightOf?_insertAll (h : a.Linking []) (rs : List Record) {k : Nat}
    (hx : a.heightOf? x = some k) : (a.insertAll rs).heightOf? x = some k := by
  obtain ⟨chain, hchain, hlen⟩ := h.rooted hx
  refine (heightOf?_iff_rooted (h.insertAll rs)).2 ⟨chain, ?_, hlen⟩
  refine hchain.mono ?_
  intro r hr
  rw [records_insertAll h]
  exact List.mem_append_left _ hr

end Assembler

end BlockIndex
