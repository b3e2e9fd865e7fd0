import BlockIndex.Proofs.Chain.Operations

/-!
# The order of linking

An insertion answers the records that linked with it.  These answers, put one after another, name
every linked record once, and every record after its parent: a store that is given their entries in
this order is given all of them, and can be replayed.

* `Insertion.ids`         the records that an insertion answers;
* `Assembler.Links`       from one assembler to another just some records linked, parents first;
* `Assembler.Reports`     what an insertion answers, and what it leaves alone;
* `Assembler.Shelves`     the records that wait;
* `Assembler.linkedAll`   the answers of all insertions that some operations make.

Main statements: `Links.popped` (one record links), `Links.trans`, `Links.insert`,
`Links.performAll` and `performAll_reports`, which puts them together.
-/

namespace BlockIndex

/-- The records that linked with an insertion. -/
def Insertion.ids : Insertion → List NodeId
  | .linked ids => ids
  | _ => []

theorem Insertion.ids_of_ne {what : Insertion} (h : ∀ ids, what ≠ .linked ids) : what.ids = [] := by
  cases what with
  | linked ids => exact absurd rfl (h ids)
  | pending => rfl
  | rescan => rfl
  | duplicate => rfl

namespace Assembler

open Waiting

/-- The height of a record, once it is linked. -/
def heightAt? (a : Assembler) (id : NodeId) : Option Nat := (a.nodes[id]?).bind Node.height

/-- From `a` to `b` just the records `ids` linked, in this order. -/
structure Links (a b : Assembler) (ids : List NodeId) : Prop where
  /-- The records held keep their numbers. -/
  records : a.records <+: b.records
  nodup : ids.Nodup
  mem_iff : ∀ id, id ∈ ids ↔ a.heightAt? id = none ∧ b.heightAt? id ≠ none
  kept : ∀ id height, a.heightAt? id = some height → b.heightAt? id = some height
  /-- Each comes after its parent, unless the parent was linked before. -/
  ordered : ∀ before id after, ids = before ++ id :: after → ∃ r, b.records[id]? = some r ∧
    (r.isGenesis = true ∨ ∃ (p : NodeId) (s : Record), b.records[p]? = some s ∧
      s.hash = r.parentHash ∧ (p ∈ before ∨ a.heightAt? p ≠ none))

/-- What inserting a record answers: if it linked, the records that linked, the new one in front;
otherwise no record's height has changed. -/
structure Reports (a : Assembler) (r : Record) : Prop where
  linked : ∀ ids, (a.insert r).1 = .linked ids → a.Links (a.insert r).2 ids ∧
    ids.head? = some a.nodes.length ∧ (a.insert r).2.records = a.records ++ [r]
  others : (∀ ids, (a.insert r).1 ≠ .linked ids) → (a.insert r).2.heightAt? = a.heightAt?

/-- Each record that is not linked waits, once and under its parent's hash, and no other does. -/
structure Shelves (a : Assembler) : Prop where
  buckets : (parents a.waiting).Nodup
  once : (Waiting.ids a.waiting).Nodup
  waits_iff : ∀ parent id, Waits a.waiting parent id ↔
    ∃ n, a.nodes[id]? = some n ∧ n.height = none ∧ n.parentHash = parent

/-! ## The answers of operations -/

/-- The records that a replay inserts, up to the one at which it fails. -/
def replayed (a : Assembler) : List Entry → List Record
  | [] => []
  | entry :: rest =>
    if entry.header.hash ≠ entry.hash then []
    else
      let after := (a.insert entry.toRecord).2
      entry.toRecord ::
        if after.heightOf? entry.hash = some entry.height then after.replayed rest else []

/-- The answers to records inserted in order, one after another. -/
def linkedBy (a : Assembler) : List Record → List NodeId
  | [] => []
  | record :: rest => (a.insert record).1.ids ++ (a.insert record).2.linkedBy rest

/-- The records that an operation inserts. -/
def inserted (a : Assembler) : Operation → List Record
  | .insert record => [record]
  | .seed entries _ => a.replayed entries
  | .drainReorgs => []
  | .markPersisted => []

/-- The answers to all records that operations insert. -/
def linkedAll (a : Assembler) : List Operation → List NodeId
  | [] => []
  | op :: rest => a.linkedBy (a.inserted op) ++ (a.perform op).linkedAll rest

variable {a b c : Assembler} {id : NodeId} {n : Node} {height : Nat} {r : Record}
  {ids others : List NodeId}

theorem replay_snd (a : Assembler) (es : List Entry) :
    (a.replay es).2 = a.insertAll (a.replayed es) := by
  induction es generalizing a with
  | nil => rfl
  | cons e rest ih =>
    rw [replay, replayed]
    split
    · rfl
    · dsimp only
      rw [insertAll_cons]
      split
      · exact ih _
      · rfl

/-! ## Heights -/

theorem heightAt?_eq_some_iff :
    a.heightAt? id = some height ↔ ∃ n, a.nodes[id]? = some n ∧ n.height = some height := by
  rw [heightAt?, Option.bind_eq_some_iff]

theorem heightAt?_congr (h : b.nodes = a.nodes) : b.heightAt? = a.heightAt? := by
  funext id
  rw [heightAt?, heightAt?, h]

theorem heightAt?_added (a : Assembler) (r : Record) : (a.added r).heightAt? = a.heightAt? := by
  funext id
  rw [heightAt?, heightAt?, getElem?_added]
  split
  · next heq =>
    rw [heq, List.getElem?_eq_none (Nat.le_refl _)]
    rfl
  · rfl

theorem heightAt?_popped (hid : a.nodes[id]? = some n) (other : NodeId) :
    (a.popped id n height).heightAt? other
      = if other = id then some height else a.heightAt? other := by
  rw [heightAt?, heightAt?, getElem?_popped hid]
  split
  · rfl
  · rfl

/-! ## Links -/

namespace Links

/-- Nothing links where heights stay as they are. -/
theorem of_same (hrecords : a.records <+: b.records) (h : b.heightAt? = a.heightAt?) :
    a.Links b [] where
  records := hrecords
  nodup := List.nodup_nil
  mem_iff := by
    intro id
    rw [h]
    constructor
    · intro hmem
      cases hmem
    · rintro ⟨hnone, hsome⟩
      exact absurd hnone hsome
  kept := fun id height hk => by rw [h, hk]
  ordered := by
    intro before id after hids
    simp at hids

theorem congr (h : a.Links b ids) (hnodes : c.nodes = b.nodes) : a.Links c ids := by
  have hrecords : c.records = b.records := by
    rw [Assembler.records, Assembler.records, hnodes]
  have hheights := heightAt?_congr hnodes
  exact {
    records := by
      rw [hrecords]
      exact h.records
    nodup := h.nodup
    mem_iff := by
      rw [hheights]
      exact h.mem_iff
    kept := by
      rw [hheights]
      exact h.kept
    ordered := by
      rw [hrecords]
      exact h.ordered }

theorem heightAt?_eq (h : a.Links b []) : b.heightAt? = a.heightAt? := by
  funext id
  cases ha : a.heightAt? id with
  | some height => exact h.kept id height ha
  | none =>
    cases hb : b.heightAt? id with
    | none => rfl
    | some height =>
      have hmem := (h.mem_iff id).2 ⟨ha, by rw [hb]; simp⟩
      cases hmem

theorem getElem?_records (h : a.Links b ids) (hr : a.records[id]? = some r) :
    b.records[id]? = some r := by
  obtain ⟨more, hmore⟩ := h.records
  rw [← hmore, List.getElem?_append_left (List.getElem?_eq_some_iff.1 hr).1]
  exact hr

theorem heightAt?_ne_none (h : a.Links b ids) (ha : a.heightAt? id ≠ none) :
    b.heightAt? id ≠ none := by
  obtain ⟨height, hk⟩ := Option.ne_none_iff_exists'.1 ha
  rw [h.kept id height hk]
  simp

/-- A parent that was linked before the later ones is one of the earlier, or was linked before
these. -/
theorem parent_cases (h : a.Links b ids) (h' : b.Links c others) {rest after : List NodeId}
    (hothers : others = rest ++ id :: after) : ∃ r, c.records[id]? = some r ∧
      (r.isGenesis = true ∨ ∃ p s, c.records[p]? = some s ∧ s.hash = r.parentHash ∧
        (p ∈ ids ++ rest ∨ a.heightAt? p ≠ none)) := by
  obtain ⟨r, hr, hparent⟩ := h'.ordered rest id after hothers
  refine ⟨r, hr, hparent.imp_right ?_⟩
  rintro ⟨p, s, hs, hhash, hp⟩
  refine ⟨p, s, hs, hhash, ?_⟩
  rcases hp with hp | hp
  · exact Or.inl (List.mem_append_right _ hp)
  · by_cases ha : a.heightAt? p = none
    · exact Or.inl (List.mem_append_left _ ((h.mem_iff p).2 ⟨ha, hp⟩))
    · exact Or.inr ha

theorem trans (h : a.Links b ids) (h' : b.Links c others) : a.Links c (ids ++ others) where
  records := h.records.trans h'.records
  nodup := by
    rw [List.nodup_append]
    refine ⟨h.nodup, h'.nodup, ?_⟩
    rintro x hx y hy rfl
    exact ((h.mem_iff x).1 hx).2 ((h'.mem_iff x).1 hy).1
  mem_iff := by
    intro id
    rw [List.mem_append, h.mem_iff, h'.mem_iff]
    constructor
    · rintro (⟨ha, hb⟩ | ⟨hb, hc⟩)
      · exact ⟨ha, h'.heightAt?_ne_none hb⟩
      · exact ⟨Classical.not_not.1 fun ha => h.heightAt?_ne_none ha hb, hc⟩
    · rintro ⟨ha, hc⟩
      by_cases hb : b.heightAt? id = none
      · exact Or.inr ⟨hb, hc⟩
      · exact Or.inl ⟨ha, hb⟩
  kept := fun id height hk => h'.kept id height (h.kept id height hk)
  ordered := by
    intro before id after hids
    rcases List.append_eq_append_iff.1 hids with ⟨rest, rfl, hrest⟩ | ⟨rest, hfirst, hrest⟩
    · exact h.parent_cases h' hrest
    · cases rest with
      | nil =>
        rw [List.append_nil] at hfirst
        have hothers : others = [] ++ id :: after := hrest.symm
        have hlater := h.parent_cases h' hothers
        rw [List.append_nil, hfirst] at hlater
        exact hlater
      | cons x rest =>
        rw [List.cons_append, List.cons.injEq] at hrest
        obtain ⟨rfl, -⟩ := hrest
        obtain ⟨r, hr, hparent⟩ := h.ordered before id rest hfirst
        refine ⟨r, h'.getElem?_records hr, hparent.imp_right ?_⟩
        rintro ⟨p, s, hs, hhash, hp⟩
        exact ⟨p, s, h'.getElem?_records hs, hhash, hp⟩

/-! ## Linking a stack -/

/-- The record on top of the stack links, and no other; its parent was linked before. -/
theorem popped {stack : List (NodeId × Nat)} (hl : a.Linking ((id, height) :: stack))
    (hid : a.nodes[id]? = some n) (hn : n.height = none)
    (hdue : a.linkHeight? n.record = some height) : a.Links (a.popped id n height) [id] := by
  have hrecords : (a.popped id n height).records = a.records := records_popped hid
  have hnone : a.heightAt? id = none := by
    rw [heightAt?, hid]
    exact hn
  exact {
    records := ⟨[], by rw [List.append_nil, hrecords]⟩
    nodup := by simp
    mem_iff := by
      intro other
      rw [List.mem_singleton, heightAt?_popped hid]
      by_cases hother : other = id
      · rw [if_pos hother, hother]
        simp [hnone]
      · rw [if_neg hother]
        refine ⟨fun heq => absurd heq hother, ?_⟩
        rintro ⟨ha, hb⟩
        exact absurd ha hb
    kept := by
      intro other k hk
      have hother : other ≠ id := by
        rintro rfl
        rw [hnone] at hk
        cases hk
      rw [heightAt?_popped hid, if_neg hother, hk]
    ordered := by
      intro before other after hids
      have hother : other = id := by
        apply List.mem_singleton.1
        rw [hids]
        simp
      refine ⟨n.record, by rw [hrecords, Assembler.getElem?_records, hother, hid]; rfl, ?_⟩
      unfold linkHeight? at hdue
      split at hdue
      · next hg => exact Or.inl hg
      · obtain ⟨k, hk, -⟩ := Option.map_eq_some_iff.1 hdue
        obtain ⟨p, m, hp, hhash, hm⟩ := (heightOf?_eq_some_iff hl.distinct).1 hk
        refine Or.inr ⟨p, m.record, by rw [hrecords, Assembler.getElem?_records, hp]; rfl, hhash,
          Or.inr ?_⟩
        rw [heightAt?_eq_some_iff.2 ⟨m, hp, hm⟩]
        simp }

/-- What is answered to a stack are the records that link. -/
theorem linkStack {stack : List (NodeId × Nat)} (linked : List NodeId) (hl : a.Linking stack) :
    ∃ ids, (a.linkStack stack linked).1 = linked.reverse ++ ids ∧
      a.Links (a.linkStack stack linked).2 ids ∧ ids.head? = stack.head?.map Prod.fst := by
  refine linkStack_induction
    (motive := fun a stack linked => ∃ ids,
      (a.linkStack stack linked).1 = linked.reverse ++ ids ∧
        a.Links (a.linkStack stack linked).2 ids ∧ ids.head? = stack.head?.map Prod.fst)
    ?_ ?_ a stack linked hl
  · intro a linked _
    rw [linkStack_nil]
    exact ⟨[], by simp, of_same (List.prefix_refl _) rfl, rfl⟩
  · intro a id n height others linked hl hid hn hdue ih
    obtain ⟨ids, hids, hlinks, -⟩ := ih
    rw [linkStack_cons hid]
    refine ⟨id :: ids, by rw [hids]; simp, ?_, rfl⟩
    exact (popped hl hid hn hdue).trans hlinks

/-! ## Insertions -/

theorem insert (hl : a.Linking []) (r : Record) :
    a.Links (a.insert r).2 (a.insert r).1.ids := by
  have hadded : a.records <+: (a.added r).records := by
    rw [records_added]
    exact List.prefix_append _ _
  rcases insert_cases a r with ⟨_, heq, hne⟩ | ⟨hnew, height, hlink, heq⟩ | ⟨hnew, hlink, heq⟩
  · rw [heq, Insertion.ids_of_ne hne]
    exact of_same (List.prefix_refl _) rfl
  · obtain ⟨ids, hids, hlinks, -⟩ := linkStack [] (hl.added hnew hlink)
    rw [heq]
    show a.Links _ ((a.added r).linkStack [(a.nodes.length, height)] []).1
    rw [hids]
    exact (of_same hadded (heightAt?_added a r)).trans hlinks
  · rw [heq]
    exact (of_same hadded (heightAt?_added a r)).congr rfl

theorem insertAll (hl : a.Linking []) (rs : List Record) :
    a.Links (a.insertAll rs) (a.linkedBy rs) := by
  induction rs generalizing a with
  | nil => exact of_same (List.prefix_refl _) rfl
  | cons r rest ih => exact (insert hl r).trans (ih (hl.insert r))

theorem perform (hl : a.Linking []) (op : Operation) :
    a.Links (a.perform op) (a.linkedBy (a.inserted op)) := by
  have hinserted := insertAll hl (a.inserted op)
  cases op with
  | insert r => exact hinserted
  | seed es tip =>
    -- restoring the tip and settling what is persisted leave the records alone
    have hnodes : (a.seed es tip).2.nodes = (a.insertAll (a.replayed es)).nodes := by
      rw [← replay_snd]
      rcases seed_eq a es tip with ⟨e, heq⟩ | heq
      · rw [heq]
      · rw [heq]
        exact nodes_restored _ tip
    exact hinserted.congr hnodes
  | drainReorgs => exact hinserted.congr rfl
  | markPersisted => exact hinserted.congr rfl

theorem performAll (hl : a.Linking []) (ops : List Operation) :
    a.Links (a.performAll ops) (a.linkedAll ops) := by
  induction ops generalizing a with
  | nil => exact of_same (List.prefix_refl _) rfl
  | cons op rest ih => exact (perform hl op).trans (ih (hl.perform op))

end Links

theorem Linking.reports (hl : a.Linking []) (r : Record) : a.Reports r where
  linked := by
    intro ids hids
    have hlinks := Links.insert hl r
    rw [hids] at hlinks
    refine ⟨hlinks, ?_⟩
    rcases insert_cases a r with ⟨_, _, hne⟩ | ⟨hnew, height, hlink, heq⟩ | ⟨_, _, heq⟩
    · exact absurd hids (hne ids)
    · obtain ⟨found, hfound, -, hhead⟩ := Links.linkStack [] (hl.added hnew hlink)
      rw [heq, hfound] at hids
      obtain rfl : found = ids := Insertion.linked.inj hids
      refine ⟨hhead, ?_⟩
      rw [records_insert hl, if_neg hnew]
    · rw [heq] at hids
      cases hids
  others := by
    intro hne
    have hlinks := Links.insert hl r
    rw [Insertion.ids_of_ne hne] at hlinks
    exact hlinks.heightAt?_eq

theorem Linking.shelves (hl : a.Linking []) : a.Shelves where
  buckets := hl.parents
  once := hl.once
  waits_iff := by
    intro parent id
    constructor
    · intro hw
      obtain ⟨n, hn, hparent, -⟩ := hl.waits parent id hw
      exact ⟨n, hn, (hl.unlinked id n hn).2 (mem_ids_iff.2 ⟨parent, hw⟩), hparent⟩
    · rintro ⟨n, hn, hnone, rfl⟩
      obtain ⟨parent, hw⟩ := mem_ids_iff.1 ((hl.unlinked id n hn).1 hnone)
      obtain ⟨m, hm, hparent, -⟩ := hl.waits parent id hw
      rw [hn] at hm
      obtain rfl := Option.some.inj hm
      rw [hparent]
      exact hw

/-- **Every record is answered once, after its parent.**  Whatever was done to an assembler, an
insertion answers just the records that link with it; all answers one after another name the linked
records, each of them once; and the others wait. -/
theorem performAll_reports (ops : List Operation) :
    let a := Assembler.empty.performAll ops
    (∀ r, a.Reports r) ∧ Assembler.empty.Links a (Assembler.empty.linkedAll ops) ∧ a.Shelves := by
  have hl := Linking.empty.performAll ops
  exact ⟨hl.reports, Links.performAll Linking.empty ops, hl.shelves⟩

/-- A block that waits is answered after its parent, which comes later. -/
example : Assembler.empty.linkedAll
    [.insert ⟨Hash.repeated 2, Header.on (Hash.repeated 1) 0, 80, 0, 0⟩,
      .insert ⟨Hash.repeated 1, Header.on Hash.zero 0, 80, 0, 88⟩] = [1, 0] := by
  decide +kernel

end Assembler

end BlockIndex
