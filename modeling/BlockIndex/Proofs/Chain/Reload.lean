import BlockIndex.Proofs.Chain.Among
import BlockIndex.Proofs.Chain.Restart

/-!
# Reloading an assembler

What a run stores of its assembler is what the next one starts from: the entries of the linked
records in the order in which they linked, the best tip, and the waiting records by position.
`reloaded` is an assembler made from these alone.  It holds the same records, but numbers them anew,
and the number of a record decides ties.

* `same_records_reloaded`   the same records are held, whatever is inserted afterwards;
* `best_eq_iff`             the best chains agree just if the tips do;
* `reloaded_agrees_iff`     heights always agree, and best chains just if `TieKept` holds.

`TieKept` says when the new numbers decide as the old ones do.  While the old tip is one of the
highest blocks, no record that waited has become as high and was seen before it: the old assembler
would go over to that record, the reloaded one keeps its tip.  After that, the record seen first
among the highest of those that waited must also be the first by position.
-/

namespace BlockIndex

/-- The entries that some edits store. -/
def appendedEntries (edits : List Edit) : List Entry :=
  edits.filterMap fun edit =>
    match edit with
    | .append entry => some entry
    | _ => none

theorem appendedEntries_map (es : List Entry) : appendedEntries (es.map Edit.append) = es := by
  rw [appendedEntries, List.filterMap_map]
  exact List.filterMap_some

namespace Assembler

/-- The entries of the records that link when `rs` are inserted into a new assembler, in the order
in which they link. -/
def linkOrder (rs : List Record) : List Entry := appendedEntries (Assembler.empty.absorbAll rs).1

/-- An assembler seeded with what another one linked, and given what it left waiting; first whether
it could be seeded. -/
def reloaded (rs : List Record) : Except Error Unit × Assembler :=
  let old := Assembler.empty.insertAll rs
  let seeding := Assembler.empty.seed (linkOrder rs) old.best.tip?
  (seeding.1, seeding.2.insertAll old.unresolved)

/-- The block of one hash was seen before that of another. -/
def SeenBefore (a : Assembler) (x y : Hash) : Prop :=
  ∃ i j, a.idOf? x = some i ∧ a.idOf? y = some j ∧ i < j

/-- Once `fs` are inserted, the highest blocks are told apart as before the reload. -/
structure TieKept (old : Assembler) (fs : List Record) : Prop where
  /-- While the old tip is one of the highest blocks, none that waited has overtaken it. -/
  kept : ∀ x, old.best.tip? = some x → (old.insertAll fs).Contends x →
    ∀ w ∈ old.unresolved, (old.insertAll fs).Contends w.hash → ¬ old.SeenBefore w.hash x
  /-- Afterwards the first seen of those that waited is the first by position. -/
  passed : (∀ x, old.best.tip? = some x → ¬ (old.insertAll fs).Contends x) →
    ∀ v ∈ old.unresolved, (old.insertAll fs).Contends v.hash →
      (∀ u ∈ old.unresolved, (old.insertAll fs).Contends u.hash → ¬ old.SeenBefore u.hash v.hash) →
      ∀ w ∈ old.unresolved, (old.insertAll fs).Contends w.hash → v.position ≤ w.position

variable {a b : Assembler} {r s : Record} {x : Hash} {rs : List Record}

/-! ## What is stored -/

theorem listed_linkOrder (rs : List Record) :
    (Assembler.empty.insertAll rs).Listed (linkOrder rs) := by
  obtain ⟨new, hedits, hlisted⟩ := Listed.empty.absorbAll Linking.empty rs
  rw [linkOrder, hedits, appendedEntries_map]
  exact hlisted

theorem linking_insertAll (rs : List Record) : (Assembler.empty.insertAll rs).Linking [] :=
  Linking.empty.insertAll rs

theorem mem_insertAll_empty (hr : r ∈ (Assembler.empty.insertAll rs).records) : r ∈ rs := by
  rw [records_insertAll Linking.empty] at hr
  rcases List.mem_append.1 hr with hr | hr
  · simp [records, Assembler.empty] at hr
  · obtain ⟨_, before, after, rfl, _⟩ := mem_newRecords hr
    simp

theorem mem_records_iff_stored :
    r ∈ (Assembler.empty.insertAll rs).records ↔
      r ∈ (linkOrder rs).map Entry.toRecord ++ (Assembler.empty.insertAll rs).unresolved :=
  (listed_linkOrder rs).mem_records_iff (linking_insertAll rs)

theorem heightOf?_of_stored (hr : r ∈ (linkOrder rs).map Entry.toRecord) :
    ∃ k, (Assembler.empty.insertAll rs).heightOf? r.hash = some k := by
  obtain ⟨e, he, rfl⟩ := List.mem_map.1 hr
  exact ⟨e.height, ((listed_linkOrder rs).heightOf?_iff (linking_insertAll rs).distinct).2
    ⟨e, he, rfl, rfl⟩⟩

theorem genuine_linkOrder (hhash : ∀ r ∈ rs, r.hash = r.header.hash) :
    ∀ e ∈ linkOrder rs, e.header.hash = e.hash := by
  intro e he
  have hmem : e.toRecord ∈ (linkOrder rs).map Entry.toRecord := List.mem_map_of_mem he
  have hrec := mem_records_iff_stored.2 (List.mem_append_left _ hmem)
  exact (hhash _ (mem_insertAll_empty hrec)).symm

theorem insertAll_empty_eq (rs : List Record) :
    Assembler.empty.insertAll rs = (Assembler.seeded [] none).insertAll rs := rfl

theorem isTip_none (es : List Entry) : IsTip es none := by
  intro x hx
  simp at hx

theorem isTip_linkOrder (rs : List Record) :
    IsTip (linkOrder rs) (Assembler.empty.insertAll rs).best.tip? := by
  intro x hx
  have hcontends : (Assembler.empty.insertAll rs).Contends x := by
    rw [insertAll_empty_eq] at hx ⊢
    exact contends_tip Forest.nil (by simp) (isTip_none []) hx
  exact ((listed_linkOrder rs).contends_iff (linking_insertAll rs).distinct).1 hcontends

/-- What is stored can be seeded, and the reloaded assembler holds it in the order in which it was
stored. -/
theorem reloaded_spec (hhash : ∀ r ∈ rs, r.hash = r.header.hash) :
    (reloaded rs).1 = .ok () ∧
      (reloaded rs).2 = (Assembler.seeded (linkOrder rs)
        (Assembler.empty.insertAll rs).best.tip?).insertAll
          (Assembler.empty.insertAll rs).unresolved ∧
      (reloaded rs).2.records
        = (linkOrder rs).map Entry.toRecord ++ (Assembler.empty.insertAll rs).unresolved := by
  have hlisted := listed_linkOrder rs
  have hl := linking_insertAll rs
  have hmem := genuine_linkOrder hhash
  have hseed := seed_forest hlisted.forest hmem (Assembler.empty.insertAll rs).best.tip?
  have heq : (reloaded rs).2 = (Assembler.seeded (linkOrder rs)
      (Assembler.empty.insertAll rs).best.tip?).insertAll
        (Assembler.empty.insertAll rs).unresolved := by
    rw [reloaded, hseed]
  exact ⟨by rw [reloaded, hseed], heq, heq ▸ records_restarted hl hlisted hmem _⟩

/-! ## The same records -/

theorem same_records_insertAll (ha : a.Linking []) (hb : b.Linking [])
    (hsame : ∀ r, r ∈ a.records ↔ r ∈ b.records) (fs : List Record) :
    newRecords (a.records.map Record.hash) fs = newRecords (b.records.map Record.hash) fs ∧
      ∀ r, r ∈ (a.insertAll fs).records ↔ r ∈ (b.insertAll fs).records := by
  have hhashes : ∀ x, x ∈ a.records.map Record.hash ↔ x ∈ b.records.map Record.hash := by
    intro x
    rw [List.mem_map, List.mem_map]
    simp only [hsame]
  have hnew := newRecords_congr hhashes fs
  refine ⟨hnew, ?_⟩
  intro r
  rw [records_insertAll ha, records_insertAll hb, List.mem_append, List.mem_append, hsame, hnew]

/-! ## The same best chain -/

/-- The best chains of two assemblers with the same records agree just if their tips do. -/
theorem best_eq_iff (hd : b.Distinct) (hsame : ∀ r, r ∈ a.records ↔ r ∈ b.records)
    (hr : a.best.tip? = some r.hash) (hrooted : Rooted a.records r.hash a.best.hashes)
    (hs : b.best.tip? = some s.hash) (hrooted' : Rooted b.records s.hash b.best.hashes) :
    a.best = b.best ↔ r.hash = s.hash := by
  constructor
  · intro h
    rw [h, hs] at hr
    exact (Option.some.inj hr).symm
  · intro h
    rw [h] at hrooted
    have hchains : a.best.hashes = b.best.hashes :=
      hrooted'.unique hd.consistent (hrooted.mono fun r hr => (hsame r).1 hr)
    exact congrArg BestChain.mk hchains

/-- The first record of a kind is the one that no other of the kind was seen before. -/
theorem firstOf_iff_seen (hd : a.Distinct) {p : Record → Prop} :
    FirstOf p a.records r ↔
      r ∈ a.records ∧ p r ∧ ∀ s ∈ a.records, p s → ¬ a.SeenBefore s.hash r.hash := by
  constructor
  · intro h
    refine ⟨h.mem, h.holds, ?_⟩
    intro s hs hp hseen
    obtain ⟨before, after, hsplit, _, hbefore⟩ := h
    obtain ⟨i, j, hi, hj, hlt⟩ := hseen
    obtain ⟨s', hs', hsame⟩ := (idOf?_eq_some_iff hd).1 hi
    obtain ⟨r', hr', hsame'⟩ := (idOf?_eq_some_iff hd).1 hj
    have hplace : a.records[before.length]? = some r := by
      rw [hsplit, List.getElem?_append_right (Nat.le_refl _), Nat.sub_self]
      rfl
    rw [hd.index_eq hr' hplace hsame'] at hlt
    rw [hd.record_eq (List.mem_of_getElem? hs') hs hsame] at hs'
    rw [hsplit, List.getElem?_append_left hlt] at hs'
    exact hbefore s (List.mem_of_getElem? hs') hp
  · intro h
    obtain ⟨hr, hp, hfirst⟩ := h
    obtain ⟨before, after, hsplit⟩ := List.append_of_mem hr
    refine ⟨before, after, hsplit, hp, ?_⟩
    intro s hs hps
    obtain ⟨i, hi⟩ := List.getElem?_of_mem hs
    have hlt := (List.getElem?_eq_some_iff.1 hi).1
    have hsi : a.records[i]? = some s := by
      rw [hsplit, List.getElem?_append_left hlt]
      exact hi
    have hplace : a.records[before.length]? = some r := by
      rw [hsplit, List.getElem?_append_right (Nat.le_refl _), Nat.sub_self]
      rfl
    exact hfirst s (List.mem_of_getElem? hsi) hps ⟨i, before.length,
      (idOf?_eq_some_iff hd).2 ⟨s, hsi, rfl⟩, (idOf?_eq_some_iff hd).2 ⟨r, hplace, rfl⟩, hlt⟩

section Ties

variable {fs : List Record} {p q : Record} {old : Assembler}

/-- A block that was linked is one of the highest only if it was one before. -/
theorem contends_before (hl : old.Linking []) {y : Hash} {k : Nat}
    (hx : (old.insertAll fs).Contends x) (hk : old.heightOf? x = some k)
    (hy : old.Contends y) : old.Contends x ∧ (old.insertAll fs).Contends y := by
  obtain ⟨kx, hkx, hmaxx⟩ := hx
  obtain ⟨ky, hky, hmaxy⟩ := hy
  have hlater := heightOf?_insertAll hl fs hk
  have hlatery := heightOf?_insertAll hl fs hky
  rw [hlater] at hkx
  obtain rfl := Option.some.inj hkx
  have hle := hmaxy x k hk
  have hge := hmaxx y ky hlatery
  have heq : k = ky := Nat.le_antisymm hle hge
  rw [heq] at hk hmaxx
  exact ⟨⟨ky, hk, hmaxy⟩, ky, hlatery, hmaxx⟩

/-- While the old tip is one of the highest blocks, it stays the tip unless a record that waited and
was seen before it is as high. -/
theorem tip_kept_iff (htip : (Assembler.empty.insertAll rs).best.tip? = some x)
    (hx : ((Assembler.empty.insertAll rs).insertAll fs).Contends x)
    (hp : FirstOf (fun s => ((Assembler.empty.insertAll rs).insertAll fs).Contends s.hash)
      ((Assembler.empty.insertAll rs).insertAll fs).records p) :
    p.hash = x ↔ ∀ w ∈ (Assembler.empty.insertAll rs).unresolved,
      ((Assembler.empty.insertAll rs).insertAll fs).Contends w.hash →
        ¬ (Assembler.empty.insertAll rs).SeenBefore w.hash x := by
  have hl := linking_insertAll rs
  rcases tip_seeded Forest.nil (by simp) (isTip_none []) (insertAll_empty_eq rs) with
    ⟨hbare, _⟩ | ⟨r, hr, htr, hrc, _, hfirst⟩
  · rw [BestChain.tip?, hbare] at htip
    simp at htip
  rw [htip] at htr
  obtain rfl := Option.some.inj htr
  have hseen := (hfirst.resolve_left (by simp)).2
  generalize Assembler.empty.insertAll rs = old at *
  have hpo := hp
  rw [records_insertAll hl] at hpo
  have hpo := hpo.left hr hx
  constructor
  · intro heq w hw hwc
    have hwold := ((mem_unresolved_iff hl).1 hw).1
    rw [← heq]
    exact ((firstOf_iff_seen hl.distinct).1 hpo).2.2 w hwold hwc
  · intro hnone
    have hrfirst : FirstOf (fun s => (old.insertAll fs).Contends s.hash) old.records r := by
      refine (firstOf_iff_seen hl.distinct).2 ⟨hr, hx, ?_⟩
      intro w hw hwc
      cases hheight : old.heightOf? w.hash with
      | none => exact hnone w ((mem_unresolved_iff hl).2 ⟨hw, hheight⟩) hwc
      | some k =>
        exact ((firstOf_iff_seen hl.distinct).1 hseen).2.2 w hw
          (contends_before hl hwc hheight hrc).1
    rw [hpo.unique hrfirst]

/-- Nothing that was linked is one of the highest blocks once the old tip is not. -/
theorem not_linked_of_passed
    (hpassed : ∀ x, (Assembler.empty.insertAll rs).best.tip? = some x →
      ¬ ((Assembler.empty.insertAll rs).insertAll fs).Contends x)
    (hx : ((Assembler.empty.insertAll rs).insertAll fs).Contends x) :
    (Assembler.empty.insertAll rs).heightOf? x = none := by
  cases hheight : (Assembler.empty.insertAll rs).heightOf? x with
  | none => rfl
  | some k =>
    exfalso
    rcases tip_seeded Forest.nil (by simp) (isTip_none []) (insertAll_empty_eq rs) with
      ⟨_, hnone⟩ | ⟨r, _, htr, hrc, _⟩
    · rw [hnone] at hheight
      simp at hheight
    · exact hpassed r.hash htr (contends_before (linking_insertAll rs) hx hheight hrc).2

/-- Of those that waited, the first seen and the first by position are the same just if nothing that
waited stands before any that no other was seen before. -/
theorem first_waiting_iff (hpos : (rs.map Record.position).Nodup) {high : Record → Prop}
    (hwaits : ∀ r ∈ (Assembler.empty.insertAll rs).records, high r →
      r ∈ (Assembler.empty.insertAll rs).unresolved)
    (hp : FirstOf high (Assembler.empty.insertAll rs).records p)
    (hq : FirstOf high (Assembler.empty.insertAll rs).unresolved q) :
    p.hash = q.hash ↔ ∀ v ∈ (Assembler.empty.insertAll rs).unresolved, high v →
      (∀ u ∈ (Assembler.empty.insertAll rs).unresolved, high u →
        ¬ (Assembler.empty.insertAll rs).SeenBefore u.hash v.hash) →
      ∀ w ∈ (Assembler.empty.insertAll rs).unresolved, high w → v.position ≤ w.position := by
  have hl := linking_insertAll rs
  have hsorted := unresolved_sorted (Assembler.empty.insertAll rs)
  have hheld : ∀ r ∈ (Assembler.empty.insertAll rs).unresolved,
      r ∈ (Assembler.empty.insertAll rs).records :=
    fun r hr => ((mem_unresolved_iff hl).1 hr).1
  have hgiven : ∀ r ∈ (Assembler.empty.insertAll rs).records, r ∈ rs :=
    fun r hr => mem_insertAll_empty hr
  generalize Assembler.empty.insertAll rs = old at *
  have hleast : ∀ w ∈ old.unresolved, high w → q.position ≤ w.position :=
    fun w hw hwc => hq.le_of_sorted hsorted (Cursor.le_refl _) hw hwc
  constructor
  · intro heq v hv hvc hvfirst
    have hvseen : FirstOf high old.records v := (firstOf_iff_seen hl.distinct).2
      ⟨hheld v hv, hvc, fun w hw hwc => hvfirst w (hwaits w hw hwc) hwc⟩
    rw [hvseen.unique hp, hl.distinct.record_eq hp.mem (hheld q hq.mem) heq]
    exact hleast
  · intro hall
    have hpw := hwaits p hp.mem hp.holds
    have hpfirst := ((firstOf_iff_seen hl.distinct).1 hp).2.2
    have hle := hall p hpw hp.holds (fun u hu huc => hpfirst u (hheld u hu) huc) q hq.mem hq.holds
    have heq := Cursor.le_antisymm hle (hleast p hpw hp.holds)
    rw [eq_of_nodup_map hpos (hgiven p hp.mem) (hgiven q (hheld q hq.mem)) heq]

/-- Once the old tip is passed, the tips agree just if the record seen first among the highest of
those that waited is the first by position. -/
theorem tip_passed_iff (hpos : (rs.map Record.position).Nodup) {new : Assembler}
    (hnew : new.records = (linkOrder rs).map Entry.toRecord ++
      ((Assembler.empty.insertAll rs).unresolved ++
        newRecords ((Assembler.empty.insertAll rs).records.map Record.hash) fs))
    (hpassed : ∀ x, (Assembler.empty.insertAll rs).best.tip? = some x →
      ¬ ((Assembler.empty.insertAll rs).insertAll fs).Contends x)
    (hp : FirstOf (fun s => ((Assembler.empty.insertAll rs).insertAll fs).Contends s.hash)
      ((Assembler.empty.insertAll rs).insertAll fs).records p)
    (hq : FirstOf (fun s => ((Assembler.empty.insertAll rs).insertAll fs).Contends s.hash)
      new.records q) :
    p.hash = q.hash ↔ ∀ v ∈ (Assembler.empty.insertAll rs).unresolved,
      ((Assembler.empty.insertAll rs).insertAll fs).Contends v.hash →
      (∀ u ∈ (Assembler.empty.insertAll rs).unresolved,
        ((Assembler.empty.insertAll rs).insertAll fs).Contends u.hash →
          ¬ (Assembler.empty.insertAll rs).SeenBefore u.hash v.hash) →
      ∀ w ∈ (Assembler.empty.insertAll rs).unresolved,
        ((Assembler.empty.insertAll rs).insertAll fs).Contends w.hash →
          v.position ≤ w.position := by
  have hl := linking_insertAll rs
  have hwaits : ∀ r ∈ (Assembler.empty.insertAll rs).records,
      ((Assembler.empty.insertAll rs).insertAll fs).Contends r.hash →
        r ∈ (Assembler.empty.insertAll rs).unresolved :=
    fun r hr hc => (mem_unresolved_iff hl).2 ⟨hr, not_linked_of_passed hpassed hc⟩
  -- what was stored was linked, so the first of the reloaded assembler is not among it
  rw [hnew] at hq
  have hq := hq.right (by
    intro r hr hc
    obtain ⟨k, hk⟩ := heightOf?_of_stored hr
    rw [not_linked_of_passed hpassed hc] at hk
    simp at hk)
  rw [records_insertAll hl] at hp
  by_cases hany : ∃ u ∈ (Assembler.empty.insertAll rs).unresolved,
      ((Assembler.empty.insertAll rs).insertAll fs).Contends u.hash
  · obtain ⟨u, hu, huc⟩ := hany
    have hheld := ((mem_unresolved_iff hl).1 hu).1
    exact first_waiting_iff hpos hwaits (hp.left hheld huc) (hq.left hu huc)
  · -- nothing that waited is one of the highest: both tips are the first of the new records
    have hnone : ∀ r ∈ (Assembler.empty.insertAll rs).unresolved,
        ¬ ((Assembler.empty.insertAll rs).insertAll fs).Contends r.hash :=
      fun r hr hc => hany ⟨r, hr, hc⟩
    have hsame := (hp.right fun r hr hc => hnone r (hwaits r hr hc) hc).unique (hq.right hnone)
    constructor
    · intro _ v hv hvc
      exact absurd hvc (hnone v hv)
    · intro _
      rw [hsame]

end Ties

/-- **Reloading an assembler.**  What it linked can be seeded.  From then on the reloaded assembler
and the old one, given the same records, link the same blocks at the same heights.  They have the
same best chain just as long as the reload keeps the order that decides ties. -/
theorem reloaded_agrees_iff (rs fs : List Record) (hhash : ∀ r ∈ rs, r.hash = r.header.hash)
    (hpos : (rs.map Record.position).Nodup) :
    (reloaded rs).1 = .ok () ∧
      ((reloaded rs).2.insertAll fs).heightOf?
        = ((Assembler.empty.insertAll rs).insertAll fs).heightOf? ∧
      (((reloaded rs).2.insertAll fs).best = ((Assembler.empty.insertAll rs).insertAll fs).best ↔
        TieKept (Assembler.empty.insertAll rs) fs) := by
  obtain ⟨hok, hreloaded, hnew⟩ := reloaded_spec hhash
  have hl := linking_insertAll rs
  have hln : (reloaded rs).2.Linking [] := by
    rw [hreloaded]
    exact (Linking.seeded _ _).insertAll _
  have hsame : ∀ r, r ∈ (Assembler.empty.insertAll rs).records ↔ r ∈ (reloaded rs).2.records := by
    intro r
    rw [hnew]
    exact mem_records_iff_stored
  obtain ⟨hfresh, hsame'⟩ := same_records_insertAll hl hln hsame fs
  have hheights := heightOf?_of_same (hl.insertAll fs) (hln.insertAll fs) hsame'
  have hcontends : ∀ x, ((reloaded rs).2.insertAll fs).Contends x ↔
      ((Assembler.empty.insertAll rs).insertAll fs).Contends x := by
    intro x
    unfold Contends
    rw [hheights]
  refine ⟨hok, hheights.symm, ?_⟩
  have htip := isTip_linkOrder rs
  have hgenuine := genuine_linkOrder hhash
  have hrecords : ((reloaded rs).2.insertAll fs).records = (linkOrder rs).map Entry.toRecord ++
      ((Assembler.empty.insertAll rs).unresolved ++
        newRecords ((Assembler.empty.insertAll rs).records.map Record.hash) fs) := by
    rw [records_insertAll hln, ← hfresh, hnew, List.append_assoc]
  have htied : (reloaded rs).2.insertAll fs = (Assembler.seeded (linkOrder rs)
      (Assembler.empty.insertAll rs).best.tip?).insertAll
        ((Assembler.empty.insertAll rs).unresolved ++ fs) := by
    rw [hreloaded, insertAll_append]
  rcases tip_seeded Forest.nil (by simp) (isTip_none []) (insertAll_append Assembler.empty rs fs).symm
    with ⟨hbare, hnone⟩ | ⟨p, _, hp, hpc, hrooted, hpfirst⟩
  · -- nothing is linked at all
    have hvoid : ∀ x, ¬ ((Assembler.empty.insertAll rs).insertAll fs).Contends x := by
      intro x hx
      obtain ⟨k, hk, _⟩ := hx
      rw [hnone] at hk
      simp at hk
    rcases tip_seeded (listed_linkOrder rs).forest hgenuine htip htied with
      ⟨hbare', _⟩ | ⟨q, _, _, hqc, _⟩
    · exact ⟨fun _ => ⟨fun x _ hx => absurd hx (hvoid x), fun _ v _ hv => absurd hv (hvoid _)⟩,
        fun _ => congrArg BestChain.mk (hbare'.trans hbare.symm)⟩
    · exact absurd ((hcontends q.hash).1 hqc) (hvoid q.hash)
  have hpfirst := (hpfirst.resolve_left (by simp)).2
  rcases tip_seeded (listed_linkOrder rs).forest hgenuine htip htied with
    ⟨_, hnone⟩ | ⟨q, _, hq, hqc, hrooted', hqfirst⟩
  · obtain ⟨k, hk, _⟩ := (hcontends p.hash).2 hpc
    rw [hnone] at hk
    simp at hk
  simp only [hcontends] at hqfirst
  rw [eq_comm, best_eq_iff (hln.insertAll fs).distinct hsame' hp hrooted hq hrooted']
  rcases hqfirst with hkept | ⟨hpassed, hqfirst⟩
  · -- the old tip is still one of the highest blocks, and the reloaded assembler keeps it
    have hq' := (hcontends q.hash).1 hqc
    rw [tip_kept_iff hkept hq' hpfirst]
    constructor
    · intro hnone
      refine ⟨?_, fun hout => absurd hq' (hout q.hash hkept)⟩
      intro x hx _
      rw [← Option.some.inj (hkept.symm.trans hx)]
      exact hnone
    · intro htk
      exact htk.kept q.hash hkept hq'
  · rw [tip_passed_iff hpos hrecords hpassed hpfirst hqfirst]
    constructor
    · intro hall
      exact ⟨fun x hx hxc => absurd hxc (hpassed x hx), fun _ => hall⟩
    · intro htk
      exact htk.passed hpassed

/-! ### A tie that a reload decides anew -/

/-- A first block, a block that waits for its parent, and two more blocks on the first. -/
def forkedRecords : List Record :=
  let first := Header.on Hash.zero 0
  let parent := Header.on first.hash 1
  let other := Header.on first.hash 2
  [Record.ofHeader first 80 0 0, Record.ofHeader (Header.on parent.hash 3) 80 0 88,
    Record.ofHeader other 80 0 176, Record.ofHeader (Header.on other.hash 4) 80 0 264]

/-- The parent that is waited for. -/
def forkedParent : Record :=
  Record.ofHeader (Header.on (Header.on Hash.zero 0).hash 1) 80 0 352

/-- When the parent comes, the old assembler goes over to the block that waited, which it saw before
its tip; the reloaded one stays. -/
theorem tie_lost_at_fork :
    (∀ r ∈ forkedRecords, r.hash = r.header.hash) ∧ (forkedRecords.map Record.position).Nodup ∧
      ¬ TieKept (Assembler.empty.insertAll forkedRecords) [forkedParent] := by
  have hhash : ∀ r ∈ forkedRecords, r.hash = r.header.hash := by
    intro r hr
    simp only [forkedRecords, List.mem_cons, List.not_mem_nil, or_false] at hr
    rcases hr with rfl | rfl | rfl | rfl <;> rfl
  have hpos : (forkedRecords.map Record.position).Nodup := by
    show [(⟨0, 0⟩ : Cursor), ⟨0, 88⟩, ⟨0, 176⟩, ⟨0, 264⟩].Nodup
    decide
  have hdiffer : ((reloaded forkedRecords).2.insertAll [forkedParent]).best ≠
      ((Assembler.empty.insertAll forkedRecords).insertAll [forkedParent]).best := by
    decide +kernel
  refine ⟨hhash, hpos, ?_⟩
  intro hkept
  exact hdiffer ((reloaded_agrees_iff forkedRecords [forkedParent] hhash hpos).2.2.2 hkept)

end Assembler

end BlockIndex
