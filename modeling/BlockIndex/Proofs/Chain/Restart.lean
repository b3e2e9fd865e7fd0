import BlockIndex.Proofs.Chain.Reports
import BlockIndex.Proofs.Chain.Tip

/-!
# Starting again

An assembler that is seeded with the entries of what another one linked and with its best tip, and
then given what the other one left waiting, is the other one but for the order of its records.

* `insertAll_waiting`    records that do not link change neither heights nor the best chain;
* `records_restarted`    the same records are held;
* `Rests.best_seeded`    entries of all linked records and the best tip bring the best chain back;
* `Rests.restarted`      so do they with the records that wait, and no event is raised;
* `branchTo_of_same`, `unresolved_of_same`  branches and waiting records are a matter of the records
                         held.
-/

namespace BlockIndex

namespace Assembler

variable {a b : Assembler} {r : Record} {es : List Entry}

/-! ## Records that wait -/

theorem insert_waiting (es : List Entry) (hd : a.Distinct) (hlink : a.linkHeight? r = none) :
    (a.insert r).2.heightOf? = a.heightOf? ∧ (a.insert r).2.best = a.best ∧
      (a.insert r).2.reorgs = a.reorgs ∧ (a.Listed es → (a.insert r).2.Listed es) := by
  rcases insert_cases a r with ⟨_, heq, _⟩ | ⟨_, height, hsome, _⟩ | ⟨hnew, _, heq⟩
  · rw [heq]
    exact ⟨rfl, rfl, rfl, id⟩
  · rw [hlink] at hsome
    simp at hsome
  · rw [heq]
    exact ⟨(heightOf?_congr rfl).trans (heightOf?_added hd hnew), rfl, rfl,
      fun h => h.added.congr rfl⟩

/-- Records none of which links change neither heights nor the best chain. -/
theorem insertAll_waiting {rs : List Record} (es : List Entry) (hl : a.Linking [])
    (hlink : ∀ r ∈ rs, a.linkHeight? r = none) :
    (a.insertAll rs).heightOf? = a.heightOf? ∧ (a.insertAll rs).best = a.best ∧
      (a.insertAll rs).reorgs = a.reorgs ∧ (a.Listed es → (a.insertAll rs).Listed es) := by
  induction rs generalizing a with
  | nil => exact ⟨rfl, rfl, rfl, id⟩
  | cons r rest ih =>
    obtain ⟨hheights, hbest, hreorgs, hlisted⟩ :=
      insert_waiting es hl.distinct (hlink r List.mem_cons_self)
    obtain ⟨hheights', hbest', hreorgs', hlisted'⟩ := ih (hl.insert r) fun s hs => by
      rw [linkHeight?_congr hheights]
      exact hlink s (List.mem_cons_of_mem r hs)
    exact ⟨hheights'.trans hheights, hbest'.trans hbest, hreorgs'.trans hreorgs,
      fun h => hlisted' (hlisted h)⟩

/-! ## The same records -/

theorem records_restarted (hl : a.Linking []) (hlisted : a.Listed es)
    (hhash : ∀ e ∈ es, e.header.hash = e.hash) (tip : Option Hash) :
    ((Assembler.seeded es tip).insertAll a.unresolved).records
      = es.map Entry.toRecord ++ a.unresolved := by
  rw [records_insertAll (Linking.seeded es tip),
    (Replayed.seeded hlisted.forest hhash tip).records,
    newRecords_of_fresh (nodup_unresolved hl)]
  intro w hw hin
  rw [List.map_map] at hin
  obtain ⟨e, he, hhash⟩ := List.mem_map.1 hin
  have hlinked := (hlisted.heightOf?_iff hl.distinct).2 ⟨e, he, hhash, rfl⟩
  rw [((mem_unresolved_iff hl).1 hw).2] at hlinked
  simp at hlinked

/-! ## The same best chain -/

/-- Entries of all linked records and the best tip bring the best chain back. -/
theorem Rests.best_seeded {es : List Entry} (h : Rests a) (hl : a.Linking [])
    (hlisted : a.Listed es) (hhash : ∀ e ∈ es, e.header.hash = e.hash) :
    (Assembler.seeded es a.best.tip?).best = a.best := by
  have hheld := (replay_forest hlisted.forest hhash).2
  have hl' := Linking.empty.insertAll (es.map Entry.toRecord)
  have hrests := Rests.empty.insertAll Linking.empty (es.map Entry.toRecord)
  have hbest : (Assembler.seeded es a.best.tip?).best
      = ((Assembler.empty.insertAll (es.map Entry.toRecord)).restored a.best.tip?).best := rfl
  rw [hbest]
  generalize Assembler.empty.insertAll (es.map Entry.toRecord) = b at hheld hl' hrests
  cases htip : a.tip with
  | none =>
    obtain ⟨hnil, hnone⟩ := h.bare htip
    -- nothing is linked, so there are no entries
    have hes : es = [] := by
      rw [List.eq_nil_iff_forall_not_mem]
      intro e he
      obtain ⟨id, hid⟩ := (hlisted.mem_iff e).1 he
      obtain ⟨n, k, hn, hk, _⟩ := entryOf?_eq_some_iff.1 hid
      rw [hnone id n hn] at hk
      simp at hk
    have hempty : b.best.hashes = [] := by
      cases htip' : b.tip with
      | none => exact (hrests.bare htip').1
      | some t =>
        obtain ⟨n, _, hn, _⟩ := hrests.held t htip'
        rw [hheld.nodes, hes] at hn
        simp at hn
    have hchain : a.best = ⟨[]⟩ := congrArg BestChain.mk hnil
    rw [hchain]
    show b.best = ⟨[]⟩
    rw [← hempty]
  | some t =>
    obtain ⟨n, k, hn, hk, hrooted, _⟩ := h.held t htip
    have hlast : a.best.tip? = some n.hash := hrooted.getLast?
    have hheight := (heightOf?_eq_some_iff hl.distinct).2 ⟨t, n, hn, rfl, hk⟩
    have hheight' : b.heightOf? n.hash = some k :=
      ((hheld.listed hlisted.forest).heightOf?_iff hl'.distinct).2
        ((hlisted.heightOf?_iff hl.distinct).1 hheight)
    obtain ⟨id, m, hm, hhash', _⟩ := (heightOf?_eq_some_iff hl'.distinct).1 hheight'
    have hid : b.idOf? n.hash = some id :=
      (idOf?_eq_some_iff hl'.distinct).2 ⟨m.record, by rw [getElem?_records, hm]; rfl, hhash'⟩
    rw [← hhash'] at hheight'
    obtain ⟨chain, hforced, hchain, _⟩ := forceTip_eq hl' id hheight'
    rw [hlast]
    unfold Assembler.restored
    dsimp only
    rw [hid]
    dsimp only
    rw [← hhash', hforced]
    -- both are the ancestry of the tip among the records of the first assembler
    refine congrArg BestChain.mk ((hhash' ▸ hrooted).unique hl.distinct.consistent
      (hchain.mono ?_))
    intro r hr
    rw [hheld.records] at hr
    obtain ⟨e, he, rfl⟩ := List.mem_map.1 hr
    exact hlisted.mem_records he

/-- What waits does not link after a replay either. -/
theorem linkHeight?_unresolved (hl : a.Linking []) (hr : r ∈ a.unresolved) :
    a.linkHeight? r = none := by
  obtain ⟨hmem, hnone⟩ := (mem_unresolved_iff hl).1 hr
  cases hlink : a.linkHeight? r with
  | none => rfl
  | some k =>
    rw [hl.heightOf?_of_link hmem hlink] at hnone
    simp at hnone

/-- **Starting again** from the entries of all linked records, the best tip and the records that
wait. -/
theorem Rests.restarted (h : Rests a) (hl : a.Linking []) (hlisted : a.Listed es)
    (hhash : ∀ e ∈ es, e.header.hash = e.hash) :
    let b := (Assembler.seeded es a.best.tip?).insertAll a.unresolved
    b.heightOf? = a.heightOf? ∧ b.best = a.best ∧ b.reorgs = [] ∧ b.Listed es := by
  have hlisted' : (Assembler.seeded es a.best.tip?).Listed es :=
    (Replayed.seeded hlisted.forest hhash _).listed hlisted.forest
  have hl' := Linking.seeded es a.best.tip?
  have hheights : (Assembler.seeded es a.best.tip?).heightOf? = a.heightOf? := by
    funext x
    apply Option.ext
    intro k
    rw [hlisted'.heightOf?_iff hl'.distinct, hlisted.heightOf?_iff hl.distinct]
  obtain ⟨hsame, hbest, hreorgs, hkept⟩ :=
    insertAll_waiting es hl' fun r (hr : r ∈ a.unresolved) => by
      rw [linkHeight?_congr hheights]
      exact linkHeight?_unresolved hl hr
  exact ⟨hsame.trans hheights, hbest.trans (h.best_seeded hl hlisted hhash), hreorgs,
    hkept hlisted'⟩

/-! ## The same reports -/

theorem branchTo_of_same (ha : a.Linking []) (hb : b.Linking [])
    (hsame : ∀ r, r ∈ a.records ↔ r ∈ b.records) : a.branchTo = b.branchTo := by
  have hheights := heightOf?_of_same ha hb hsame
  funext x
  cases hx : a.heightOf? x with
  | none => rw [branchTo_unlinked hx, branchTo_unlinked (hheights ▸ hx)]
  | some k =>
    obtain ⟨chain, hbranch, hchain, _⟩ := branchTo_eq ha hx
    obtain ⟨other, hother, hrooted, _⟩ := branchTo_eq hb (hheights ▸ hx)
    rw [hbranch, hother,
      hrooted.unique hb.distinct.consistent (hchain.mono fun r hr => (hsame r).1 hr)]

/-- Records that wait in two assemblers are reported alike, if no two have one position. -/
theorem unresolved_of_same (ha : a.Linking []) (hb : b.Linking [])
    (hsame : ∀ r, r ∈ a.records ↔ r ∈ b.records)
    (hpos : ∀ r ∈ a.unresolved, ∀ s ∈ a.unresolved, r.position = s.position → r = s) :
    a.unresolved = b.unresolved := by
  have hmem : ∀ r, r ∈ a.unresolved ↔ r ∈ b.unresolved := by
    intro r
    rw [mem_unresolved_iff ha, mem_unresolved_iff hb, hsame, heightOf?_of_same ha hb hsame]
  refine List.Perm.eq_of_pairwise ?_ (unresolved_sorted a) (unresolved_sorted b)
    ((List.perm_ext_iff_of_nodup (nodup_of_hashes (nodup_unresolved ha))
      (nodup_of_hashes (nodup_unresolved hb))).2 hmem)
  intro r s hr hs hle hge
  exact hpos r hr s ((hmem s).2 hs) (Cursor.le_antisymm hle hge)

end Assembler

end BlockIndex
