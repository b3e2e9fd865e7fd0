import BlockIndex.Proofs.Chain.Reports
import BlockIndex.Proofs.Chain.Tip

/-!
# The order of arrival

What is linked, and at which height, is a matter of the first copies alone, not of the order in which
they came.  The order decides only which of several highest blocks is the tip.

* `Tipped.tipHeight?_eq_some_iff`  the tip stands at the greatest height;
* `linking_exact`                what an assembler links of the records inserted into it, in whatever
                                 order they come.
-/

namespace BlockIndex

/-- The hash of one byte repeated. -/
def Hash.repeated (byte : UInt8) : Hash := ⟨List.replicate 32 byte, List.length_replicate⟩

namespace Assembler

variable {a b : Assembler} {first : Option NodeId} {x : Hash} {rs ss : List Record}

/-! ## First copies -/

theorem records_insertAll_empty (rs : List Record) :
    (Assembler.empty.insertAll rs).records = newRecords [] rs :=
  records_insertAll Linking.empty rs

theorem nodup_newRecords (rs : List Record) : ((newRecords [] rs).map Record.hash).Nodup := by
  rw [← records_insertAll_empty, ← hashes_eq]
  exact (Linking.empty.insertAll rs).distinct

theorem rooted_perm (h : rs.Perm ss) {chain : List Hash} :
    Rooted rs x chain ↔ Rooted ss x chain :=
  ⟨fun hr => hr.mono fun _ hmem => h.mem_iff.1 hmem, fun hr => hr.mono fun _ hmem => h.mem_iff.2 hmem⟩

/-! ## The tip -/

theorem Tipped.tipHeight?_eq_some_iff (h : Tipped first a) (hd : a.Distinct) {k : Nat} :
    a.tipHeight? = some k ↔
      ∃ x, a.heightOf? x = some k ∧ ∀ y j, a.heightOf? y = some j → j ≤ k := by
  rcases h.spec hd with ⟨hbest, hnone⟩ | ⟨_, n, _, _, ⟨i, hi, hmax⟩, hrooted, hlast, _⟩
  · have hbare : a.tipHeight? = none := by
      rw [tipHeight?, BestChain.tipHeight?, BestChain.length, hbest]
      rfl
    rw [hbare]
    simp [hnone]
  · have htip : a.tipHeight? = some i := by
      have hpos := hrooted.length_pos
      rw [hi] at hlast
      have hlen : a.best.hashes.length = i + 1 := by
        have := Option.some.inj hlast
        omega
      rw [tipHeight?, BestChain.tipHeight?, BestChain.length, hlen]
    rw [htip]
    constructor
    · intro hik
      rw [← Option.some.inj hik]
      exact ⟨n.hash, hi, hmax⟩
    · rintro ⟨y, hy, hgreatest⟩
      exact congrArg some (Nat.le_antisymm (hgreatest _ _ hi) (hmax _ _ hy))

theorem Tipped.tipHeight?_congr {other : Option NodeId} (ha : Tipped first a) (hb : Tipped other b)
    (hda : a.Distinct) (hdb : b.Distinct) (h : a.heightOf? = b.heightOf?) :
    a.tipHeight? = b.tipHeight? := by
  apply Option.ext
  intro k
  rw [ha.tipHeight?_eq_some_iff hda, hb.tipHeight?_eq_some_iff hdb, h]

/-! ## In any order -/

/-- A block is linked just if the first copies hold an ancestry of it. -/
theorem heightOf?_insertAll_empty {k : Nat} :
    (Assembler.empty.insertAll rs).heightOf? x = some k ↔
      ∃ chain, Rooted (newRecords [] rs) x chain ∧ chain.length = k + 1 := by
  rw [heightOf?_iff_rooted (Linking.empty.insertAll rs), records_insertAll_empty]

theorem insertAll_perm (h : rs.Perm ss) (hnodup : (rs.map Record.hash).Nodup) :
    (Assembler.empty.insertAll rs).heightOf? = (Assembler.empty.insertAll ss).heightOf? ∧
      (Assembler.empty.insertAll rs).unresolved.Perm (Assembler.empty.insertAll ss).unresolved ∧
      (Assembler.empty.insertAll rs).tipHeight? = (Assembler.empty.insertAll ss).tipHeight? := by
  have hnodup' : (ss.map Record.hash).Nodup := (h.map Record.hash).nodup_iff.1 hnodup
  have hfirst : newRecords [] rs = rs := newRecords_of_fresh hnodup (by simp)
  have hfirst' : newRecords [] ss = ss := newRecords_of_fresh hnodup' (by simp)
  have hl := Linking.empty.insertAll rs
  have hl' := Linking.empty.insertAll ss
  have hheights :
      (Assembler.empty.insertAll rs).heightOf? = (Assembler.empty.insertAll ss).heightOf? := by
    funext x
    apply Option.ext
    intro k
    rw [heightOf?_insertAll_empty, heightOf?_insertAll_empty, hfirst, hfirst']
    simp only [rooted_perm h]
  refine ⟨hheights, ?_, ?_⟩
  · refine (unresolved_perm hl).trans (List.Perm.trans ?_ (unresolved_perm hl').symm)
    rw [records_insertAll_empty, records_insertAll_empty, hfirst, hfirst', hheights]
    exact h.filter _
  · exact (Tipped.empty.insertAll Linking.empty rs).tipHeight?_congr
      (Tipped.empty.insertAll Linking.empty ss) hl.distinct hl'.distinct hheights

/-- **What records link.**  Inserted into a new assembler, in whatever order and however often they
come, records are held once, as their first copies.  A block is linked at a height just if the first
copies hold an ancestry of that height, and all others of them are reported as waiting, each once.
So records of different hashes give the same heights, the same waiting records and the same height of
the tip in any order. -/
theorem linking_exact (rs : List Record) :
    ((newRecords [] rs).map Record.hash).Nodup ∧
    (∀ x k, (Assembler.empty.insertAll rs).heightOf? x = some k ↔
      ∃ chain, Rooted (newRecords [] rs) x chain ∧ chain.length = k + 1) ∧
    (Assembler.empty.insertAll rs).unresolved.Perm
      ((newRecords [] rs).filter fun r => (Assembler.empty.insertAll rs).heightOf? r.hash = none) ∧
    ∀ ss, rs.Perm ss → (rs.map Record.hash).Nodup →
      (Assembler.empty.insertAll rs).heightOf? = (Assembler.empty.insertAll ss).heightOf? ∧
      (Assembler.empty.insertAll rs).unresolved.Perm (Assembler.empty.insertAll ss).unresolved ∧
      (Assembler.empty.insertAll rs).tipHeight? = (Assembler.empty.insertAll ss).tipHeight? := by
  refine ⟨nodup_newRecords rs, fun x k => heightOf?_insertAll_empty, ?_, ?_⟩
  · have h := unresolved_perm (Linking.empty.insertAll rs)
    rwa [records_insertAll_empty] at h
  · intro ss h hnodup
    exact insertAll_perm h hnodup

/-- A child before its parent, a block that names itself as its parent, and the first block. -/
def scattered : List Record :=
  [⟨Hash.repeated 2, Header.on (Hash.repeated 1) 0, 80, 0, 0⟩,
    ⟨Hash.repeated 3, Header.on (Hash.repeated 3) 0, 80, 0, 88⟩,
    ⟨Hash.repeated 1, Header.on Hash.zero 0, 80, 0, 176⟩]

/-- The same is linked from the last record to the first. -/
theorem linked_in_reverse :
    scattered.Perm scattered.reverse ∧ (scattered.map Record.hash).Nodup ∧
      (Assembler.empty.insertAll scattered).heightOf?
        = (Assembler.empty.insertAll scattered.reverse).heightOf? := by
  have hperm := (List.reverse_perm scattered).symm
  have hnodup : (scattered.map Record.hash).Nodup := by decide
  exact ⟨hperm, hnodup, ((linking_exact scattered).2.2.2 scattered.reverse hperm hnodup).1⟩

end Assembler

end BlockIndex
