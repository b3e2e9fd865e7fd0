import BlockIndex.Proofs.Chain.Among
import BlockIndex.Proofs.Chain.Order
import BlockIndex.Proofs.Run.Planning

/-!
# The tips of runs

The tip that is stored is one of the highest entries, and the run that starts from it has a highest
block as its tip again.

* `Snapshot.Usable.isTip`   what of a snapshot is used keeps its tip among the highest;
* `Follows.isTip_stored`    so does what a run stores;
* `Follows.tipHeight?_of_rooted`, `Follows.exists_rooted`  the tip of a run stands as high as the longest
                            ancestry among what its assembler holds.
-/

namespace BlockIndex

theorem Snapshot.Usable.isTip {d : Directory} {magic : UInt32} {s u : Snapshot} {stale : Option Nat}
    (h : Snapshot.Usable d magic s stale u) (hforest : Forest s.entries)
    (htip : IsTip s.entries s.tip) : IsTip u.entries u.tip := by
  intro x hx
  rw [h.tip, Option.filter_eq_some_iff] at hx
  obtain ⟨f, hf, hhash, hhigh⟩ := htip x hx.1
  refine ⟨f, ?_, hhash, fun g hg => hhigh g (h.mem_entries hg)⟩
  rcases Bool.or_eq_true _ _ ▸ hx.2 with hnone | hany
  · obtain rfl := Option.isNone_iff_eq_none.1 hnone
    rw [h.entries]
    exact List.mem_filter.2 ⟨hf, rfl⟩
  · obtain ⟨g, hg, heq⟩ := List.any_eq_true.1 hany
    rw [← hforest.eq_of_hash (h.mem_entries hg) hf ((of_decide_eq_true heq).trans hhash.symm)]
    exact hg

namespace Follows

variable {config : Config} {d : Directory} {s : Snapshot} {c : Course} {x : Hash}
  {chain : List Hash} {k : Nat}

theorem isTip_stored (h : Follows config d s c) (htip : IsTip c.used.entries c.used.tip) :
    IsTip (c.stored d).entries (c.stored d).tip := by
  intro x hx
  have hlinking := Snapshot.linking_swept c.used c.fed
  have hcontends : c.assembler.Contends x := by
    have hx : c.assembler.best.tip? = some x := hx
    rw [Course.assembler, Snapshot.swept_eq] at hx ⊢
    exact Assembler.contends_tip h.sound.forest h.sound.genuine htip hx
  exact (h.listed_entries.contends_iff hlinking.distinct).1 hcontends

theorem tipped (h : Follows config d s c) (htip : IsTip c.used.entries c.used.tip) :
    ∃ front, Assembler.Tipped front c.assembler := by
  obtain ⟨front, htipped, _⟩ := Assembler.tipped_seeded h.sound.forest h.sound.genuine htip
    (c.used.orphans ++ c.fed)
  rw [← Snapshot.swept_eq] at htipped
  exact ⟨front, htipped⟩

/-- No ancestry leads above the tip. -/
theorem tipHeight?_of_rooted (h : Follows config d s c) (htip : IsTip c.used.entries c.used.tip)
    (hrooted : Rooted c.assembler.records x chain) :
    ∃ tip, c.assembler.tipHeight? = some tip ∧ chain.length ≤ tip + 1 := by
  have hlinking := Snapshot.linking_swept c.used c.fed
  obtain ⟨front, htipped⟩ := h.tipped htip
  obtain ⟨k, hk, hlength⟩ := hlinking.heightOf?_of_rooted hrooted
  rcases htipped.spec hlinking.distinct with ⟨_, hnone⟩ | ⟨_, n, _, _, ⟨j, hj, hmax⟩, _⟩
  · have hheight : c.assembler.heightOf? x = some k := hk
    rw [hnone] at hheight
    cases hheight
  · have hle : k ≤ j := hmax x k hk
    exact ⟨j, (htipped.tipHeight?_eq_some_iff hlinking.distinct).2 ⟨n.hash, hj, hmax⟩, by omega⟩

/-- An ancestry leads to the tip. -/
theorem exists_rooted (h : Follows config d s c) (htip : IsTip c.used.entries c.used.tip)
    (hheight : c.assembler.tipHeight? = some k) :
    ∃ x chain, Rooted c.assembler.records x chain ∧ chain.length = k + 1 := by
  have hlinking := Snapshot.linking_swept c.used c.fed
  obtain ⟨front, htipped⟩ := h.tipped htip
  obtain ⟨x, hx, _⟩ := (htipped.tipHeight?_eq_some_iff hlinking.distinct).1 hheight
  obtain ⟨chain, hchain⟩ := (Assembler.heightOf?_iff_rooted hlinking).1 hx
  exact ⟨x, chain, hchain⟩

end Follows

end BlockIndex
