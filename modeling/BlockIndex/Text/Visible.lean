import BlockIndex.Text.Blank
import BlockIndex.Text.Mark

/-!
# Characters that show

A character shows if it leaves a mark of its own on a page: it is neither blank nor seen only on
its neighbour.

Main statement: `isVisible_iff`.
-/

namespace BlockIndex.Text

/-- Whether the character is seen by itself. -/
def isVisible (c : Char) : Bool := !isBlank c && !isMark c

theorem isVisible_iff {c : Char} : isVisible c = true ↔
    ∀ range ∈ blankRanges ++ markRanges, ¬ (range.1 ≤ c.toNat ∧ c.toNat ≤ range.2) := by
  rw [isVisible, Bool.and_eq_true, Bool.not_eq_true', Bool.not_eq_true', Bool.eq_false_iff,
    Bool.eq_false_iff, ne_eq, ne_eq, isBlank_iff, isMark_iff, not_exists, not_exists,
    List.forall_mem_append]
  simp only [not_and]

/-- The letters, digits and signs of a keyboard show. -/
theorem isVisible_of_ascii {c : Char} (hfirst : 0x20 ≤ c.toNat) (hlast : c.toNat < 0x7f) :
    isVisible c = true := by
  have hoff : ∀ range ∈ blankRanges ++ markRanges, range.2 < 0x20 ∨ 0x7f ≤ range.1 := by
    decide +kernel
  refine isVisible_iff.2 fun range hrange hin => ?_
  have := hoff range hrange
  omega

end BlockIndex.Text
