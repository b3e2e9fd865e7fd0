/-!
# Ranges of code points

A class of characters as a list of ranges, ends included, in ascending order.

* `Ascending`  no range is empty, none touches the next;
* `inRanges`   whether a code point lies in one of the ranges.

Main statement: `inRanges_iff`.
-/

namespace BlockIndex.Text

/-- Whether ranges ascend. -/
def Ascending : List (Nat × Nat) → Prop
  | [] => True
  | [range] => range.1 ≤ range.2
  | range :: next :: rest => range.1 ≤ range.2 ∧ range.2 < next.1 ∧ Ascending (next :: rest)

/-- Checks that ranges ascend. -/
def ascends : List (Nat × Nat) → Bool
  | [] => true
  | [range] => range.1 ≤ range.2
  | range :: next :: rest => range.1 ≤ range.2 && range.2 < next.1 && ascends (next :: rest)

/-- Whether a code point lies in one of some ascending ranges; those above it are not looked at. -/
def inRanges : List (Nat × Nat) → Nat → Bool
  | [], _ => false
  | range :: rest, point =>
    if point < range.1 then false else if point ≤ range.2 then true else inRanges rest point

theorem ascends_iff {ranges : List (Nat × Nat)} : ascends ranges = true ↔ Ascending ranges := by
  induction ranges with
  | nil => simp [ascends, Ascending]
  | cons range rest ih =>
    cases rest with
    | nil => simp [ascends, Ascending]
    | cons next more => simp [ascends, Ascending, ih, and_assoc]

namespace Ascending

theorem tail {range : Nat × Nat} {rest : List (Nat × Nat)} (h : Ascending (range :: rest)) :
    Ascending rest := by
  cases rest with
  | nil => trivial
  | cons next more => exact h.2.2

theorem lt_of_lt_head {range : Nat × Nat} {rest : List (Nat × Nat)} {point : Nat}
    (h : Ascending (range :: rest)) (hlt : point < range.1) :
    ∀ r ∈ range :: rest, point < r.1 := by
  induction rest generalizing range with
  | nil => simpa using hlt
  | cons next more ih =>
    intro r hr
    rcases List.mem_cons.1 hr with rfl | hr
    · exact hlt
    · exact ih h.tail (by have := h.1; have := h.2.1; omega) r hr

end Ascending

theorem inRanges_iff {ranges : List (Nat × Nat)} {point : Nat} (h : Ascending ranges) :
    inRanges ranges point = true ↔ ∃ range ∈ ranges, range.1 ≤ point ∧ point ≤ range.2 := by
  induction ranges with
  | nil => simp [inRanges]
  | cons range rest ih =>
    unfold inRanges
    split
    · next hlt =>
      have hall := h.lt_of_lt_head hlt
      simp only [Bool.false_eq_true, false_iff]
      rintro ⟨r, hr, hle, _⟩
      have := hall r hr
      omega
    · next hlt =>
      split
      · next hle => simp only [true_iff]; exact ⟨range, by simp, by omega, hle⟩
      · next hle =>
        rw [ih h.tail]
        constructor
        · rintro ⟨r, hr, hin⟩
          exact ⟨r, List.mem_cons_of_mem _ hr, hin⟩
        · rintro ⟨r, hr, hin⟩
          rcases List.mem_cons.1 hr with rfl | hr
          · exact absurd hin.2 hle
          · exact ⟨r, hr, hin⟩

end BlockIndex.Text
