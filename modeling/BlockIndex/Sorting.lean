/-!
# Stable sorting

Sorting by insertion.  Members that the order does not tell apart keep their places relative to
each other.

Main statements: `sortBy_perm`, `pairwise_sortBy`.
-/

namespace BlockIndex

/-- Puts `a` before the first member that it does not come after. -/
def insertBy {α : Type} (le : α → α → Bool) (a : α) : List α → List α
  | [] => [a]
  | b :: rest => if le a b then a :: b :: rest else b :: insertBy le a rest

/-- The members in the order of `le`, members of equal rank in the order in which they came. -/
def sortBy {α : Type} (le : α → α → Bool) : List α → List α
  | [] => []
  | a :: rest => insertBy le a (sortBy le rest)

theorem insertBy_perm {α : Type} (le : α → α → Bool) (a : α) (l : List α) :
    (insertBy le a l).Perm (a :: l) := by
  induction l with
  | nil => exact List.Perm.refl _
  | cons b rest ih =>
    unfold insertBy
    split
    · exact List.Perm.refl _
    · exact (List.Perm.cons b ih).trans (List.Perm.swap a b rest)

theorem sortBy_perm {α : Type} (le : α → α → Bool) (l : List α) : (sortBy le l).Perm l := by
  induction l with
  | nil => exact List.Perm.refl _
  | cons a rest ih => exact (insertBy_perm le a _).trans (List.Perm.cons a ih)

theorem pairwise_insertBy {α : Type} {le : α → α → Bool}
    (total : ∀ a b, le a b = false → le b a = true)
    (trans : ∀ a b c, le a b = true → le b c = true → le a c = true)
    (a : α) {l : List α} (h : l.Pairwise fun x y => le x y = true) :
    (insertBy le a l).Pairwise fun x y => le x y = true := by
  induction l with
  | nil => simp [insertBy]
  | cons b rest ih =>
    rw [List.pairwise_cons] at h
    unfold insertBy
    split
    · next hab =>
      refine List.pairwise_cons.2 ⟨?_, List.pairwise_cons.2 h⟩
      intro c hc
      rcases List.mem_cons.1 hc with rfl | hc
      · exact hab
      · exact trans a b c hab (h.1 c hc)
    · next hab =>
      refine List.pairwise_cons.2 ⟨?_, ih h.2⟩
      intro c hc
      rcases List.mem_cons.1 ((insertBy_perm le a rest).mem_iff.1 hc) with rfl | hc
      · exact total c b (by simpa using hab)
      · exact h.1 c hc

theorem pairwise_sortBy {α : Type} (le : α → α → Bool)
    (total : ∀ a b, le a b = false → le b a = true)
    (trans : ∀ a b c, le a b = true → le b c = true → le a c = true) (l : List α) :
    (sortBy le l).Pairwise fun x y => le x y = true := by
  induction l with
  | nil => exact List.Pairwise.nil
  | cons a rest ih => exact pairwise_insertBy total trans a ih

end BlockIndex
