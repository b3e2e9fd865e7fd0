import BlockIndex.Cursor

/-!
# The order of positions

Positions are ordered by file and then by offset, in a line; moving a cursor back to some of them
takes it to the earliest.
-/

namespace BlockIndex

namespace Cursor

variable {a b c : Cursor}

theorem le_iff : a ≤ b ↔ a.fileId < b.fileId ∨ (a.fileId = b.fileId ∧ a.offset ≤ b.offset) := by
  rw [le_def, lt_def]
  omega

theorem le_refl (a : Cursor) : a ≤ a := by
  rw [le_iff]
  omega

theorem start_le (a : Cursor) : start ≤ a := by
  rw [le_iff]
  show 0 < a.fileId ∨ 0 = a.fileId ∧ 0 ≤ a.offset
  omega

theorem le_of_fileId_lt (h : a.fileId < b.fileId) : a ≤ b := le_iff.2 (Or.inl h)

theorem mk_le_mk {id m n : Nat} (h : m ≤ n) : (⟨id, m⟩ : Cursor) ≤ ⟨id, n⟩ :=
  le_iff.2 (Or.inr ⟨rfl, h⟩)

theorem le_trans (hab : a ≤ b) (hbc : b ≤ c) : a ≤ c := by
  rw [le_iff] at hab hbc ⊢
  omega

theorem lt_of_lt_of_le (hab : a < b) (hbc : b ≤ c) : a < c := by
  rw [lt_def] at hab ⊢
  rw [le_iff] at hbc
  omega

theorem not_lt : ¬ a < b ↔ b ≤ a := Iff.rfl

theorem not_le : ¬ a ≤ b ↔ b < a := by
  rw [le_def, Classical.not_not]

theorem le_total (a b : Cursor) : a ≤ b ∨ b ≤ a := by
  rw [le_iff, le_iff]
  omega

theorem le_antisymm (hab : a ≤ b) (hba : b ≤ a) : a = b := by
  rw [le_iff] at hab hba
  cases a
  cases b
  simp only [mk.injEq] at *
  omega

/-! ## Moving back -/

theorem rewindTo_eq (a b : Cursor) : a.rewindTo b = a ∨ a.rewindTo b = b := by
  unfold rewindTo
  split
  · exact Or.inr rfl
  · exact Or.inl rfl

theorem rewindToAll_cons (a b : Cursor) (rest : List Cursor) :
    a.rewindToAll (b :: rest) = (a.rewindTo b).rewindToAll rest := rfl

theorem rewindToAll_le (a : Cursor) (others : List Cursor) : a.rewindToAll others ≤ a := by
  induction others generalizing a with
  | nil => exact le_refl a
  | cons b rest ih => exact le_trans (ih (a.rewindTo b)) (rewindTo_le_left a b)

theorem rewindToAll_le_mem (a : Cursor) {others : List Cursor} (hb : b ∈ others) :
    a.rewindToAll others ≤ b := by
  induction others generalizing a with
  | nil => simp at hb
  | cons c rest ih =>
    rw [rewindToAll_cons]
    rcases List.mem_cons.1 hb with rfl | hb
    · exact le_trans (rewindToAll_le _ rest) (rewindTo_le_right a b)
    · exact ih _ hb

theorem rewindToAll_mem (a : Cursor) (others : List Cursor) :
    a.rewindToAll others = a ∨ a.rewindToAll others ∈ others := by
  induction others generalizing a with
  | nil => exact Or.inl rfl
  | cons b rest ih =>
    rw [rewindToAll_cons, List.mem_cons]
    rcases ih (a.rewindTo b) with h | h
    · rw [h]
      rcases rewindTo_eq a b with h | h
      · exact Or.inl h
      · exact Or.inr (Or.inl h)
    · exact Or.inr (Or.inr h)

theorem rewindToAll_append (a : Cursor) (others more : List Cursor) :
    (a.rewindToAll others).rewindToAll more = a.rewindToAll (others ++ more) :=
  (List.foldl_append ..).symm

/-- It does not matter in which order a cursor moves back to positions, or how often. -/
theorem rewindToAll_congr (a : Cursor) {others others' : List Cursor}
    (h : ∀ b, b ∈ others ↔ b ∈ others') : a.rewindToAll others = a.rewindToAll others' := by
  have hle : ∀ {l l' : List Cursor}, (∀ b, b ∈ l' → b ∈ l) →
      a.rewindToAll l ≤ a.rewindToAll l' := by
    intro l l' hsub
    rcases rewindToAll_mem a l' with heq | hmem
    · rw [heq]
      exact rewindToAll_le a l
    · exact rewindToAll_le_mem a (hsub _ hmem)
  exact le_antisymm (hle fun b => (h b).2) (hle fun b => (h b).1)

theorem rewindTo_assoc (a b c : Cursor) :
    (a.rewindTo b).rewindTo c = a.rewindTo (b.rewindTo c) := by
  have hab := rewindTo_eq a b
  have hbc := rewindTo_eq b c
  apply le_antisymm
  · rcases rewindTo_eq a (b.rewindTo c) with h | h
    · rw [h]
      exact le_trans (rewindTo_le_left _ c) (rewindTo_le_left a b)
    · rw [h]
      rcases hbc with h | h
      · rw [h]
        exact le_trans (rewindTo_le_left _ c) (rewindTo_le_right a b)
      · rw [h]
        exact rewindTo_le_right _ c
  · rcases rewindTo_eq (a.rewindTo b) c with h | h
    · rw [h]
      rcases hab with h | h
      · rw [h]
        exact rewindTo_le_left a _
      · rw [h]
        exact le_trans (rewindTo_le_right a _) (rewindTo_le_left b c)
    · rw [h]
      exact le_trans (rewindTo_le_right a _) (rewindTo_le_right b c)

theorem earliest?_mem {others : List Cursor} (h : earliest? others = some a) : a ∈ others := by
  induction others generalizing a with
  | nil => simp [earliest?] at h
  | cons b rest ih =>
    rw [earliest?] at h
    cases hrest : earliest? rest with
    | none =>
      rw [hrest] at h
      rw [← Option.some.inj h]
      exact List.mem_cons_self
    | some c =>
      rw [hrest] at h
      dsimp only at h
      rw [← Option.some.inj h]
      rcases rewindTo_eq b c with heq | heq
      · rw [heq]
        exact List.mem_cons_self
      · rw [heq]
        exact List.mem_cons_of_mem b (ih hrest)

theorem rewindToAll_eq_earliest (a : Cursor) (others : List Cursor) :
    a.rewindToAll others = match earliest? others with
      | none => a
      | some first => a.rewindTo first := by
  induction others generalizing a with
  | nil => rfl
  | cons b rest ih =>
    rw [rewindToAll_cons, ih, earliest?]
    cases earliest? rest with
    | none => rfl
    | some first => exact rewindTo_assoc a b first

end Cursor

end BlockIndex
