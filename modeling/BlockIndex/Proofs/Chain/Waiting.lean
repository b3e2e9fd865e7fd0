import BlockIndex.Chain.Waiting

/-!
# Laws of waiting records

What the two operations on waiting records do, seen through `Waits`: which record waits for which
parent.  A parent has one bucket, so that taking it leaves nobody behind.

Main statements: `Waiting.waits_push`, `Waiting.mem_take`, `Waiting.waits_rest`.
-/

namespace BlockIndex

namespace Waiting

/-- A record waits for a parent. -/
def Waits (waiting : Waiting) (parent : Hash) (id : NodeId) : Prop :=
  ∃ ids, (parent, ids) ∈ waiting ∧ id ∈ ids

/-- The parents that are waited for. -/
def parents (waiting : Waiting) : List Hash := waiting.map (·.1)

theorem mem_ids_iff {waiting : Waiting} {id : NodeId} :
    id ∈ Waiting.ids waiting ↔ ∃ parent, Waits waiting parent id := by
  constructor
  · intro h
    obtain ⟨⟨parent, ids⟩, hb, hid⟩ := List.mem_flatMap.1 h
    exact ⟨parent, ids, hb, hid⟩
  · rintro ⟨parent, ids, hb, hid⟩
    exact List.mem_flatMap.2 ⟨(parent, ids), hb, hid⟩

theorem waits_cons {hash parent : Hash} {ids : List NodeId} {rest : Waiting} {id : NodeId} :
    Waits ((hash, ids) :: rest) parent id ↔ (parent = hash ∧ id ∈ ids) ∨ Waits rest parent id := by
  constructor
  · rintro ⟨found, hb, hid⟩
    rcases List.mem_cons.1 hb with heq | hb
    · obtain ⟨rfl, rfl⟩ := Prod.mk.inj heq
      exact Or.inl ⟨rfl, hid⟩
    · exact Or.inr ⟨found, hb, hid⟩
  · rintro (⟨rfl, hid⟩ | ⟨found, hb, hid⟩)
    · exact ⟨ids, List.mem_cons_self, hid⟩
    · exact ⟨found, List.mem_cons_of_mem _ hb, hid⟩

theorem not_waits_of_not_mem {waiting : Waiting} {parent : Hash} {id : NodeId}
    (h : parent ∉ parents waiting) : ¬ Waits waiting parent id := by
  rintro ⟨ids, hb, _⟩
  exact h (List.mem_map.2 ⟨_, hb, rfl⟩)

/-! ## One more -/

theorem waits_push {waiting : Waiting} {parent other : Hash} {id child : NodeId} :
    Waits (push parent id waiting) other child ↔
      Waits waiting other child ∨ (other = parent ∧ child = id) := by
  induction waiting with
  | nil =>
    show Waits [(parent, [id])] other child ↔ _
    rw [waits_cons]
    simp [Waits]
  | cons bucket rest ih =>
    obtain ⟨hash, ids⟩ := bucket
    unfold push
    split
    · next heq =>
      rw [waits_cons, waits_cons, List.mem_append, List.mem_singleton, heq]
      constructor
      · rintro (⟨ho, hc | hc⟩ | hw)
        · exact Or.inl (Or.inl ⟨ho, hc⟩)
        · exact Or.inr ⟨ho, hc⟩
        · exact Or.inl (Or.inr hw)
      · rintro ((⟨ho, hc⟩ | hw) | ⟨ho, hc⟩)
        · exact Or.inl ⟨ho, Or.inl hc⟩
        · exact Or.inr hw
        · exact Or.inl ⟨ho, Or.inr hc⟩
    · rw [waits_cons, waits_cons, ih, or_assoc]

theorem mem_parents_push {waiting : Waiting} {parent other : Hash} {id : NodeId} :
    other ∈ parents (push parent id waiting) ↔ other ∈ parents waiting ∨ other = parent := by
  induction waiting with
  | nil => simp [push, parents]
  | cons bucket rest ih =>
    obtain ⟨hash, ids⟩ := bucket
    unfold push
    split
    · next heq => simp only [parents, List.map_cons, List.mem_cons, heq]; grind
    · simp only [parents, List.map_cons, List.mem_cons] at ih ⊢
      rw [ih, or_assoc]

theorem nodup_parents_push {waiting : Waiting} (parent : Hash) (id : NodeId)
    (h : (parents waiting).Nodup) : (parents (push parent id waiting)).Nodup := by
  induction waiting with
  | nil => simp [push, parents]
  | cons bucket rest ih =>
    obtain ⟨hash, ids⟩ := bucket
    have hcons := List.nodup_cons.1 h
    unfold push
    split
    · exact List.nodup_cons.2 hcons
    · next hne =>
      refine List.nodup_cons.2 ⟨?_, ih hcons.2⟩
      show hash ∉ parents (push parent id rest)
      rw [mem_parents_push]
      rintro (hmem | heq)
      · exact hcons.1 hmem
      · exact hne heq

theorem ids_push_perm (waiting : Waiting) (parent : Hash) (id : NodeId) :
    (Waiting.ids (push parent id waiting)).Perm (id :: Waiting.ids waiting) := by
  induction waiting with
  | nil => exact List.Perm.refl _
  | cons bucket rest ih =>
    obtain ⟨hash, ids⟩ := bucket
    unfold push
    split
    · show ((ids ++ [id]) ++ Waiting.ids rest).Perm (id :: (ids ++ Waiting.ids rest))
      rw [List.append_assoc]
      exact List.perm_middle
    · show (ids ++ Waiting.ids (push parent id rest)).Perm (id :: (ids ++ Waiting.ids rest))
      exact (List.Perm.append_left ids ih).trans List.perm_middle

/-! ## Taking a bucket -/

theorem ids_take_perm (waiting : Waiting) (parent : Hash) :
    ((take parent waiting).1 ++ Waiting.ids (take parent waiting).2).Perm
      (Waiting.ids waiting) := by
  induction waiting with
  | nil => exact List.Perm.refl _
  | cons bucket rest ih =>
    obtain ⟨hash, ids⟩ := bucket
    unfold take
    split
    · exact List.Perm.refl _
    · show ((take parent rest).1 ++ (ids ++ Waiting.ids (take parent rest).2)).Perm
        (ids ++ Waiting.ids rest)
      rw [← List.append_assoc]
      exact ((List.perm_append_comm).append_right _).trans
        ((List.append_assoc _ _ _) ▸ List.Perm.append_left ids ih)

theorem sublist_take (waiting : Waiting) (parent : Hash) :
    ((take parent waiting).2).Sublist waiting := by
  induction waiting with
  | nil => exact List.Sublist.refl _
  | cons bucket rest ih =>
    obtain ⟨hash, ids⟩ := bucket
    unfold take
    split
    · exact List.sublist_cons_self _ _
    · exact ih.cons_cons _

theorem nodup_parents_take {waiting : Waiting} (parent : Hash) (h : (parents waiting).Nodup) :
    (parents (take parent waiting).2).Nodup :=
  h.sublist ((sublist_take waiting parent).map _)

/-- All who wait for a parent are taken. -/
theorem mem_take {waiting : Waiting} {parent : Hash} {id : NodeId}
    (h : (parents waiting).Nodup) :
    id ∈ (take parent waiting).1 ↔ Waits waiting parent id := by
  induction waiting with
  | nil => simp [take, Waits]
  | cons bucket rest ih =>
    obtain ⟨hash, ids⟩ := bucket
    have hcons := List.nodup_cons.1 h
    rw [waits_cons]
    unfold take
    split
    · next heq =>
      subst heq
      have hnone : ¬ Waits rest hash id := not_waits_of_not_mem hcons.1
      simp [hnone]
    · next hne =>
      rw [ih hcons.2]
      simp [Ne.symm hne]

/-- And nobody else. -/
theorem waits_rest {waiting : Waiting} {parent other : Hash} {id : NodeId}
    (h : (parents waiting).Nodup) :
    Waits (take parent waiting).2 other id ↔ Waits waiting other id ∧ other ≠ parent := by
  induction waiting with
  | nil => simp [take, Waits]
  | cons bucket rest ih =>
    obtain ⟨hash, ids⟩ := bucket
    have hcons := List.nodup_cons.1 h
    rw [waits_cons]
    unfold take
    split
    · next heq =>
      subst heq
      have hnone : ¬ Waits rest hash id := not_waits_of_not_mem hcons.1
      constructor
      · intro hw
        refine ⟨Or.inr hw, ?_⟩
        rintro rfl
        exact hnone hw
      · rintro ⟨⟨rfl, _⟩ | hw, hne⟩
        · exact absurd rfl hne
        · exact hw
    · next hne =>
      rw [waits_cons, ih hcons.2]
      constructor
      · rintro (⟨rfl, hid⟩ | ⟨hw, ho⟩)
        · exact ⟨Or.inl ⟨rfl, hid⟩, hne⟩
        · exact ⟨Or.inr hw, ho⟩
      · rintro ⟨⟨rfl, hid⟩ | hw, ho⟩
        · exact Or.inl ⟨rfl, hid⟩
        · exact Or.inr ⟨hw, ho⟩

end Waiting

end BlockIndex
