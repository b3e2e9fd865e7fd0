import BlockIndex.FileMap

/-!
# Members of maps

A map holds a value for an id just if the pair of both is a member, and a map made of pairs whose
ids ascend has these pairs as its members.
-/

namespace BlockIndex.FileMap

variable {α : Type} {id : Nat} {value : α} {pairs : List (Nat × α)} {map : FileMap α}

theorem lookup_eq_some_iff (h : pairs.Pairwise fun a b => a.1 < b.1) :
    lookup id pairs = some value ↔ (id, value) ∈ pairs := by
  induction pairs with
  | nil => simp [lookup]
  | cons p rest ih =>
    obtain ⟨key, old⟩ := p
    have hc := List.pairwise_cons.1 h
    rw [List.mem_cons, lookup]
    by_cases hkey : key = id
    · rw [if_pos hkey]
      constructor
      · intro hold
        exact Or.inl (by rw [hkey, Option.some.inj hold])
      · intro hmem
        rcases hmem with heq | hmem
        · rw [(Prod.mk.inj heq).2]
        · exact absurd (hc.1 _ hmem) (by show ¬ key < id; omega)
    · rw [if_neg hkey, ih hc.2]
      constructor
      · exact Or.inr
      · intro hmem
        rcases hmem with heq | hmem
        · exact absurd (Prod.mk.inj heq).1.symm hkey
        · exact hmem

theorem get?_eq_some_iff : map.get? id = some value ↔ (id, value) ∈ map.toList :=
  lookup_eq_some_iff map.sorted

theorem get?_insert_eq_some_iff {key : Nat} {old : α} :
    (map.insert key old).get? id = some value ↔
      (id = key ∧ old = value) ∨ (id ≠ key ∧ map.get? id = some value) := by
  rw [get?_insert]
  by_cases hkey : id = key
  · simp [hkey]
  · simp [hkey]

theorem mem_values_iff : value ∈ map.values ↔ ∃ id, map.get? id = some value := by
  rw [values, List.mem_map]
  constructor
  · intro h
    obtain ⟨p, hp, rfl⟩ := h
    exact ⟨p.1, get?_eq_some_iff.2 hp⟩
  · intro h
    obtain ⟨id, hid⟩ := h
    exact ⟨(id, value), get?_eq_some_iff.1 hid, rfl⟩

/-! ## Maps of pairs -/

theorem get?_foldl (h : pairs.Pairwise fun a b => a.1 < b.1) (map : FileMap α) (id : Nat) :
    (pairs.foldl (fun map p => map.insert p.1 p.2) map).get? id
      = (lookup id pairs).or (map.get? id) := by
  induction pairs generalizing map with
  | nil => rfl
  | cons p rest ih =>
    obtain ⟨key, value⟩ := p
    have hc := List.pairwise_cons.1 h
    rw [List.foldl_cons, ih hc.2, get?_insert, lookup]
    by_cases hkey : key = id
    · have hnone : lookup id rest = none := lookup_eq_none (by rw [← hkey]; exact hc.1)
      rw [if_pos hkey.symm, if_pos hkey, hnone]
      rfl
    · rw [if_neg (Ne.symm hkey), if_neg hkey]

theorem get?_ofList (h : pairs.Pairwise fun a b => a.1 < b.1) (id : Nat) :
    (ofList pairs).get? id = lookup id pairs := by
  rw [ofList, get?_foldl h, get?_empty, Option.or_none]

theorem ofList_toList (map : FileMap α) : ofList map.toList = map := by
  apply ext_get?
  intro id
  exact get?_ofList map.sorted id

theorem mem_ids_ofList : id ∈ (ofList pairs).ids ↔ id ∈ pairs.map (·.1) := by
  have hids : ∀ (map : FileMap α), id ∈ map.ids ↔ ∃ value, map.get? id = some value := by
    intro map
    rw [ids, List.mem_map]
    constructor
    · intro h
      obtain ⟨p, hp, rfl⟩ := h
      exact ⟨p.2, get?_eq_some_iff.2 hp⟩
    · intro h
      obtain ⟨value, hvalue⟩ := h
      exact ⟨(id, value), get?_eq_some_iff.1 hvalue, rfl⟩
  -- the map before the fold keeps its ids, and every pair adds its own
  have hfold : ∀ (map : FileMap α),
      id ∈ (pairs.foldl (fun map p => map.insert p.1 p.2) map).ids
        ↔ id ∈ map.ids ∨ id ∈ pairs.map (·.1) := by
    induction pairs with
    | nil => intro map; simp
    | cons p rest ih =>
      intro map
      have hinsert : id ∈ (map.insert p.1 p.2).ids ↔ id ∈ map.ids ∨ id = p.1 := by
        rw [hids, hids]
        simp only [get?_insert]
        by_cases h : id = p.1
        · simp [h]
        · simp [h]
      rw [List.foldl_cons, ih, hinsert, List.map_cons, List.mem_cons, or_assoc]
  rw [ofList, hfold]
  simp [ids, empty]

end BlockIndex.FileMap
