/-!
# Maps from file ids

Finite maps from the ids of block files, kept ascending, so that two maps with the same members
are equal.

* `FileMap.get?`, `FileMap.insert`  look-up and update;
* `FileMap.ofList`                  a map from pairs, the last of equal ids winning.

Main statements: `FileMap.get?_insert`, `FileMap.ext_get?`.
-/

namespace BlockIndex

/-- A finite map from file ids, ascending. -/
structure FileMap (α : Type) where
  toList : List (Nat × α)
  sorted : toList.Pairwise fun a b => a.1 < b.1
  deriving DecidableEq, Repr

namespace FileMap

variable {α β : Type}

/-- The map without members. -/
def empty : FileMap α := ⟨[], List.Pairwise.nil⟩

instance : Inhabited (FileMap α) := ⟨empty⟩

/-- The value first held for an id in a list of pairs. -/
def lookup (id : Nat) : List (Nat × α) → Option α
  | [] => none
  | (key, value) :: rest => if key = id then some value else lookup id rest

/-- The value held for an id. -/
def get? (map : FileMap α) (id : Nat) : Option α := lookup id map.toList

/-- The pairs with the value of an id replaced or put in its place. -/
def place (id : Nat) (value : α) : List (Nat × α) → List (Nat × α)
  | [] => [(id, value)]
  | (key, old) :: rest =>
    if id < key then (id, value) :: (key, old) :: rest
    else if id = key then (id, value) :: rest
    else (key, old) :: place id value rest

theorem mem_place {id : Nat} {value : α} {pairs : List (Nat × α)} {p : Nat × α}
    (h : p ∈ place id value pairs) : p = (id, value) ∨ p ∈ pairs := by
  induction pairs with
  | nil => simpa [place] using h
  | cons q rest ih =>
    obtain ⟨key, old⟩ := q
    unfold place at h
    split at h
    · simpa using h
    · split at h
      · rcases List.mem_cons.1 h with h | h
        · exact Or.inl h
        · exact Or.inr (List.mem_cons_of_mem _ h)
      · rcases List.mem_cons.1 h with h | h
        · exact Or.inr (by simp [h])
        · rcases ih h with h | h
          · exact Or.inl h
          · exact Or.inr (List.mem_cons_of_mem _ h)

theorem pairwise_place (id : Nat) (value : α) {pairs : List (Nat × α)}
    (h : pairs.Pairwise fun a b => a.1 < b.1) :
    (place id value pairs).Pairwise fun a b => a.1 < b.1 := by
  induction pairs with
  | nil => simp [place]
  | cons q rest ih =>
    obtain ⟨key, old⟩ := q
    have hc := List.pairwise_cons.1 h
    unfold place
    split
    · next hlt =>
      refine List.pairwise_cons.2 ⟨?_, h⟩
      intro p hp
      rcases List.mem_cons.1 hp with rfl | hp
      · exact hlt
      · exact Nat.lt_trans hlt (hc.1 p hp)
    · split
      · next heq => subst heq; exact List.pairwise_cons.2 ⟨hc.1, hc.2⟩
      · refine List.pairwise_cons.2 ⟨?_, ih hc.2⟩
        intro p hp
        rcases mem_place hp with rfl | hp
        · simp only; omega
        · exact hc.1 p hp

/-- The map with the value of an id replaced. -/
def insert (map : FileMap α) (id : Nat) (value : α) : FileMap α :=
  ⟨place id value map.toList, pairwise_place id value map.sorted⟩

/-- The map of some pairs, the last of equal ids winning. -/
def ofList (pairs : List (Nat × α)) : FileMap α :=
  pairs.foldl (fun map p => map.insert p.1 p.2) empty

/-- The ids, ascending. -/
def ids (map : FileMap α) : List Nat := map.toList.map (·.1)

/-- The values, in the order of their ids. -/
def values (map : FileMap α) : List α := map.toList.map (·.2)

/-! ## Look-up -/

theorem lookup_place (id other : Nat) (value : α) {pairs : List (Nat × α)}
    (h : pairs.Pairwise fun a b => a.1 < b.1) :
    lookup other (place id value pairs) = if other = id then some value else lookup other pairs := by
  induction pairs with
  | nil => simp [place, lookup, eq_comm]
  | cons q rest ih =>
    obtain ⟨key, old⟩ := q
    have ih := ih (List.pairwise_cons.1 h).2
    unfold place
    split
    · simp [lookup, eq_comm]
    · split
      · next heq =>
        subst heq
        simp only [lookup]
        by_cases ho : id = other
        · simp [ho]
        · simp [ho, Ne.symm ho]
      · next hne =>
        simp only [lookup, ih]
        by_cases hk : key = other
        · have : other ≠ id := by omega
          simp [hk, this]
        · simp [hk]

theorem get?_insert (map : FileMap α) (id other : Nat) (value : α) :
    (map.insert id value).get? other = if other = id then some value else map.get? other :=
  lookup_place id other value map.sorted

@[simp] theorem get?_empty (id : Nat) : (empty : FileMap α).get? id = none := rfl

theorem lookup_eq_none {id : Nat} {pairs : List (Nat × α)} (h : ∀ p ∈ pairs, id < p.1) :
    lookup id pairs = none := by
  induction pairs with
  | nil => rfl
  | cons q rest ih =>
    obtain ⟨key, value⟩ := q
    have hk : id < key := h _ List.mem_cons_self
    simp only [lookup]
    rw [if_neg (by omega)]
    exact ih fun p hp => h p (List.mem_cons_of_mem _ hp)

theorem eq_of_lookup {a b : List (Nat × α)} (ha : a.Pairwise fun x y => x.1 < y.1)
    (hb : b.Pairwise fun x y => x.1 < y.1) (h : ∀ id, lookup id a = lookup id b) : a = b := by
  induction a generalizing b with
  | nil =>
    cases b with
    | nil => rfl
    | cons q rest => have := h q.1; simp [lookup] at this
  | cons p as ih =>
    cases b with
    | nil => have := h p.1; simp [lookup] at this
    | cons q bs =>
      have ha := List.pairwise_cons.1 ha
      have hb := List.pairwise_cons.1 hb
      have hkey : p.1 = q.1 := by
        rcases Nat.lt_trichotomy p.1 q.1 with hlt | heq | hlt
        · have hn : lookup p.1 (q :: bs) = none := by
            apply lookup_eq_none
            intro r hr
            rcases List.mem_cons.1 hr with rfl | hr
            · exact hlt
            · exact Nat.lt_trans hlt (hb.1 r hr)
          have := h p.1
          rw [hn] at this
          simp [lookup] at this
        · exact heq
        · have hn : lookup q.1 (p :: as) = none := by
            apply lookup_eq_none
            intro r hr
            rcases List.mem_cons.1 hr with rfl | hr
            · exact hlt
            · exact Nat.lt_trans hlt (ha.1 r hr)
          have := h q.1
          rw [hn] at this
          simp [lookup] at this
      have hvalue : p.2 = q.2 := by
        have := h p.1
        simpa [lookup, hkey] using this
      have hpq : p = q := Prod.ext hkey hvalue
      subst hpq
      have : as = bs := by
        apply ih ha.2 hb.2
        intro id
        by_cases hid : p.1 = id
        · subst hid
          rw [lookup_eq_none ha.1, lookup_eq_none hb.1]
        · have := h id
          simpa [lookup, hid] using this
      rw [this]

theorem ext_get? {a b : FileMap α} (h : ∀ id, a.get? id = b.get? id) : a = b := by
  have := eq_of_lookup a.sorted b.sorted h
  cases a
  cases b
  simp_all

end FileMap

end BlockIndex
