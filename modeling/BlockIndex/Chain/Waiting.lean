import BlockIndex.Hash

/-!
# Waiting records

Records whose parent is not linked yet, kept under the hash of that parent in the order in which
they came.

* `Waiting.push`  one more record under a parent;
* `Waiting.take`  all records under a parent, and the others.

Main statement: `Waiting.count_take`.
-/

namespace BlockIndex

/-- The number of a record in the order in which records were first seen. -/
abbrev NodeId := Nat

/-- Waiting records under the hashes of their parents. -/
abbrev Waiting := List (Hash × List NodeId)

namespace Waiting

/-- Adds a record under a parent. -/
def push (parent : Hash) (id : NodeId) : Waiting → Waiting
  | [] => [(parent, [id])]
  | (hash, ids) :: rest =>
    if hash = parent then (hash, ids ++ [id]) :: rest else (hash, ids) :: push parent id rest

/-- The records under a parent, and what waits for others. -/
def take (parent : Hash) : Waiting → List NodeId × Waiting
  | [] => ([], [])
  | (hash, ids) :: rest =>
    if hash = parent then (ids, rest) else ((take parent rest).1, (hash, ids) :: (take parent rest).2)

/-- All waiting records. -/
def ids (waiting : Waiting) : List NodeId := waiting.flatMap (·.2)

/-- How many records wait. -/
def count (waiting : Waiting) : Nat := waiting.ids.length

@[simp] theorem count_cons (hash : Hash) (ids : List NodeId) (rest : Waiting) :
    Waiting.count ((hash, ids) :: rest) = ids.length + Waiting.count rest := by
  simp [count, Waiting.ids]

theorem count_take (parent : Hash) (waiting : Waiting) :
    (take parent waiting).1.length + Waiting.count (take parent waiting).2
      = Waiting.count waiting := by
  induction waiting with
  | nil => rfl
  | cons bucket rest ih =>
    obtain ⟨hash, ids⟩ := bucket
    unfold take
    split
    · simp
    · simp only [count_cons]
      omega

end Waiting

end BlockIndex
