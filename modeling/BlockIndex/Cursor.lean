/-!
# Cursors

A position across all block files: a file id and an offset in that file, ordered by file first.  A
scan cursor stands where every record before it has been accounted for.

* `Cursor.rewindTo`      the earlier of two positions;
* `Cursor.resumeOffset`  where the scan of a file goes on.
-/

namespace BlockIndex

/-- A position across all block files. -/
structure Cursor where
  fileId : Nat
  offset : Nat
  deriving DecidableEq, Repr, Inhabited

namespace Cursor

/-- The beginning of the first file. -/
def start : Cursor := ⟨0, 0⟩

instance : LT Cursor :=
  ⟨fun a b => a.fileId < b.fileId ∨ (a.fileId = b.fileId ∧ a.offset < b.offset)⟩

instance : LE Cursor := ⟨fun a b => ¬ b < a⟩

theorem lt_def (a b : Cursor) :
    a < b ↔ a.fileId < b.fileId ∨ (a.fileId = b.fileId ∧ a.offset < b.offset) := Iff.rfl

theorem le_def (a b : Cursor) : a ≤ b ↔ ¬ b < a := Iff.rfl

instance (a b : Cursor) : Decidable (a < b) :=
  inferInstanceAs (Decidable (a.fileId < b.fileId ∨ (a.fileId = b.fileId ∧ a.offset < b.offset)))

instance (a b : Cursor) : Decidable (a ≤ b) := inferInstanceAs (Decidable (¬ b < a))

/-- The order of two positions. -/
def compare (a b : Cursor) : Ordering := if a < b then .lt else if b < a then .gt else .eq

/-- Moves back to `other` if it is earlier, and never forward. -/
def rewindTo (cursor other : Cursor) : Cursor := if other < cursor then other else cursor

/-- The earliest of some positions. -/
def earliest? : List Cursor → Option Cursor
  | [] => none
  | c :: rest =>
    match earliest? rest with
    | none => some c
    | some d => some (c.rewindTo d)

/-- Moves back to the earliest of some positions. -/
def rewindToAll (cursor : Cursor) (others : List Cursor) : Cursor :=
  others.foldl rewindTo cursor

/-- Where the scan of a file goes on, or `none` if the whole file lies before the cursor. -/
def resumeOffset (cursor : Cursor) (fileId : Nat) : Option Nat :=
  if fileId < cursor.fileId then none
  else if fileId = cursor.fileId then some cursor.offset
  else some 0

instance : ToString Cursor := ⟨fun c => toString c.fileId ++ "@" ++ toString c.offset⟩

theorem rewindTo_le_left (a b : Cursor) : a.rewindTo b ≤ a := by
  unfold rewindTo
  split
  · next h => rw [le_def]; rw [lt_def] at h ⊢; omega
  · rw [le_def, lt_def]; omega

theorem rewindTo_le_right (a b : Cursor) : a.rewindTo b ≤ b := by
  unfold rewindTo
  split
  · rw [le_def, lt_def]; omega
  · next h => exact h

end Cursor

end BlockIndex
