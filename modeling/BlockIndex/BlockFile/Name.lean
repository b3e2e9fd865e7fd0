import BlockIndex.Text.Decimal

/-!
# Names of block files

A block file is named `blk`, a number in decimal digits with any number of leading zeros, and
`.dat`.  The number, its id, is below `2 ^ 32`.

Main statement: `parseFileId_eq_some_iff`.
-/

namespace BlockIndex

/-- What block files are numbered below. -/
def fileIdLimit : Nat := 0x1_0000_0000

/-- What follows the first characters of a text, if it starts with them. -/
def afterStart : List Char → List Char → Option (List Char)
  | [], cs => some cs
  | _ :: _, [] => none
  | a :: as, c :: cs => if a = c then afterStart as cs else none

theorem afterStart_eq_some_iff {start cs rest : List Char} :
    afterStart start cs = some rest ↔ cs = start ++ rest := by
  induction start generalizing cs with
  | nil => simp [afterStart]
  | cons a as ih =>
    cases cs with
    | nil => simp [afterStart]
    | cons c cs =>
      unfold afterStart
      split
      · next h => subst h; simp [ih]
      · next h => simp [Ne.symm h]

/-- What precedes the last characters of a text, if it ends with them. -/
def beforeEnd (ending cs : List Char) : Option (List Char) :=
  (afterStart ending.reverse cs.reverse).map List.reverse

theorem beforeEnd_eq_some_iff {ending cs front : List Char} :
    beforeEnd ending cs = some front ↔ cs = front ++ ending := by
  unfold beforeEnd
  rw [Option.map_eq_some_iff]
  constructor
  · rintro ⟨r, h, rfl⟩
    have h := congrArg List.reverse (afterStart_eq_some_iff.1 h)
    simpa using h
  · rintro rfl
    exact ⟨front.reverse, afterStart_eq_some_iff.2 (by simp), by simp⟩

/-- The id that the characters of a file name say. -/
def fileIdOfChars (name : List Char) : Option Nat :=
  match afterStart ['b', 'l', 'k'] name with
  | none => none
  | some rest =>
    match beforeEnd ['.', 'd', 'a', 't'] rest with
    | none => none
    | some digits =>
      match Text.digits? digits with
      | none => none
      | some id => if id < fileIdLimit then some id else none

/-- The id that a file name says. -/
def parseFileId (name : String) : Option Nat := fileIdOfChars name.toList

theorem parseFileId_eq_some_iff {name : String} {id : Nat} :
    parseFileId name = some id ↔
      ∃ digits, name.toList = ['b', 'l', 'k'] ++ digits ++ ['.', 'd', 'a', 't'] ∧
        Text.digits? digits = some id ∧ id < fileIdLimit := by
  unfold parseFileId fileIdOfChars
  constructor
  · intro h
    split at h
    · simp at h
    · next rest hstart =>
      split at h
      · simp at h
      · next digits hend =>
        rw [afterStart_eq_some_iff] at hstart
        rw [beforeEnd_eq_some_iff] at hend
        split at h
        · simp at h
        · next n hn =>
          split at h
          · next hlt =>
            simp only [Option.some.injEq] at h
            subst h
            exact ⟨digits, by simp [hstart, hend], hn, hlt⟩
          · simp at h
  · rintro ⟨digits, hname, hdigits, hlt⟩
    have hstart : afterStart ['b', 'l', 'k'] name.toList = some (digits ++ ['.', 'd', 'a', 't']) :=
      afterStart_eq_some_iff.2 (by simp [hname])
    have hend : beforeEnd ['.', 'd', 'a', 't'] (digits ++ ['.', 'd', 'a', 't']) = some digits :=
      beforeEnd_eq_some_iff.2 rfl
    simp only [hstart, hend, hdigits, if_pos hlt]

end BlockIndex
