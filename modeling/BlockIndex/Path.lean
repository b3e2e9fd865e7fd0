/-!
# Paths

A path is the list of its parts between slashes, kept as written: an empty first part is the root,
an empty last part a trailing slash.

* `Path.ofText`, `Path.text`  the written form, in both directions;
* `Path.join`                 the path of a member of a directory;
* `Path.trimmed`              the path without the parts at its ends that lead nowhere;
* `Path.ancestors`            the paths of the directories above.

Main statement: `Path.text_ofText`.
-/

namespace BlockIndex

/-- The parts of a path between its slashes. -/
abbrev Path := List String

namespace Path

/-- The parts of a text between slashes. -/
def splitSlash : List Char → List (List Char)
  | [] => [[]]
  | c :: rest =>
    if c = '/' then [] :: splitSlash rest
    else
      match splitSlash rest with
      | [] => [[c]]
      | part :: parts => (c :: part) :: parts

/-- The parts joined by slashes. -/
def joinSlash : List (List Char) → List Char
  | [] => []
  | [part] => part
  | part :: parts => part ++ '/' :: joinSlash parts

theorem splitSlash_ne_nil (cs : List Char) : splitSlash cs ≠ [] := by
  cases cs with
  | nil => simp [splitSlash]
  | cons c rest =>
    simp only [splitSlash]
    split
    · simp
    · split <;> simp

theorem joinSlash_splitSlash (cs : List Char) : joinSlash (splitSlash cs) = cs := by
  induction cs with
  | nil => rfl
  | cons c rest ih =>
    simp only [splitSlash]
    cases hs : splitSlash rest with
    | nil => exact absurd hs (splitSlash_ne_nil rest)
    | cons part parts =>
      rw [hs] at ih
      split
      · next hc => subst hc; simp [joinSlash, ih]
      · cases parts with
        | nil => simpa [joinSlash] using ih
        | cons next more => simpa [joinSlash] using ih

/-- The path that a text writes. -/
def ofText (s : String) : Path := (splitSlash s.toList).map String.ofList

/-- The text that writes a path. -/
def text (path : Path) : String := String.ofList (joinSlash (path.map String.toList))

theorem text_ofText (s : String) : text (ofText s) = s := by
  simp [text, ofText, Function.comp_def, joinSlash_splitSlash]

/-- Whether nothing is written. -/
def isBlank (path : Path) : Bool := path.text = ""

/-- Whether a part leads nowhere: it is empty or says the directory itself. -/
def isIdle (part : String) : Bool := part = "" || part = "."

/-- The path up to its last part that leads somewhere. -/
def withoutTail (path : Path) : Path := (path.reverse.dropWhile isIdle).reverse

/-- The path from its first part that leads somewhere to its last. -/
def trimmed (path : Path) : Path := withoutTail (path.dropWhile isIdle)

/-- The paths that some parts, the last one first, begin with and that end in a part that leads
somewhere, the longest first. -/
def beginnings : List String → List Path
  | [] => []
  | part :: before =>
    if isIdle part then beginnings before else (part :: before).reverse :: beginnings before

/-- The paths of the directories above, the nearest first. -/
def ancestors (path : Path) : List Path := beginnings ((path.reverse.dropWhile isIdle).drop 1)

/-- The path of a member of a directory. -/
def join (dir : Path) (name : String) : Path :=
  if dir.getLast? = some "" then dir.dropLast ++ [name] else dir ++ [name]

end Path

end BlockIndex
