import BlockIndex.Text.Decimal
import BlockIndex.Text.Quoted

/-!
# JSON values

A JSON text as a tree.  Numbers and strings are kept as they are written: a number becomes an
integer, and the escapes of a string become characters, only where a reader asks for them.

* `Json.text?`, `Json.natural?`, `Json.integer?`, `Json.bool?`  what a leaf says;
* `Json.ofText`, `Json.ofNat`, `Json.ofInt`                      leaves that say something;
* `Json.render`                                                  the text of a tree.
-/

namespace BlockIndex

/-- A JSON value. -/
inductive Json where
  | null
  | bool (value : Bool)
  /-- A number as it is written. -/
  | number (literal : String)
  /-- What stands between the quotes of a string. -/
  | string (raw : String)
  | array (items : List Json)
  /-- Members in the order in which they are written, each key as between its quotes. -/
  | object (members : List (String × Json))
  deriving Inhabited

namespace Json

/-! ## Strings -/

/-- The value of a base-16 digit of either case. -/
def hexDigit? (c : Char) : Option Nat :=
  if '0' ≤ c ∧ c ≤ '9' then some (c.toNat - '0'.toNat)
  else if 'a' ≤ c ∧ c ≤ 'f' then some (c.toNat - 'a'.toNat + 10)
  else if 'A' ≤ c ∧ c ≤ 'F' then some (c.toNat - 'A'.toNat + 10)
  else none

/-- The number that four base-16 digits write. -/
def hexUnit? (a b c d : Char) : Option Nat :=
  match hexDigit? a, hexDigit? b, hexDigit? c, hexDigit? d with
  | some a, some b, some c, some d => some (((a * 16 + b) * 16 + c) * 16 + d)
  | _, _, _, _ => none

/-- The character of a two-character escape. -/
def shortEscape? (c : Char) : Option Char :=
  if c = Text.doubleQuote ∨ c = '\\' ∨ c = '/' then some c
  else if c = 'b' then some (Char.ofNat 8)
  else if c = 'f' then some (Char.ofNat 12)
  else if c = 'n' then some '\n'
  else if c = 'r' then some '\r'
  else if c = 't' then some '\t'
  else none

/-- Whether a code unit is the first of a pair. -/
def isLeading (unit : Nat) : Bool := 0xD800 ≤ unit && unit ≤ 0xDBFF

/-- Whether a code unit is the second of a pair. -/
def isTrailing (unit : Nat) : Bool := 0xDC00 ≤ unit && unit ≤ 0xDFFF

/-- The characters that a raw string stands for.  Half a pair of code units stands for none. -/
def unescape : List Char → Option (List Char)
  | [] => some []
  | '\\' :: 'u' :: a :: b :: c :: d :: rest =>
    match hexUnit? a b c d with
    | none => none
    | some unit =>
      if isTrailing unit then none
      else if isLeading unit then
        match rest with
        | '\\' :: 'u' :: e :: f :: g :: h :: rest =>
          match hexUnit? e f g h with
          | none => none
          | some second =>
            if isTrailing second then
              (unescape rest).map
                (Char.ofNat (0x10000 + (unit - 0xD800) * 0x400 + (second - 0xDC00)) :: ·)
            else none
        | _ => none
      else (unescape rest).map (Char.ofNat unit :: ·)
  | '\\' :: c :: rest =>
    match shortEscape? c with
    | none => none
    | some c => (unescape rest).map (c :: ·)
  | c :: rest => (unescape rest).map (c :: ·)

/-- How a character is written in a string. -/
def escape (c : Char) : List Char :=
  if c = Text.doubleQuote ∨ c = '\\' then ['\\', c]
  else if c.toNat < 0x20 then
    let digits := Text.hexDigits c.toNat
    ['\\', 'u'] ++ List.replicate (4 - digits.length) '0' ++ digits
  else [c]

/-! ## Leaves -/

/-- The text of a string. -/
def text? : Json → Option String
  | .string raw => (unescape raw.toList).map String.ofList
  | _ => none

/-- The number below `limit` that is written with digits only. -/
def natural? (limit : Nat) : Json → Option Nat
  | .number literal =>
    match Text.digits? literal.toList with
    | some n => if n < limit then some n else none
    | none => none
  | _ => none

/-- The signed number of 64 bits that is written with digits only after a sign.  A zero has no
sign. -/
def integer? : Json → Option Int
  | .number literal =>
    match literal.toList with
    | '-' :: digits =>
      match Text.digits? digits with
      | some n => if 0 < n ∧ n ≤ 0x8000_0000_0000_0000 then some (-(n : Int)) else none
      | none => none
    | digits =>
      match Text.digits? digits with
      | some n => if n < 0x8000_0000_0000_0000 then some (n : Int) else none
      | none => none
  | _ => none

/-- A truth value. -/
def bool? : Json → Option Bool
  | .bool value => some value
  | _ => none

/-- A value that may be `null`. -/
def nullable? {α : Type} (read : Json → Option α) : Json → Option (Option α)
  | .null => some none
  | json => (read json).map some

/-- The string of a text. -/
def ofText (s : String) : Json := .string (String.ofList (s.toList.flatMap escape))

/-- The number of a natural number. -/
def ofNat (n : Nat) : Json := .number (toString n)

/-- The number of an integer. -/
def ofInt (n : Int) : Json := .number (toString n)

/-- The value, or `null` if there is none. -/
def ofMaybe {α : Type} (write : α → Json) : Option α → Json
  | none => .null
  | some a => write a

/-! ## Text -/

/-- A raw string between quotes. -/
def quote (raw : String) : String := "\"" ++ raw ++ "\""

mutual

/-- The text of a value after a text. -/
def renderAfter (out : String) : Json → String
  | .null => out ++ "null"
  | .bool true => out ++ "true"
  | .bool false => out ++ "false"
  | .number literal => out ++ literal
  | .string raw => out ++ quote raw
  | .array [] => out ++ "[]"
  | .array (item :: items) => (renderItems (renderAfter (out ++ "[") item) items) ++ "]"
  | .object [] => out ++ "\x7b\x7d"
  | .object ((key, value) :: members) =>
    (renderMembers (renderAfter (out ++ "\x7b" ++ quote key ++ ":") value) members) ++ "\x7d"

/-- Further items after a text. -/
def renderItems (out : String) : List Json → String
  | [] => out
  | item :: items => renderItems (renderAfter (out ++ ",") item) items

/-- Further members after a text. -/
def renderMembers (out : String) : List (String × Json) → String
  | [] => out
  | (key, value) :: members =>
    renderMembers (renderAfter (out ++ "," ++ quote key ++ ":") value) members

end

/-- The text of a value. -/
def render (json : Json) : String := renderAfter "" json

end Json

end BlockIndex
