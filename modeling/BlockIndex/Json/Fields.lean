import BlockIndex.Json.Value

/-!
# Records in JSON

A record is written as an object, its fields in any order, or as an array of its fields in their
own order.  Fields that are not known are passed over; a known field that comes twice, or a key that
is no text, refuses the record.
-/

namespace BlockIndex.Json

/-- The members of an object by the texts of their keys. -/
def keyed : List (String × Json) → Option (List (String × Json))
  | [] => some []
  | (raw, value) :: rest =>
    match (Json.string raw).text?, keyed rest with
    | some key, some others => some ((key, value) :: others)
    | _, _ => none

/-- The values of some fields in an object, or `none` if one comes twice. -/
def fieldsOf (members : List (String × Json)) : List String → Option (List (Option Json))
  | [] => some []
  | name :: names =>
    match members.filter fun m => m.1 = name, fieldsOf members names with
    | [], some values => some (none :: values)
    | [m], some values => some (some m.2 :: values)
    | _, _ => none

/-- The values of the fields of a record, as far as they are written.  An array may end early only
if `short` is set; an object may always leave fields out. -/
def fields (names : List String) (short : Bool) : Json → Option (List (Option Json))
  | .object members =>
    match keyed members with
    | some members => fieldsOf members names
    | none => none
  | .array items =>
    if items.length = names.length ∨ (short ∧ items.length < names.length) then
      some (items.map some ++ List.replicate (names.length - items.length) none)
    else none
  | _ => none

/-- A field that must be written. -/
def required {α : Type} (read : Json → Option α) : Option Json → Option α
  | some json => read json
  | none => none

/-- A field that may be `null` or left out. -/
def maybe {α : Type} (read : Json → Option α) : Option Json → Option (Option α)
  | some json => nullable? read json
  | none => some none

/-- A field that has a default. -/
def withDefault {α : Type} (value : α) (read : Json → Option α) : Option Json → Option α
  | some json => read json
  | none => some value

end BlockIndex.Json
