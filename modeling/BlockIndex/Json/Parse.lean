import BlockIndex.Json.Token

/-!
# Reading JSON

The value of a list of tokens, found in one pass with the unfinished arrays and objects on a stack,
so that nesting has no limit.
-/

namespace BlockIndex.Json

/-- An unfinished array or object, its members the last one first. -/
inductive Frame where
  | array (items : List Json)
  | object (members : List (String × Json))
  /-- An object whose next member has its key already. -/
  | member (members : List (String × Json)) (key : String)

/-- What may come next. -/
inductive Expectation where
  | value
  /-- A value or the end of an array. -/
  | firstItem
  /-- A key or the end of an object. -/
  | firstKey
  | key
  | colon (key : String)
  /-- A comma or the end of what is unfinished. -/
  | next

/-- How far the pass has come. -/
inductive ParseState where
  | inside (stack : List Frame) (expected : Expectation)
  | whole (value : Json)

/-- The state after a finished value. -/
def complete (value : Json) : List Frame → Option ParseState
  | [] => some (.whole value)
  | .array items :: stack => some (.inside (.array (value :: items) :: stack) .next)
  | .member members key :: stack =>
    some (.inside (.object ((key, value) :: members) :: stack) .next)
  | .object _ :: _ => none

/-- The state after a value has begun. -/
def begin (token : Token) (stack : List Frame) : Option ParseState :=
  match token with
  | .leaf value => complete value stack
  | .openArray => some (.inside (.array [] :: stack) .firstItem)
  | .openObject => some (.inside (.object [] :: stack) .firstKey)
  | _ => none

/-- The state after what is unfinished has ended. -/
def finish (token : Token) (stack : List Frame) : Option ParseState :=
  match token, stack with
  | .closeArray, .array items :: stack => complete (.array items.reverse) stack
  | .closeObject, .object members :: stack => complete (.object members.reverse) stack
  | _, _ => none

/-- The state after a token. -/
def parseStep (state : ParseState) (token : Token) : Option ParseState :=
  match state with
  | .whole _ => none
  | .inside stack expected =>
    match expected, token, stack with
    | .value, token, stack => begin token stack
    | .firstItem, .closeArray, stack => finish .closeArray stack
    | .firstItem, token, stack => begin token stack
    | .firstKey, .closeObject, stack => finish .closeObject stack
    | .firstKey, .leaf (.string key), stack => some (.inside stack (.colon key))
    | .key, .leaf (.string key), stack => some (.inside stack (.colon key))
    | .colon key, .colon, .object members :: stack =>
      some (.inside (.member members key :: stack) .value)
    | .next, .comma, .array items :: stack => some (.inside (.array items :: stack) .value)
    | .next, .comma, .object members :: stack => some (.inside (.object members :: stack) .key)
    | .next, token, stack => finish token stack
    | _, _, _ => none

/-- The value of the remaining tokens. -/
def parseFrom : ParseState → List Token → Option Json
  | .whole value, [] => some value
  | .inside _ _, [] => none
  | state, token :: rest =>
    match parseStep state token with
    | some state => parseFrom state rest
    | none => none

/-- The value of a text, if it is JSON and nothing else. -/
def parse (s : String) : Option Json :=
  match tokens s with
  | some found => parseFrom (.inside [] .value) found
  | none => none

end BlockIndex.Json
