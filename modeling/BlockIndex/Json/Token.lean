import BlockIndex.Json.Value

/-!
# JSON tokens

The words, numbers, strings and marks of a JSON text, found in one pass over its characters.  What
stands between tokens may only be blank.  Strings are checked for form and kept as written.
-/

namespace BlockIndex.Json

/-- A token. -/
inductive Token where
  | openArray
  | closeArray
  | openObject
  | closeObject
  | comma
  | colon
  /-- A whole value: a word, a number or a string. -/
  | leaf (value : Json)

/-- Inside what the pass stands.  Characters of an unfinished token come last one first. -/
inductive LexMode where
  | between
  | word (taken : List Char)
  | number (taken : List Char)
  | string (taken : List Char)
  /-- After a backslash in a string. -/
  | escape (taken : List Char)
  /-- Before so many more base-16 digits in a string. -/
  | digits (taken : List Char) (more : Nat)

/-! ## Numbers -/

/-- Whether a character is a decimal digit. -/
def isDigit (c : Char) : Bool := '0' ≤ c && c ≤ '9'

/-- Whether a list is empty or an exponent. -/
def isExponent : List Char → Bool
  | [] => true
  | e :: rest =>
    (e = 'e' || e = 'E') &&
      (let digits := match rest with
        | '+' :: ds => ds
        | '-' :: ds => ds
        | ds => ds
       !digits.isEmpty && digits.all isDigit)

/-- Whether a list is empty, an exponent, or a fraction and perhaps an exponent. -/
def isFraction : List Char → Bool
  | '.' :: rest => !(rest.takeWhile isDigit).isEmpty && isExponent (rest.dropWhile isDigit)
  | cs => isExponent cs

/-- Whether a list is a number without its sign.  Only a lone zero starts with one. -/
def isUnsigned : List Char → Bool
  | '0' :: rest => isFraction rest
  | cs => !(cs.takeWhile isDigit).isEmpty && isFraction (cs.dropWhile isDigit)

/-- Whether a list is a number. -/
def isNumber : List Char → Bool
  | '-' :: rest => isUnsigned rest
  | cs => isUnsigned cs

/-! ## The pass -/

/-- The value of a word. -/
def wordValue? (letters : List Char) : Option Json :=
  if letters = ['n', 'u', 'l', 'l'] then some .null
  else if letters = ['t', 'r', 'u', 'e'] then some (.bool true)
  else if letters = ['f', 'a', 'l', 's', 'e'] then some (.bool false)
  else none

/-- The value of a word or number that ends here. -/
def LexMode.leaf? : LexMode → Option Json
  | .word taken => wordValue? taken.reverse
  | .number taken =>
    let literal := taken.reverse
    if isNumber literal then some (.number (String.ofList literal)) else none
  | _ => none

/-- What a character between tokens does, given the tokens found, the last one first. -/
def startToken (c : Char) (found : List Token) : Option (LexMode × List Token) :=
  if c = ' ' ∨ c = '\t' ∨ c = '\n' ∨ c = '\r' then some (.between, found)
  else if c = '[' then some (.between, .openArray :: found)
  else if c = ']' then some (.between, .closeArray :: found)
  else if c = '\x7b' then some (.between, .openObject :: found)
  else if c = '\x7d' then some (.between, .closeObject :: found)
  else if c = ',' then some (.between, .comma :: found)
  else if c = ':' then some (.between, .colon :: found)
  else if c = Text.doubleQuote then some (.string [], found)
  else if c = '-' ∨ isDigit c then some (.number [c], found)
  else if 'a' ≤ c ∧ c ≤ 'z' then some (.word [c], found)
  else none

/-- Whether a character can go on a number. -/
def goesOnNumber (c : Char) : Bool :=
  isDigit c || c = '.' || c = 'e' || c = 'E' || c = '+' || c = '-'

/-- What a character does. -/
def lexStep (mode : LexMode) (c : Char) (found : List Token) : Option (LexMode × List Token) :=
  let finish := match mode.leaf? with
    | some value => startToken c (.leaf value :: found)
    | none => none
  match mode with
  | .between => startToken c found
  | .word taken => if 'a' ≤ c ∧ c ≤ 'z' then some (.word (c :: taken), found) else finish
  | .number taken => if goesOnNumber c then some (.number (c :: taken), found) else finish
  | .string taken =>
    if c = Text.doubleQuote then
      some (.between, .leaf (.string (String.ofList taken.reverse)) :: found)
    else if c = '\\' then some (.escape (c :: taken), found)
    else if c.toNat < 0x20 then none
    else some (.string (c :: taken), found)
  | .escape taken =>
    if c = 'u' then some (.digits (c :: taken) 4, found)
    else if (shortEscape? c).isSome then some (.string (c :: taken), found)
    else none
  | .digits taken more =>
    if (hexDigit? c).isSome then
      if more ≤ 1 then some (.string (c :: taken), found)
      else some (.digits (c :: taken) (more - 1), found)
    else none

/-- The tokens of the remaining characters after those found. -/
def lexFrom : LexMode → List Token → List Char → Option (List Token)
  | .between, found, [] => some found.reverse
  | mode, found, [] => mode.leaf?.map fun value => (Token.leaf value :: found).reverse
  | mode, found, c :: rest =>
    match lexStep mode c found with
    | some (mode, found) => lexFrom mode found rest
    | none => none

/-- The tokens of a text, unless something in it is none. -/
def tokens (s : String) : Option (List Token) := lexFrom .between [] s.toList

end BlockIndex.Json
