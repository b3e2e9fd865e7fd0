/-!
# Decimal numerals

Numbers kept as text: an optional plus sign and then one or more ASCII digits, leading zeros
allowed, with the value below a limit.

* `digitValue?`   the value of one digit;
* `digits?`       the value of a list of digits;
* `numeral? n s`  the number that `s` writes, if it is below `n`.

Main statement: `numeral?_lt`.
-/

namespace BlockIndex.Text

/-- The value of an ASCII decimal digit. -/
def digitValue? (c : Char) : Option Nat :=
  if '0' ≤ c ∧ c ≤ '9' then some (c.toNat - '0'.toNat) else none

/-- The value of a list of decimal digits read after a value of `start`. -/
def digitsFrom? (start : Nat) : List Char → Option Nat
  | [] => some start
  | c :: rest =>
    match digitValue? c with
    | some d => digitsFrom? (10 * start + d) rest
    | none => none

/-- The value of a nonempty list of decimal digits. -/
def digits? : List Char → Option Nat
  | [] => none
  | cs => digitsFrom? 0 cs

/-- The number below `limit` that a text writes. -/
def numeral? (limit : Nat) (s : String) : Option Nat :=
  let digits := match s.toList with
    | '+' :: rest => rest
    | cs => cs
  match digits? digits with
  | some n => if n < limit then some n else none
  | none => none

theorem numeral?_lt {limit n : Nat} {s : String} (h : numeral? limit s = some n) : n < limit := by
  unfold numeral? at h
  simp only at h
  split at h
  · split at h
    · next hlt => simp only [Option.some.injEq] at h; omega
    · simp at h
  · simp at h

end BlockIndex.Text
