import BlockIndex.Text.Visible

/-!
# Quoted text

Text shown between quotes in a message, with what cannot be seen written as an escape: the tab,
line feed, carriage return and zero characters and the backslash have two-character escapes, and
every other character that does not show is written by its code point in lower-case base 16.

* `quotedChar`   one character between single quotes;
* `quotedText`   a text between double quotes;
* `quotedMaybe`  a text that may be absent.

Main statement: `isVisible_of_mem_quotedText`.
-/

namespace BlockIndex.Text

/-- The digits of `n` in base 16, lower case, without leading zeros. -/
def hexDigits (n : Nat) : List Char := Nat.toDigits 16 n

theorem isVisible_of_mem_hexDigits {n : Nat} {c : Char} (h : c ∈ hexDigits n) :
    isVisible c = true := by
  have hascii : ∀ d < 16, 0x20 ≤ d.digitChar.toNat ∧ d.digitChar.toNat < 0x7f := by decide
  have hdigit : ∀ d < 16, isVisible d.digitChar = true := fun d hd =>
    isVisible_of_ascii (hascii d hd).1 (hascii d hd).2
  unfold hexDigits at h
  induction n using Nat.strongRecOn with
  | ind n ih =>
    rw [Nat.toDigits_eq_if (by decide)] at h
    split at h
    · next hlt =>
      rw [List.mem_singleton.1 h]
      exact hdigit n hlt
    · next hge =>
      rcases List.mem_append.1 h with h | h
      · exact ih (n / 16) (by omega) h
      · rw [List.mem_singleton.1 h]
        exact hdigit _ (by omega)

/-- A base-16 numeral of at least eight digits after the base mark. -/
def hexWord (n : Nat) : String :=
  let digits := hexDigits n
  "0x" ++ String.ofList (List.replicate (8 - digits.length) '0' ++ digits)

/-- A character as it stands between quotes of the kind `quote`. -/
def escapeChar (quote c : Char) : List Char :=
  if c = Char.ofNat 0 then ['\\', '0']
  else if c = '\t' then ['\\', 't']
  else if c = '\r' then ['\\', 'r']
  else if c = '\n' then ['\\', 'n']
  else if c = quote ∨ c = '\\' then ['\\', c]
  else if isVisible c then [c]
  else ['\\', 'u', '\x7b'] ++ hexDigits c.toNat ++ ['\x7d']

/-- Whatever the character, what is written for it shows. -/
theorem isVisible_of_mem_escapeChar {quote c d : Char} (hquote : isVisible quote = true)
    (h : d ∈ escapeChar quote c) : isVisible d = true := by
  have hslash : isVisible '\\' = true := isVisible_of_ascii (by decide) (by decide)
  have hpair {e : Char} (he : isVisible e = true) (h : d ∈ ['\\', e]) : isVisible d = true := by
    rcases List.mem_cons.1 h with rfl | h
    · exact hslash
    · rw [List.mem_singleton.1 h]
      exact he
  unfold escapeChar at h
  split at h
  · exact hpair (isVisible_of_ascii (by decide) (by decide)) h
  split at h
  · exact hpair (isVisible_of_ascii (by decide) (by decide)) h
  split at h
  · exact hpair (isVisible_of_ascii (by decide) (by decide)) h
  split at h
  · exact hpair (isVisible_of_ascii (by decide) (by decide)) h
  split at h
  · next hsame =>
    refine hpair ?_ h
    rcases hsame with rfl | rfl
    · exact hquote
    · exact hslash
  split at h
  · next hshows =>
    rw [List.mem_singleton.1 h]
    exact hshows
  · rcases List.mem_append.1 h with h | hback
    · rcases List.mem_append.1 h with hfront | hdigits
      · rcases List.mem_cons.1 hfront with rfl | hfront
        · exact hslash
        rcases List.mem_cons.1 hfront with rfl | hfront
        · exact isVisible_of_ascii (by decide) (by decide)
        · rw [List.mem_singleton.1 hfront]
          exact isVisible_of_ascii (by decide) (by decide)
      · exact isVisible_of_mem_hexDigits hdigits
    · rw [List.mem_singleton.1 hback]
      exact isVisible_of_ascii (by decide) (by decide)

/-- The single quote. -/
def singleQuote : Char := Char.ofNat 39

/-- The double quote. -/
def doubleQuote : Char := Char.ofNat 34

/-- A character between single quotes. -/
def quotedChar (c : Char) : String :=
  String.ofList (singleQuote :: escapeChar singleQuote c ++ [singleQuote])

/-- A text between double quotes. -/
def quotedText (s : String) : String :=
  String.ofList (doubleQuote :: s.toList.flatMap (escapeChar doubleQuote) ++ [doubleQuote])

/-- **A quoted text shows**, whatever the text. -/
theorem isVisible_of_mem_quotedText {s : String} {c : Char} (h : c ∈ (quotedText s).toList) :
    isVisible c = true := by
  have hquote : isVisible doubleQuote = true := isVisible_of_ascii (by decide) (by decide)
  rw [quotedText, String.toList_ofList] at h
  rcases List.mem_cons.1 h with rfl | h
  · exact hquote
  rcases List.mem_append.1 h with h | h
  · obtain ⟨d, _, hd⟩ := List.mem_flatMap.1 h
    exact isVisible_of_mem_escapeChar hquote hd
  · rw [List.mem_singleton.1 h]
    exact hquote

/-- A text that may be absent. -/
def quotedMaybe : Option String → String
  | none => "None"
  | some s => "Some(" ++ quotedText s ++ ")"

/-- A number that may be absent. -/
def shownMaybe : Option Nat → String
  | none => "None"
  | some n => "Some(" ++ toString n ++ ")"

end BlockIndex.Text
