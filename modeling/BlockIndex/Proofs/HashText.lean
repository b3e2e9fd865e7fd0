import BlockIndex.Hash

/-!
# Texts of hashes

Which texts are read as a hash, and as which.  They are those of 64 digits of either case, with a
base mark in front or without; the hash is the one that is shown by the same digits in lower case.

* `Hex.isDigit`  the digits of base 16, of either case.

Main statements: `Hex.decodeChars_eq_ok_iff` (texts of byte strings), `Hash.ofHex_eq_ok_iff`,
`Hash.texts_exact`.
-/

namespace BlockIndex

namespace Hex

variable {c : Char} {cs : List Char} {bytes : Bytes} {index n : Nat}

/-! ## Digits -/

/-- Whether a character is a digit of base 16, of either case. -/
def isDigit (c : Char) : Bool :=
  ('0' ≤ c && c ≤ '9') || ('a' ≤ c && c ≤ 'f') || ('A' ≤ c && c ≤ 'F')

theorem isSome_digitValue? (c : Char) : (digitValue? c).isSome = isDigit c := by
  unfold digitValue? isDigit
  split
  · next h => simp [h.1, h.2]
  · split
    · next h => simp [h.1, h.2]
    · split
      · next h => simp [h.1, h.2]
      · simp_all

theorem toNat_lt_of_isDigit (h : isDigit c = true) : c.toNat < 128 := by
  simp only [isDigit, Bool.or_eq_true, Bool.and_eq_true, decide_eq_true_eq] at h
  rcases h with (⟨_, hlast⟩ | ⟨_, hlast⟩) | ⟨_, hlast⟩
  · exact Nat.lt_of_le_of_lt (show c.toNat ≤ '9'.toNat from hlast) (by decide)
  · exact Nat.lt_of_le_of_lt (show c.toNat ≤ 'f'.toNat from hlast) (by decide)
  · exact Nat.lt_of_le_of_lt (show c.toNat ≤ 'F'.toNat from hlast) (by decide)

/-- A digit is one byte, and its value is written by the same digit in lower case. -/
theorem digitValue?_of_isDigit (h : isDigit c = true) :
    ∃ n, digitValue? c = some n ∧ n < 16 ∧ digitChar n = c.toLower ∧ c.utf8Size = 1 := by
  have hall : ∀ m < 128, isDigit (Char.ofNat m) = true → (digitValue? (Char.ofNat m)).any
      (fun n => n < 16 ∧ digitChar n = (Char.ofNat m).toLower ∧ (Char.ofNat m).utf8Size = 1)
        = true := by decide
  have hc := hall c.toNat (toNat_lt_of_isDigit h)
  rw [Char.ofNat_toNat] at hc
  obtain ⟨n, hn, hspec⟩ := (Option.any_eq_true ..).1 (hc h)
  exact ⟨n, hn, of_decide_eq_true hspec⟩

theorem digitChar_inj {m : Nat} (hm : m < 16) (hn : n < 16) (h : digitChar m = digitChar n) :
    m = n := by
  have hvalue := digitValue?_digitChar hm
  rw [h, digitValue?_digitChar hn] at hvalue
  exact (Option.some.inj hvalue).symm

theorem digitAt_eq_ok_iff :
    digitAt index c = .ok n ↔ isDigit c = true ∧ n < 16 ∧ digitChar n = c.toLower := by
  unfold digitAt
  constructor
  · intro h
    split at h
    · next m hm =>
      have hdigit : isDigit c = true := by
        rw [← isSome_digitValue?, hm]
        rfl
      obtain ⟨k, hk, hlt, hlower, _⟩ := digitValue?_of_isDigit hdigit
      obtain rfl := Except.ok.inj h
      obtain rfl := Option.some.inj (hm.symm.trans hk)
      exact ⟨hdigit, hlt, hlower⟩
    · simp at h
  · rintro ⟨hdigit, hlt, hlower⟩
    obtain ⟨k, hk, hlt', hlower', _⟩ := digitValue?_of_isDigit hdigit
    rw [hk, digitChar_inj hlt hlt' (hlower.trans hlower'.symm)]

/-! ## Texts of byte strings -/

theorem length_encodeChars (bytes : Bytes) : (encodeChars bytes).length = 2 * bytes.length := by
  induction bytes with
  | nil => rfl
  | cons b rest ih =>
    rw [encodeChars, List.length_cons, List.length_cons, ih, List.length_cons]
    omega

theorem encodeChars_cons_eq_iff {b : UInt8} {high low : Nat} {ds : List Char} (hhigh : high < 16)
    (hlow : low < 16) :
    encodeChars (b :: bytes) = digitChar high :: digitChar low :: ds
      ↔ b = UInt8.ofNat (16 * high + low) ∧ encodeChars bytes = ds := by
  have hb : b.toNat < 256 := b.toNat_lt
  rw [encodeChars, List.cons.injEq, List.cons.injEq, ← and_assoc]
  refine and_congr_left fun _ => ⟨?_, ?_⟩
  · rintro ⟨hfirst, hsecond⟩
    have := digitChar_inj (by omega) hhigh hfirst
    have := digitChar_inj (by omega) hlow hsecond
    rw [show 16 * high + low = b.toNat by omega]
    exact UInt8.ofNat_toNat.symm
  · rintro rfl
    rw [UInt8.toNat_ofNat_of_lt' (by simp only [UInt8.size]; omega)]
    rw [show (16 * high + low) / 16 = high by omega, show (16 * high + low) % 16 = low by omega]
    exact ⟨rfl, rfl⟩

/-- What is read are pairs of digits, and the same digits in lower case write it. -/
theorem digits_of_decodeFrom (h : decodeFrom index cs = .ok bytes) :
    cs.all isDigit = true ∧ encodeChars bytes = cs.map Char.toLower := by
  fun_induction decodeFrom index cs generalizing bytes with
  | case7 index high low rest hv hhigh lv hlow tail htail ih =>
    obtain ⟨hdigit, hlt, hlower⟩ := digitAt_eq_ok_iff.1 hhigh
    obtain ⟨hdigit', hlt', hlower'⟩ := digitAt_eq_ok_iff.1 hlow
    obtain ⟨hall, hrest⟩ := ih htail
    obtain rfl := Except.ok.inj h
    rw [List.all_cons, List.all_cons, hdigit, hdigit', hall, List.map_cons, List.map_cons, ← hlower,
      ← hlower', ← hrest]
    exact ⟨rfl, (encodeChars_cons_eq_iff hlt hlt').2 ⟨rfl, rfl⟩⟩
  | case1 =>
    obtain rfl := Except.ok.inj h
    exact ⟨rfl, rfl⟩
  | _ => simp at h

/-- Digits of either case are read as what they write in lower case. -/
theorem decodeFrom_of_digits (index : Nat) (hall : cs.all isDigit = true)
    (h : encodeChars bytes = cs.map Char.toLower) : decodeFrom index cs = .ok bytes := by
  induction bytes generalizing index cs with
  | nil =>
    obtain rfl := List.map_eq_nil_iff.1 h.symm
    rfl
  | cons b rest ih =>
    have hlength := congrArg List.length h
    rw [length_encodeChars, List.length_map, List.length_cons] at hlength
    match cs, hlength, hall, h with
    | high :: low :: ds, _, hall, h =>
      simp only [List.all_cons, Bool.and_eq_true] at hall
      obtain ⟨hhigh, hlow, hds⟩ := hall
      obtain ⟨hv, _, hlt, hlower, _⟩ := digitValue?_of_isDigit hhigh
      obtain ⟨lv, _, hlt', hlower', _⟩ := digitValue?_of_isDigit hlow
      rw [List.map_cons, List.map_cons, ← hlower, ← hlower', encodeChars_cons_eq_iff hlt hlt'] at h
      rw [decodeFrom, digitAt_eq_ok_iff.2 ⟨hhigh, hlt, hlower⟩,
        digitAt_eq_ok_iff.2 ⟨hlow, hlt', hlower'⟩, ih (index + 2) hds h.2, h.1]

/-- Every even number of digits writes bytes. -/
theorem exists_encodeChars {count : Nat} (hall : cs.all isDigit = true)
    (hlength : cs.length = 2 * count) :
    ∃ bytes : Bytes, bytes.length = count ∧ encodeChars bytes = cs.map Char.toLower := by
  induction count generalizing cs with
  | zero =>
    obtain rfl := List.length_eq_zero_iff.1 hlength
    exact ⟨[], rfl, rfl⟩
  | succ count ih =>
    match cs, hall, hlength with
    | high :: low :: ds, hall, hlength =>
      simp only [List.all_cons, Bool.and_eq_true] at hall
      obtain ⟨hhigh, hlow, hds⟩ := hall
      obtain ⟨hv, _, hlt, hlower, _⟩ := digitValue?_of_isDigit hhigh
      obtain ⟨lv, _, hlt', hlower', _⟩ := digitValue?_of_isDigit hlow
      obtain ⟨rest, hrest, hchars⟩ := ih hds (by simp only [List.length_cons] at hlength; omega)
      refine ⟨UInt8.ofNat (16 * hv + lv) :: rest, by rw [List.length_cons, hrest], ?_⟩
      rw [List.map_cons, List.map_cons, ← hlower, ← hlower']
      exact (encodeChars_cons_eq_iff hlt hlt').2 ⟨rfl, hchars⟩

theorem utf8Length_of_digits (h : cs.all isDigit = true) : utf8Length cs = cs.length := by
  induction cs with
  | nil => rfl
  | cons c rest ih =>
    simp only [List.all_cons, Bool.and_eq_true] at h
    obtain ⟨_, _, _, _, hsize⟩ := digitValue?_of_isDigit h.1
    rw [utf8Length, hsize, ih h.2, List.length_cons, Nat.add_comm]

/-- **Texts of byte strings.**  A text is read just if it consists of digits, as the bytes that the
same digits write in lower case. -/
theorem decodeChars_eq_ok_iff :
    decodeChars cs = .ok bytes
      ↔ cs.all isDigit = true ∧ encodeChars bytes = cs.map Char.toLower := by
  unfold decodeChars
  constructor
  · intro h
    split at h
    · simp at h
    · exact digits_of_decodeFrom h
  · rintro ⟨hall, h⟩
    have hlength := congrArg List.length h
    rw [length_encodeChars, List.length_map, ← utf8Length_of_digits hall] at hlength
    rw [if_neg (by omega)]
    exact decodeFrom_of_digits 0 hall h

end Hex

namespace Hash

variable {s : String} {hash : Hash} {digits cs : List Char}

/-! ## The mark in front -/

theorem dropMark_of_digits (h : cs.all Hex.isDigit = true) : dropMark cs = cs := by
  unfold dropMark
  split
  · next rest =>
    simp only [List.all_cons, Bool.and_eq_true] at h
    exact absurd h.2.1 (by decide)
  · rfl

theorem eq_or_of_dropMark (cs : List Char) : cs = dropMark cs ∨ cs = '0' :: 'x' :: dropMark cs := by
  unfold dropMark
  split
  · exact Or.inr rfl
  · exact Or.inl rfl

theorem toList_marked (s : String) : ("0x" ++ s).toList = '0' :: 'x' :: s.toList := by
  rw [String.toList_append]
  rfl

/-! ## Texts of hashes -/

theorem toList_toHex (hash : Hash) : hash.toHex.toList = Hex.encodeChars hash.bytes.reverse :=
  String.toList_ofList

/-- What stands after the mark is read just if it is the shown form of a hash in some case. -/
theorem ofHex_eq_ok_iff :
    ofHex s = .ok hash ↔ (dropMark s.toList).all Hex.isDigit = true ∧
      hash.toHex.toList = (dropMark s.toList).map Char.toLower := by
  rw [toList_toHex]
  constructor
  · intro h
    unfold ofHex at h
    dsimp only at h
    split at h
    · simp at h
    next bytes hbytes =>
    split at h
    · next found hfound =>
      obtain rfl := Except.ok.inj h
      unfold ofBytes? at hfound
      split at hfound
      · obtain rfl := Option.some.inj hfound
        rw [List.reverse_reverse]
        exact Hex.decodeChars_eq_ok_iff.1 hbytes
      · simp at hfound
    · simp at h
  · intro h
    unfold ofHex
    dsimp only
    rw [Hex.decodeChars_eq_ok_iff.2 h]
    dsimp only
    rw [List.reverse_reverse, ofBytes?_bytes]

/-- A text consists of these 64 digits, with a base mark in front or without. -/
structure IsText (s : String) (digits : List Char) : Prop where
  marked : s = String.ofList digits ∨ s = "0x" ++ String.ofList digits
  length : digits.length = 64
  digits : digits.all Hex.isDigit = true

/-- The digits of a text are what stands after its mark. -/
theorem isText_iff :
    IsText s digits ↔ dropMark s.toList = digits ∧ digits.length = 64 ∧
      digits.all Hex.isDigit = true := by
  constructor
  · intro h
    refine ⟨?_, h.length, h.digits⟩
    rcases h.marked with hs | hs
    · rw [hs, String.toList_ofList, dropMark_of_digits h.digits]
    · rw [hs, toList_marked, String.toList_ofList]
      rfl
  · rintro ⟨rfl, hlength, hdigits⟩
    refine ⟨?_, hlength, hdigits⟩
    rcases eq_or_of_dropMark s.toList with h | h
    · left
      rw [← h, String.ofList_toList]
    · right
      rwa [← String.toList_inj, toList_marked, String.toList_ofList]

theorem length_toHex (hash : Hash) : hash.toHex.toList.length = 64 := by
  rw [toList_toHex, Hex.length_encodeChars, List.length_reverse, hash.length_eq]

/-- The text of a hash in some case, marked or not. -/
theorem ofHex_eq_ok_iff_isText :
    ofHex s = .ok hash ↔
      ∃ digits, IsText s digits ∧ hash.toHex = String.ofList (digits.map Char.toLower) := by
  rw [ofHex_eq_ok_iff]
  constructor
  · rintro ⟨hdigits, hshown⟩
    have hlength := congrArg List.length hshown
    rw [length_toHex, List.length_map] at hlength
    exact ⟨_, isText_iff.2 ⟨rfl, hlength.symm, hdigits⟩, by rw [← hshown, String.ofList_toList]⟩
  · rintro ⟨digits, htext, hshown⟩
    obtain ⟨rfl, _, hdigits⟩ := isText_iff.1 htext
    exact ⟨hdigits, by rw [hshown, String.toList_ofList]⟩

theorem exists_toHex (hlength : digits.length = 64) (hdigits : digits.all Hex.isDigit = true) :
    ∃ hash : Hash, hash.toHex = String.ofList (digits.map Char.toLower) := by
  have hlength : digits.length = 2 * 32 := hlength
  obtain ⟨bytes, hbytes, hchars⟩ := Hex.exists_encodeChars hdigits hlength
  refine ⟨⟨bytes.reverse, by rw [List.length_reverse, hbytes]⟩, ?_⟩
  rw [← String.toList_inj, toList_toHex, String.toList_ofList, List.reverse_reverse, hchars]

theorem ofHex_marked (hash : Hash) : ofHex ("0x" ++ hash.toHex) = .ok hash := by
  have hsame : dropMark ("0x" ++ hash.toHex).toList = dropMark hash.toHex.toList := by
    rw [toList_marked, toList_toHex, dropMark_encodeChars]
    rfl
  have hread := ofHex_toHex hash
  unfold ofHex at hread ⊢
  rwa [hsame]

/-- **Texts of hashes.**  A text is read as a hash just if it consists of 64 digits, with a base
mark in front or without, and the hash is then the one that the same digits show in lower case.
Every hash is read from the text that shows it, marked or not. -/
theorem texts_exact :
    (∀ s, (∃ hash, ofHex s = .ok hash) ↔ ∃ digits, IsText s digits) ∧
      (∀ s hash, ofHex s = .ok hash ↔
        ∃ digits, IsText s digits ∧ hash.toHex = String.ofList (digits.map Char.toLower)) ∧
      ∀ hash : Hash, ofHex hash.toHex = .ok hash ∧ ofHex ("0x" ++ hash.toHex) = .ok hash := by
  refine ⟨fun s => ⟨?_, ?_⟩, fun s hash => ofHex_eq_ok_iff_isText,
    fun hash => ⟨ofHex_toHex hash, ofHex_marked hash⟩⟩
  · rintro ⟨hash, hread⟩
    obtain ⟨digits, htext, _⟩ := ofHex_eq_ok_iff_isText.1 hread
    exact ⟨digits, htext⟩
  · rintro ⟨digits, htext⟩
    obtain ⟨hash, hshown⟩ := exists_toHex htext.length htext.digits
    exact ⟨hash, ofHex_eq_ok_iff_isText.2 ⟨digits, htext, hshown⟩⟩

end Hash

end BlockIndex
