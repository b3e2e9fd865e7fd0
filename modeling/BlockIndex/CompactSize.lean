import BlockIndex.Bytes

/-!
# Compact sizes

Counts and lengths inside blocks.  A first byte below 253 is the number itself; 253, 254 and 255
announce a number of two, four or eight bytes, lowest first.  Reading takes longer forms than
needed; writing gives the shortest.

* `decode?`  the number at the start of a byte string;
* `encode`   the shortest form of a number;
* `Writes`   the forms of a number, the shortest and the longer ones.

Main statements: `decode?_take`, `decode?_eq_some_iff`, `decode?_encode_append`.
-/

namespace BlockIndex.CompactSize

/-- How many bytes follow a first byte. -/
def following (first : UInt8) : Nat :=
  if first = 0xfd then 2 else if first = 0xfe then 4 else if first = 0xff then 8 else 0

/-- The number at the start of a byte string and how many bytes write it, or `none` if the string
is too short. -/
def decode? : Bytes → Option (Nat × Nat)
  | [] => none
  | first :: rest =>
    let more := following first
    if more = 0 then some (first.toNat, 1)
    else
      match splitFront more rest with
      | some (digits, _) => some (LittleEndian.decode digits, 1 + more)
      | none => none

/-- Reading looks at nine bytes at most. -/
theorem decode?_take {n : Nat} (h : 9 ≤ n) (bytes : Bytes) :
    decode? (bytes.take n) = decode? bytes := by
  obtain ⟨k, rfl⟩ : ∃ k, n = k + 1 := ⟨n - 1, by omega⟩
  cases bytes with
  | nil => rfl
  | cons first rest =>
    have hmore : following first ≤ k := by
      have hmost : following first ≤ 8 := by
        unfold following
        repeat' split
        all_goals decide
      omega
    simp only [List.take_succ_cons, decode?]
    generalize following first = more at hmore
    split
    · rfl
    · cases hsplit : splitFront more rest with
      | none =>
        have hnone : splitFront more (rest.take k) = none := by
          rw [splitFront_eq_none_iff] at hsplit ⊢
          rw [List.length_take]
          omega
        rw [hnone]
      | some parts =>
        obtain ⟨digits, after⟩ := parts
        obtain ⟨rfl, hlen⟩ := splitFront_eq_some_iff.1 hsplit
        have hsome : splitFront more ((digits ++ after).take k)
            = some (digits, after.take (k - more)) := by
          rw [splitFront_eq_some_iff, List.take_append, hlen, List.take_of_length_le (by omega)]
          exact ⟨rfl, rfl⟩
        rw [hsome]

/-- The shortest form of a number below `2 ^ 64`. -/
def encode (n : Nat) : Bytes :=
  if n < 0xfd then [UInt8.ofNat n]
  else if n < 0x1_0000 then 0xfd :: LittleEndian.encode 2 n
  else if n < 0x1_0000_0000 then 0xfe :: LittleEndian.encode 4 n
  else 0xff :: LittleEndian.encode 8 n

/-! ## Forms -/

/-- The forms of a number: the shortest one, and the longer ones that reading takes too. -/
inductive Writes : Bytes → Nat → Prop
  | byte {first : UInt8} (h : first < 0xfd) : Writes [first] first.toNat
  | two {digits : Bytes} (h : digits.length = 2) :
    Writes (0xfd :: digits) (LittleEndian.decode digits)
  | four {digits : Bytes} (h : digits.length = 4) :
    Writes (0xfe :: digits) (LittleEndian.decode digits)
  | eight {digits : Bytes} (h : digits.length = 8) :
    Writes (0xff :: digits) (LittleEndian.decode digits)

theorem writes_one : Writes [1] 1 := .byte (by decide)

theorem following_eq_zero_iff {first : UInt8} : following first = 0 ↔ first < 0xfd := by
  have hbyte := first.toNat_lt
  unfold following
  repeat' split
  all_goals simp_all [UInt8.lt_iff_toNat_lt, ← UInt8.toNat_inj]
  all_goals omega

theorem Writes.wide {first : UInt8} {digits : Bytes} (hwide : following first ≠ 0)
    (hlen : digits.length = following first) :
    Writes (first :: digits) (LittleEndian.decode digits) := by
  unfold following at hwide hlen
  split at hlen
  · next hfirst => exact hfirst ▸ .two hlen
  · split at hlen
    · next hfirst => exact hfirst ▸ .four hlen
    · split at hlen
      · next hfirst => exact hfirst ▸ .eight hlen
      · next h2 h4 h8 => simp [h2, h4, h8] at hwide

theorem Writes.length_pos {form : Bytes} {n : Nat} (h : Writes form n) : 0 < form.length := by
  cases h <;> simp

theorem Writes.length_le {form : Bytes} {n : Nat} (h : Writes form n) : form.length ≤ 9 := by
  cases h <;> simp [*]

theorem Writes.decode?_append {form : Bytes} {n : Nat} (h : Writes form n) (rest : Bytes) :
    decode? (form ++ rest) = some (n, form.length) := by
  have wide : ∀ (first : UInt8) (digits : Bytes), following first = digits.length →
      digits.length ≠ 0 → decode? ((first :: digits) ++ rest)
        = some (LittleEndian.decode digits, (first :: digits).length) := by
    intro first digits hf hw
    have hsplit : splitFront digits.length (digits ++ rest) = some (digits, rest) :=
      splitFront_eq_some_iff.2 ⟨rfl, rfl⟩
    simp only [List.cons_append, decode?, hf, if_neg hw, hsplit, List.length_cons, Nat.add_comm]
  cases h with
  | byte h => simp [decode?, following_eq_zero_iff.2 h]
  | two h => exact wide 0xfd _ h.symm (by omega)
  | four h => exact wide 0xfe _ h.symm (by omega)
  | eight h => exact wide 0xff _ h.symm (by omega)

/-- **Reading a number** is finding one of its forms. -/
theorem decode?_eq_some_iff {bytes : Bytes} {n used : Nat} :
    decode? bytes = some (n, used) ↔
      ∃ form rest, Writes form n ∧ form.length = used ∧ bytes = form ++ rest := by
  constructor
  · intro h
    cases bytes with
    | nil => simp [decode?] at h
    | cons first rest =>
      simp only [decode?] at h
      split at h
      · next hone =>
        obtain ⟨rfl, rfl⟩ := Prod.mk.inj (Option.some.inj h)
        exact ⟨[first], rest, .byte (following_eq_zero_iff.1 hone), rfl, rfl⟩
      · next hwide =>
        split at h
        · next digits after hsplit =>
          obtain ⟨rfl, rfl⟩ := Prod.mk.inj (Option.some.inj h)
          obtain ⟨rfl, hlen⟩ := splitFront_eq_some_iff.1 hsplit
          exact ⟨first :: digits, after, .wide hwide hlen, by simp [hlen, Nat.add_comm], rfl⟩
        · simp at h
  · rintro ⟨form, rest, h, rfl, rfl⟩
    exact h.decode?_append rest

theorem writes_encode {n : Nat} (h : n < 0x1_0000_0000_0000_0000) : Writes (encode n) n := by
  have digits (width : Nat) (hn : n < LittleEndian.limit width) :
      LittleEndian.decode (LittleEndian.encode width n) = n := by
    rw [LittleEndian.decode_encode, Nat.mod_eq_of_lt hn]
  unfold encode
  split
  · next hn =>
    have hbyte : (UInt8.ofNat n).toNat = n := by
      rw [UInt8.toNat_ofNat']
      omega
    have hsmall : UInt8.ofNat n < 0xfd := by
      rw [UInt8.lt_iff_toNat_lt, hbyte]
      exact hn
    have hwrites := Writes.byte hsmall
    rwa [hbyte] at hwrites
  · split
    · next hn =>
      have hwrites := Writes.two (LittleEndian.length_encode 2 n)
      rwa [digits 2 hn] at hwrites
    · split
      · next hn =>
        have hwrites := Writes.four (LittleEndian.length_encode 4 n)
        rwa [digits 4 hn] at hwrites
      · have hwrites := Writes.eight (LittleEndian.length_encode 8 n)
        rwa [digits 8 h] at hwrites

theorem decode?_encode_append {n : Nat} (h : n < 0x1_0000_0000_0000_0000) (rest : Bytes) :
    decode? (encode n ++ rest) = some (n, (encode n).length) :=
  (writes_encode h).decode?_append rest

end BlockIndex.CompactSize
