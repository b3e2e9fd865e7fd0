import BlockIndex.BlockFile.Scan
import Mathlib.Data.List.Induction

/-!
# Marks

Where a network's mark stands in the bytes of a block file, and how a search finds it.  The search
reads byte after byte, buffer after buffer, and compares the last four bytes with the mark.  It
finds marks that overlap themselves, and the zeros that its window begins with never pass for bytes.

* `MarkAt`, `NextMark`   the magic's bytes at an offset, and at the first offset from another on;
* `MarkSearch.through`  the search that has gone through some bytes;
* `MarkSearch.At`        a search that has come to an offset without finding a mark.

Main statements: `MarkSearch.hits_through_iff` (the window tells whether a mark ends here),
`MarkSearch.At.sweep` (one buffer, whatever its size), `seekMark_spec` (what is found is the first
mark).
-/

namespace BlockIndex

/-! ## Marks -/

/-- The mark of a network stands at an offset. -/
def MarkAt (magic : UInt32) (bytes : Bytes) (p : Nat) : Prop := bytes32 magic <+: bytes.drop p

/-- The first mark from an offset on. -/
def NextMark (magic : UInt32) (bytes : Bytes) (p place : Nat) : Prop :=
  p ≤ place ∧ MarkAt magic bytes place ∧ ∀ q, p ≤ q → q < place → ¬ MarkAt magic bytes q

section Marks

variable {magic : UInt32} {bytes more : Bytes} {p q place other : Nat}

theorem MarkAt.room (h : MarkAt magic bytes p) : p + 4 ≤ bytes.length := by
  have := h.length_le
  rw [length_bytes32, List.length_drop] at this
  omega

theorem MarkAt.append (h : MarkAt magic bytes p) : MarkAt magic (bytes ++ more) p := by
  have hroom := h.room
  unfold MarkAt
  rw [List.drop_append_of_le_length (by omega)]
  exact h.trans (List.prefix_append _ _)

theorem MarkAt.of_append (h : MarkAt magic (bytes ++ more) p) (hroom : p + 4 ≤ bytes.length) :
    MarkAt magic bytes p := by
  unfold MarkAt at h ⊢
  rw [List.drop_append_of_le_length (by omega)] at h
  refine List.prefix_of_prefix_length_le h (List.prefix_append _ _) ?_
  rw [length_bytes32, List.length_drop]
  omega

theorem NextMark.unique (h : NextMark magic bytes p place) (h' : NextMark magic bytes p other) :
    place = other := by
  rcases Nat.lt_trichotomy place other with hlt | heq | hgt
  · exact absurd h.2.1 (h'.2.2 place h.1 hlt)
  · exact heq
  · exact absurd h'.2.1 (h.2.2 other h'.1 hgt)

theorem NextMark.self (h : MarkAt magic bytes p) : NextMark magic bytes p p :=
  ⟨Nat.le_refl p, h, fun _ hpq hqp => absurd hqp (Nat.not_lt_of_le hpq)⟩

theorem NextMark.append (h : NextMark magic bytes p place) :
    NextMark magic (bytes ++ more) p place := by
  refine ⟨h.1, h.2.1.append, ?_⟩
  intro q hpq hqp hq
  have hroom := h.2.1.room
  exact h.2.2 q hpq hqp (hq.of_append (by omega))

end Marks

/-! ## The window -/

namespace MarkSearch

/-- The search that has gone through some bytes. -/
def through (bytes : Bytes) : MarkSearch := bytes.foldl push start

theorem through_concat (bytes : Bytes) (b : UInt8) :
    through (bytes ++ [b]) = (through bytes).push b :=
  List.foldl_append

theorem seen_through (bytes : Bytes) : (through bytes).seen = bytes.length := by
  induction bytes using List.reverseRecOn with
  | nil => rfl
  | append_singleton bytes b ih =>
    rw [through_concat, List.length_append, ← ih]
    rfl

/-- In numbers, a byte enters the window at the upper end, and the lowest one leaves it. -/
theorem toNat_push (s : MarkSearch) (b : UInt8) :
    (s.push b).window.toNat = s.window.toNat / 256 + b.toNat * 0x100_0000 := by
  have hw : s.window.toNat < 2 ^ 32 := s.window.toNat_lt
  have hb : b.toNat < 256 := b.toNat_lt
  have hlow : s.window.toNat >>> 8 < 2 ^ 24 := by
    rw [Nat.shiftRight_eq_div_pow]
    omega
  have hhigh : (b.toUInt32 <<< 24).toNat = b.toNat <<< 24 := by
    rw [UInt32.toNat_shiftLeft, UInt8.toNat_toUInt32]
    apply Nat.mod_eq_of_lt
    show b.toNat <<< 24 < 2 ^ 32
    rw [Nat.shiftLeft_eq]
    omega
  calc (s.push b).window.toNat
    _ = s.window.toNat >>> 8 ||| b.toNat <<< 24 := by
      rw [← hhigh]
      exact UInt32.toNat_or _ _
    _ = b.toNat <<< 24 + s.window.toNat >>> 8 := by
      rw [Nat.or_comm, Nat.shiftLeft_add_eq_or_of_lt hlow]
    _ = s.window.toNat / 256 + b.toNat * 0x100_0000 := by
      rw [Nat.shiftLeft_eq, Nat.shiftRight_eq_div_pow, Nat.add_comm]

theorem bytes32_push (s : MarkSearch) (b : UInt8) :
    bytes32 (s.push b).window = (bytes32 s.window).drop 1 ++ [b] := by
  have hw : s.window.toNat < 2 ^ 32 := s.window.toNat_lt
  have hb : b.toNat < 256 := b.toNat_lt
  have byte : ∀ m n : Nat, m % 256 = n % 256 → UInt8.ofNat m = UInt8.ofNat n := by
    intro m n h
    apply UInt8.toNat_inj.1
    rw [UInt8.toNat_ofNat', UInt8.toNat_ofNat']
    exact h
  rw [bytes32, bytes32, toNat_push]
  simp only [LittleEndian.encode, List.drop_succ_cons, List.drop_zero, List.cons_append,
    List.nil_append, List.cons.injEq, and_true]
  refine ⟨byte _ _ ?_, byte _ _ ?_, byte _ _ ?_, (byte _ _ ?_).trans UInt8.ofNat_toNat⟩
  · omega
  · omega
  · omega
  · omega

/-- The window holds the last four bytes, after zeros while there are fewer. -/
theorem bytes32_through (bytes : Bytes) :
    bytes32 (through bytes).window = (List.replicate 4 0 ++ bytes).drop bytes.length := by
  induction bytes using List.reverseRecOn with
  | nil => rfl
  | append_singleton bytes b ih =>
    have hroom : bytes.length + 1 ≤ (List.replicate 4 0 ++ bytes).length := by
      rw [List.length_append, List.length_replicate]
      omega
    rw [through_concat, bytes32_push, ih, List.drop_drop, List.length_append, List.length_singleton,
      ← List.append_assoc, List.drop_append_of_le_length hroom]

/-- **What a window tells.**  The search hits at the end of what it has gone through just if the
mark stands there. -/
theorem hits_through_iff {magic : UInt32} {bytes : Bytes} :
    (through bytes).hits magic = true ↔ bytes32 magic <:+ bytes := by
  have hwindow :
      (through bytes).window = magic ↔ bytes32 (through bytes).window = bytes32 magic := by
    constructor
    · intro h
      rw [h]
    · intro h
      rw [← word32_bytes32 (through bytes).window, h, word32_bytes32]
  rw [hits, decide_eq_true_eq, seen_through, hwindow, bytes32_through, List.drop_append,
    List.length_replicate]
  constructor
  · rintro ⟨hlen, heq⟩
    rw [List.drop_eq_nil_of_le (by simpa using hlen), List.nil_append] at heq
    rw [← heq]
    exact List.drop_suffix _ _
  · intro h
    have hlen := h.length_le
    rw [length_bytes32] at hlen
    refine ⟨hlen, ?_⟩
    rw [List.drop_eq_nil_of_le (by simpa using hlen), List.nil_append,
      List.suffix_iff_eq_drop.1 h, length_bytes32]

section Positions

variable {magic : UInt32} {bytes : Bytes} {p q : Nat} {s : MarkSearch}

/-- A mark ends at an offset of what a search from `p` on has gone through just if it begins there,
four bytes before, and not before `p`. -/
theorem suffix_iff (hpq : p ≤ q) (hq : q ≤ bytes.length) :
    bytes32 magic <:+ (bytes.drop p).take (q - p) ↔ p + 4 ≤ q ∧ MarkAt magic bytes (q - 4) := by
  have hlen : ((bytes.drop p).take (q - p)).length = q - p := by
    rw [List.length_take, List.length_drop]
    omega
  have hlast : p + 4 ≤ q →
      ((bytes.drop p).take (q - p)).drop (q - p - 4) = (bytes.drop (q - 4)).take 4 := by
    intro hroom
    rw [List.drop_take, List.drop_drop]
    congr 2
    · omega
    · omega
  rw [List.suffix_iff_eq_drop, MarkAt, List.prefix_iff_eq_take, length_bytes32, hlen]
  constructor
  · intro h
    have hroom : p + 4 ≤ q := by
      have := congrArg List.length h
      rw [length_bytes32, List.length_drop, hlen] at this
      omega
    exact ⟨hroom, by rw [← hlast hroom]; exact h⟩
  · rintro ⟨hroom, h⟩
    rw [hlast hroom]
    exact h

/-- A search for a mark from `p` on has come to `q`: its window and its count are those of the bytes
between, and no mark lies among them. -/
structure At (magic : UInt32) (bytes : Bytes) (p q : Nat) (s : MarkSearch) : Prop where
  forward : p ≤ q
  inside : q ≤ bytes.length
  through : s = through ((bytes.drop p).take (q - p))
  unmarked : ∀ place, p ≤ place → place + 4 ≤ q → ¬ MarkAt magic bytes place

theorem at_start (magic : UInt32) (h : p ≤ bytes.length) : At magic bytes p p start where
  forward := Nat.le_refl p
  inside := h
  through := by
    rw [Nat.sub_self, List.take_zero]
    rfl
  unmarked := by
    intro place hle hroom
    omega

/-- One byte takes the search to a mark's end or one offset further. -/
theorem At.push {b : UInt8} {rest : Bytes} (h : At magic bytes p q s)
    (hrest : bytes.drop q = b :: rest) :
    rest = bytes.drop (q + 1) ∧ (s.push b).seen = q + 1 - p ∧
      (if (s.push b).hits magic then p + 4 ≤ q + 1 ∧ NextMark magic bytes p (q - 3)
        else At magic bytes p (q + 1) (s.push b)) := by
  have hpq := h.forward
  have hq : q < bytes.length := by
    have := congrArg List.length hrest
    rw [List.length_drop, List.length_cons] at this
    omega
  have htail : rest = bytes.drop (q + 1) := by
    rw [← List.drop_drop, hrest]
    rfl
  have hthrough : s.push b = MarkSearch.through ((bytes.drop p).take (q + 1 - p)) := by
    have hnext : (bytes.drop p)[q - p]? = some b := by
      rw [List.getElem?_drop, show p + (q - p) = q + 0 by omega, ← List.getElem?_drop, hrest]
      rfl
    rw [h.through, ← through_concat, show q + 1 - p = q - p + 1 by omega, List.take_add_one, hnext]
    rfl
  refine ⟨htail, ?_, ?_⟩
  · rw [hthrough, seen_through, List.length_take, List.length_drop]
    omega
  have hhits : (s.push b).hits magic = true ↔ p + 4 ≤ q + 1 ∧ MarkAt magic bytes (q - 3) := by
    rw [hthrough, hits_through_iff, suffix_iff (by omega) (by omega),
      show q + 1 - 4 = q - 3 by omega]
  split
  · next hhit =>
    obtain ⟨hroom, hmark⟩ := hhits.1 hhit
    refine ⟨hroom, by omega, hmark, ?_⟩
    intro place hle hlt
    exact h.unmarked place hle (by omega)
  · next hmiss =>
    refine ⟨by omega, hq, hthrough, ?_⟩
    intro place hle hroom hmark
    -- a mark that ends before the new byte was seen before; one that ends with it is a hit
    rcases Nat.lt_or_eq_of_le hroom with hlt | heq
    · exact h.unmarked place hle (by omega) hmark
    · have hplace : place = q - 3 := by omega
      exact hmiss (hhits.2 ⟨by omega, hplace ▸ hmark⟩)

/-- **One buffer, whatever its size.**  Either the first mark ends in it, or the search stands at
its end. -/
theorem At.sweep (h : At magic bytes p q s) (room : Nat) :
    (∃ place seen, sweep magic room s (bytes.drop q) = .hit seen (bytes.drop (place + 4)) ∧
        NextMark magic bytes p place ∧ p + seen = place + 4) ∨
      ∃ t, sweep magic room s (bytes.drop q) = .miss t (bytes.drop (min (q + room) bytes.length)) ∧
        At magic bytes p (min (q + room) bytes.length) t := by
  induction room generalizing q s with
  | zero =>
    rw [Nat.add_zero, Nat.min_eq_left h.inside]
    exact Or.inr ⟨s, rfl, h⟩
  | succ room ih =>
    cases hrest : bytes.drop q with
    | nil =>
      have hend : bytes.length ≤ q := List.drop_eq_nil_iff.1 hrest
      have hq : min (q + (room + 1)) bytes.length = q := by
        have := h.inside
        omega
      rw [hq, hrest]
      exact Or.inr ⟨s, rfl, h⟩
    | cons b rest =>
      obtain ⟨htail, hseen, hpush⟩ := h.push hrest
      unfold MarkSearch.sweep
      dsimp only
      split at hpush
      · next hhit =>
        obtain ⟨hroom, hmark⟩ := hpush
        rw [if_pos hhit, htail]
        refine Or.inl ⟨q - 3, (s.push b).seen, ?_, hmark, ?_⟩
        · rw [show q - 3 + 4 = q + 1 by omega]
        · omega
      · next hmiss =>
        rw [if_neg hmiss, htail, show q + (room + 1) = q + 1 + room by omega]
        exact ih hpush

/-- Buffer after buffer, up to the first mark or to the end. -/
theorem At.run (h : At magic bytes p q s) :
    (∃ place seen, s.run magic (bytes.drop q) = some (seen, bytes.drop (place + 4)) ∧
        NextMark magic bytes p place ∧ p + seen = place + 4) ∨
      ((∀ place, p ≤ place → ¬ MarkAt magic bytes place) ∧ s.run magic (bytes.drop q) = none) := by
  -- by induction on what is left of the file: every buffer takes some of it
  generalize hleft : bytes.length - q = left
  induction left using Nat.strongRecOn generalizing q s with
  | ind left ih =>
    have hinside := h.inside
    by_cases hend : bytes.drop q = []
    · right
      rw [MarkSearch.run, dif_pos hend]
      refine ⟨?_, rfl⟩
      intro place hle hmark
      have hroom := hmark.room
      have := List.drop_eq_nil_iff.1 hend
      exact h.unmarked place hle (by omega) hmark
    · have hlt : q < bytes.length := by
        rw [List.drop_eq_nil_iff] at hend
        omega
      rw [MarkSearch.run, dif_neg hend]
      rcases h.sweep bufferSize with ⟨place, seen, hsweep, hmark, hseen⟩ | ⟨t, hsweep, hat⟩
      · left
        rw [hsweep]
        exact ⟨place, seen, rfl, hmark, hseen⟩
      · rw [hsweep]
        have hsize : bufferSize = 0x1_0000 := rfl
        exact ih _ (by omega) hat rfl

end Positions

end MarkSearch

/-- **A search finds the first mark**, and the bytes after it. -/
theorem seekMark_spec (magic : UInt32) (bytes : Bytes) {p : Nat} (h : p ≤ bytes.length) :
    (∃ place, NextMark magic bytes p place ∧
        seekMark magic p (bytes.drop p) = some (place, bytes.drop (place + 4))) ∨
      ((∀ q, p ≤ q → ¬ MarkAt magic bytes q) ∧ seekMark magic p (bytes.drop p) = none) := by
  rcases (MarkSearch.at_start magic h).run with ⟨place, seen, hrun, hmark, hseen⟩ | ⟨hnone, hrun⟩
  · refine Or.inl ⟨place, hmark, ?_⟩
    rw [seekMark, hrun, Option.map_some, hseen, Nat.add_sub_cancel]
  · refine Or.inr ⟨hnone, ?_⟩
    rw [seekMark, hrun, Option.map_none]

end BlockIndex
