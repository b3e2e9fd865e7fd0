import BlockIndex.Transaction.Decoder
import Mathlib.Data.List.Forall2

/-!
# Steps of decoding

A step of decoding accepts a grammar if it succeeds just where one of the grammar's strings stands
next, takes that string, and gives the value that the string writes.  A successful decoding is then
a parse of the bytes that were taken, and the other way round.  Compact sizes are free to be longer
than needed.

* `Remaining.Gives`   taking some bytes leads from one state to another;
* `Decoder.Accepts`   a step accepts a grammar;
* `WritesCounted`     values after their number.

Main statements: `Decoder.Accepts.bind`, `Decoder.item_accepts`, `Decoder.counted_accepts`.
-/

namespace BlockIndex

/-! ## Taking bytes -/

/-- Taking the bytes `taken` leads from the state `s` to the state `t`. -/
structure Remaining.Gives (s : Remaining) (taken : Bytes) (t : Remaining) : Prop where
  rest : s.rest = taken ++ t.rest
  pos : t.pos = s.pos + taken.length

namespace Remaining

variable {s t u : Remaining} {front back taken : Bytes}

theorem Gives.refl (s : Remaining) : s.Gives [] s := ⟨rfl, rfl⟩

theorem Gives.trans (hst : s.Gives front t) (htu : t.Gives back u) : s.Gives (front ++ back) u where
  rest := by rw [hst.rest, htu.rest, List.append_assoc]
  pos := by rw [htu.pos, hst.pos, List.length_append, Nat.add_assoc]

theorem gives_nil_iff : s.Gives [] t ↔ t = s := by
  constructor
  · intro h
    obtain ⟨pos, rest⟩ := t
    obtain rfl : rest = s.rest := h.rest.symm
    obtain rfl : pos = s.pos := h.pos
    rfl
  · rintro rfl
    exact .refl t

theorem gives_append_iff : s.Gives (front ++ back) u ↔ ∃ t, s.Gives front t ∧ t.Gives back u := by
  constructor
  · intro h
    refine ⟨⟨s.pos + front.length, back ++ u.rest⟩, ⟨?_, rfl⟩, rfl, ?_⟩
    · rw [h.rest, List.append_assoc]
    · rw [h.pos, List.length_append, Nat.add_assoc]
  · rintro ⟨t, hst, htu⟩
    exact hst.trans htu

theorem Gives.slice (h : s.Gives taken t) : s.rest.take (t.pos - s.pos) = taken := by
  rw [h.pos, Nat.add_sub_cancel_left, h.rest, List.take_left]

theorem Gives.take (h : s.Gives taken t) : s.rest.take taken.length = taken := by
  rw [h.rest, List.take_left]

theorem Gives.head? (h : s.Gives taken t) (hpos : 0 < taken.length) :
    s.rest.head? = taken.head? := by
  rw [h.rest, List.head?_append_of_ne_nil _ (List.ne_nil_of_length_pos hpos)]

theorem Gives.length_le (h : s.Gives taken t) : taken.length ≤ s.rest.length := by
  rw [h.rest, List.length_append]
  exact Nat.le_add_right _ _

end Remaining

/-! ## Written forms -/

/-- A script or a witness item after its length. -/
def WritesItem (bytes item : Bytes) : Prop :=
  ∃ size, CompactSize.Writes size item.length ∧ bytes = size ++ item

/-- Values written one after the other. -/
def WritesEach {α : Type} (W : Bytes → α → Prop) (bytes : Bytes) (as : List α) : Prop :=
  ∃ parts, List.Forall₂ W parts as ∧ bytes = parts.flatten

/-- Values after their number. -/
def WritesCounted {α : Type} (W : Bytes → α → Prop) (bytes : Bytes) (as : List α) : Prop :=
  ∃ count back, CompactSize.Writes count as.length ∧ WritesEach W back as ∧ bytes = count ++ back

theorem WritesItem.least {bytes item : Bytes} (h : WritesItem bytes item) :
    Decoder.leastItem ≤ bytes.length := by
  obtain ⟨size, hsize, rfl⟩ := h
  have hpos := hsize.length_pos
  rw [Decoder.leastItem, List.length_append]
  omega

theorem WritesEach.mul_le_length {α : Type} {W : Bytes → α → Prop} {least : Nat} {bytes : Bytes}
    {as : List α} (h : WritesEach W bytes as) (hleast : ∀ bytes a, W bytes a → least ≤ bytes.length) :
    as.length * least ≤ bytes.length := by
  obtain ⟨parts, hparts, rfl⟩ := h
  induction hparts with
  | nil => simp
  | cons ha _ ih =>
    have hfront := hleast _ _ ha
    rw [List.length_cons, Nat.succ_mul, List.flatten_cons, List.length_append]
    omega

theorem writesEach_and_iff {α : Type} {W : Bytes → α → Prop} {p : α → Prop} {bytes : Bytes}
    {as : List α} : WritesEach (fun bytes a => W bytes a ∧ p a) bytes as ↔
      WritesEach W bytes as ∧ ∀ a ∈ as, p a := by
  have hboth (parts : List Bytes) : List.Forall₂ (fun bytes a => W bytes a ∧ p a) parts as ↔
      List.Forall₂ W parts as ∧ ∀ a ∈ as, p a := by
    induction as generalizing parts with
    | nil => simp
    | cons a as ih =>
      cases parts with
      | nil => simp
      | cons part parts =>
        rw [List.forall₂_cons, List.forall₂_cons, ih, List.forall_mem_cons]
        exact and_and_and_comm
  simp only [WritesEach, hboth]
  constructor
  · rintro ⟨parts, ⟨hparts, hp⟩, rfl⟩
    exact ⟨⟨parts, hparts, rfl⟩, hp⟩
  · rintro ⟨⟨parts, hparts, rfl⟩, hp⟩
    exact ⟨parts, ⟨hparts, hp⟩, rfl⟩

theorem WritesCounted.length_pos {α : Type} {W : Bytes → α → Prop} {bytes : Bytes} {as : List α}
    (h : WritesCounted W bytes as) : 0 < bytes.length := by
  obtain ⟨count, back, hcount, _, rfl⟩ := h
  have hpos := hcount.length_pos
  rw [List.length_append]
  omega

namespace Decoder

variable {α β : Type} {W : Bytes → α → Prop} {s t u : Remaining} {least : Nat}

/-! ## Steps -/

theorem bind_run (x : Decoder α) (f : α → Decoder β) (s : Remaining) :
    (x >>= f) s = match x s with
      | .error e => .error e
      | .ok (a, t) => f a t := by
  show (x s >>= fun found => f found.1 found.2) = _
  cases x s <;> rfl

theorem bind_ok {x : Decoder α} {f : α → Decoder β} {a : α} (h : x s = .ok (a, t)) :
    (x >>= f) s = f a t := by
  rw [bind_run, h]

theorem bind_eq_ok_iff {x : Decoder α} {f : α → Decoder β} {b : β} :
    (x >>= f) s = .ok (b, u) ↔ ∃ a t, x s = .ok (a, t) ∧ f a t = .ok (b, u) := by
  rw [bind_run]
  cases x s with
  | error e => simp
  | ok found => simp [Prod.ext_iff]

theorem get_ok (s : Remaining) : (get : Decoder Remaining) s = .ok (s, s) := rfl

theorem pure_ok (a : α) (s : Remaining) : (Pure.pure a : Decoder α) s = .ok (a, s) := rfl

/-- A step succeeds just where a string of the grammar stands next, and takes that string. -/
def Accepts (one : Decoder α) (W : Bytes → α → Prop) : Prop :=
  ∀ s a t, one s = .ok (a, t) ↔ ∃ taken, W taken a ∧ s.Gives taken t

theorem Accepts.congr {V : Bytes → α → Prop} {one : Decoder α} (h : one.Accepts W)
    (hsame : ∀ bytes a, W bytes a ↔ V bytes a) : one.Accepts V := fun s a t => by
  simp only [h s a t, hsame]

theorem Accepts.pure (a : α) : Accepts (pure a) fun bytes b => bytes = [] ∧ b = a := by
  intro s b t
  simp only [pure_ok, Except.ok.injEq, Prod.mk.injEq]
  constructor
  · rintro ⟨rfl, rfl⟩
    exact ⟨[], ⟨rfl, rfl⟩, .refl s⟩
  · rintro ⟨_, ⟨rfl, rfl⟩, h⟩
    exact ⟨rfl, (Remaining.gives_nil_iff.1 h).symm⟩

/-- Two steps accept the strings of the one followed by those of the other. -/
theorem Accepts.bind {V : α → Bytes → β → Prop} {x : Decoder α} {f : α → Decoder β}
    (hx : x.Accepts W) (hf : ∀ a, (f a).Accepts (V a)) :
    (x >>= f).Accepts fun bytes b => ∃ a front back, W front a ∧ V a back b ∧
      bytes = front ++ back := by
  intro s b u
  rw [bind_eq_ok_iff]
  constructor
  · rintro ⟨a, t, ha, hb⟩
    obtain ⟨front, hfront, hst⟩ := (hx s a t).1 ha
    obtain ⟨back, hback, htu⟩ := (hf a t b u).1 hb
    exact ⟨_, ⟨a, front, back, hfront, hback, rfl⟩, hst.trans htu⟩
  · rintro ⟨_, ⟨a, front, back, hfront, hback, rfl⟩, h⟩
    obtain ⟨t, hst, htu⟩ := Remaining.gives_append_iff.1 h
    exact ⟨a, t, (hx s a t).2 ⟨front, hfront, hst⟩, (hf a t b u).2 ⟨back, hback, htu⟩⟩

/-- A step and a value made of what it found. -/
theorem Accepts.map {x : Decoder α} (hx : x.Accepts W) (f : α → β) :
    Accepts (x >>= fun a => Pure.pure (f a)) fun bytes b => ∃ a, W bytes a ∧ b = f a :=
  (hx.bind fun a => Accepts.pure (f a)).congr fun bytes b => by
    constructor
    · rintro ⟨a, front, _, ha, ⟨rfl, rfl⟩, rfl⟩
      exact ⟨a, by rwa [List.append_nil], rfl⟩
    · rintro ⟨a, ha, rfl⟩
      exact ⟨a, bytes, [], ha, ⟨rfl, rfl⟩, (List.append_nil bytes).symm⟩

/-- A check before a step changes nothing where the step could not succeed without passing it. -/
theorem Accepts.checked {x : Decoder α} (hx : x.Accepts W) (room : Remaining → Bool)
    (refuse : Remaining → Decoder α) (hrefuse : ∀ s r, refuse s s ≠ .ok r)
    (hroom : ∀ s taken a t, W taken a → s.Gives taken t → room s = true) :
    Accepts (do let s ← get; if room s then x else refuse s) W := by
  intro s a t
  rw [bind_ok (get_ok s), ← hx s a t]
  split
  · rfl
  · next hshut =>
    refine ⟨fun h => absurd h (hrefuse s _), fun h => ?_⟩
    obtain ⟨taken, ha, hgives⟩ := (hx s a t).1 h
    exact absurd (hroom s taken a t ha hgives) hshut

/-! ## Fields -/

theorem take_accepts (n : Nat) :
    (take n).Accepts fun bytes found => bytes = found ∧ found.length = n := by
  intro s found t
  unfold take
  cases hsplit : splitFront n s.rest with
  | none =>
    refine ⟨fun h => by simp at h, ?_⟩
    rintro ⟨_, ⟨rfl, rfl⟩, h⟩
    exact absurd h.length_le (Nat.not_le_of_lt (splitFront_eq_none_iff.1 hsplit))
  | some parts =>
    obtain ⟨front, rest⟩ := parts
    obtain ⟨hrest, rfl⟩ := splitFront_eq_some_iff.1 hsplit
    dsimp only
    rw [Except.ok.injEq, Prod.mk.injEq]
    constructor
    · rintro ⟨rfl, rfl⟩
      exact ⟨front, ⟨rfl, rfl⟩, hrest, rfl⟩
    · rintro ⟨_, ⟨rfl, hlen⟩, h⟩
      obtain ⟨rfl, hafter⟩ := List.append_inj (hrest.symm.trans h.rest) hlen.symm
      exact ⟨rfl, by rw [hafter, ← h.pos]⟩

theorem word_accepts : word.Accepts fun bytes w => bytes = bytes32 w :=
  ((take_accepts 4).map word32).congr fun bytes w => by
    constructor
    · rintro ⟨_, ⟨rfl, hlen⟩, rfl⟩
      exact (bytes32_word32 hlen).symm
    · rintro rfl
      exact ⟨bytes32 w, ⟨rfl, length_bytes32 w⟩, (word32_bytes32 w).symm⟩

theorem longWord_accepts : longWord.Accepts fun bytes w => bytes = bytes64 w :=
  ((take_accepts 8).map word64).congr fun bytes w => by
    constructor
    · rintro ⟨_, ⟨rfl, hlen⟩, rfl⟩
      exact (bytes64_word64 hlen).symm
    · rintro rfl
      exact ⟨bytes64 w, ⟨rfl, length_bytes64 w⟩, (word64_bytes64 w).symm⟩

theorem hash_accepts : hash.Accepts fun bytes h => bytes = h.bytes := by
  intro s found t
  unfold hash
  split
  · next front rest hsplit =>
    obtain ⟨hrest, hlen⟩ := splitFront_eq_some_iff.1 hsplit
    rw [Except.ok.injEq, Prod.mk.injEq]
    constructor
    · rintro ⟨rfl, rfl⟩
      exact ⟨front, rfl, hrest, by rw [hlen]⟩
    · rintro ⟨_, rfl, h⟩
      obtain ⟨rfl, hafter⟩ := List.append_inj (hrest.symm.trans h.rest)
        (hlen.trans found.length_eq.symm)
      exact ⟨rfl, by rw [hafter, ← hlen, ← h.pos]⟩
  · next hsplit =>
    refine ⟨fun h => by simp at h, ?_⟩
    rintro ⟨_, rfl, h⟩
    have hlen := h.length_le
    rw [found.length_eq] at hlen
    exact absurd hlen (Nat.not_le_of_lt (splitFront_eq_none_iff.1 hsplit))

theorem compactSize_accepts : compactSize.Accepts CompactSize.Writes := by
  intro s n t
  unfold compactSize
  cases hread : CompactSize.decode? s.rest with
  | none =>
    refine ⟨fun h => by simp at h, ?_⟩
    rintro ⟨form, hform, h⟩
    have hfound := hform.decode?_append t.rest
    rw [← h.rest, hread] at hfound
    simp at hfound
  | some found =>
    obtain ⟨value, used⟩ := found
    obtain ⟨form, rest, hform, rfl, hrest⟩ := CompactSize.decode?_eq_some_iff.1 hread
    dsimp only
    rw [Except.ok.injEq, Prod.mk.injEq]
    constructor
    · rintro ⟨rfl, rfl⟩
      exact ⟨form, hform, by rw [hrest, List.drop_left], rfl⟩
    · rintro ⟨other, hother, h⟩
      -- a string starts with one compact size only
      have hfound := hother.decode?_append t.rest
      rw [← h.rest, hread, Option.some.injEq, Prod.mk.injEq] at hfound
      refine ⟨hfound.1, ?_⟩
      rw [hfound.2, h.rest, List.drop_left, ← h.pos]

theorem item_accepts : item.Accepts WritesItem := by
  have hitem (length : Nat) := (take_accepts length).checked
    (fun s => hasAtLeast length s.rest)
    (fun s => fail (.lengthExceeds length s.rest.length)) (fun _ _ h => by cases h) (by
      rintro s taken _ t ⟨rfl, rfl⟩ h
      exact (hasAtLeast_iff _ _).2 h.length_le)
  refine (compactSize_accepts.bind hitem).congr fun bytes found => ?_
  constructor
  · rintro ⟨_, size, _, hsize, ⟨rfl, rfl⟩, rfl⟩
    exact ⟨size, hsize, rfl⟩
  · rintro ⟨size, hsize, rfl⟩
    exact ⟨_, size, found, hsize, ⟨rfl, rfl⟩, rfl⟩

/-! ## Repetition -/

theorem many_succ_eq (one : Decoder α) (n : Nat) :
    many one (n + 1) = one >>= fun a => many one n >>= fun as => Pure.pure (a :: as) := by
  funext s
  rw [many_succ, bind_run]
  cases one s with
  | error e => rfl
  | ok found =>
    dsimp only
    rw [bind_run]
    cases many one n found.2 <;> rfl

theorem many_accepts {one : Decoder α} (hone : one.Accepts W) (n : Nat) :
    (many one n).Accepts fun bytes as => as.length = n ∧ WritesEach W bytes as := by
  induction n with
  | zero =>
    refine (Accepts.pure []).congr fun bytes as => ?_
    constructor
    · rintro ⟨rfl, rfl⟩
      exact ⟨rfl, [], .nil, rfl⟩
    · rintro ⟨hlen, parts, hparts, rfl⟩
      obtain rfl := List.eq_nil_of_length_eq_zero hlen
      obtain rfl := List.forall₂_nil_right_iff.1 hparts
      exact ⟨rfl, rfl⟩
  | succ n ih =>
    rw [many_succ_eq]
    refine (hone.bind fun a => ih.map (a :: ·)).congr fun bytes as => ?_
    constructor
    · rintro ⟨a, front, _, ha, ⟨as, ⟨rfl, parts, hparts, rfl⟩, rfl⟩, rfl⟩
      exact ⟨rfl, front :: parts, .cons ha hparts, rfl⟩
    · rintro ⟨hlen, parts, hparts, rfl⟩
      cases hparts with
      | nil => simp at hlen
      | cons ha hparts =>
        exact ⟨_, _, _, ha, ⟨_, ⟨Nat.succ.inj hlen, _, hparts, rfl⟩, rfl⟩, rfl⟩

/-- A count is believed where as many items follow, since each takes its least number of bytes. -/
theorem counted_accepts {one : Decoder α} (hone : one.Accepts W)
    (hleast : ∀ bytes a, W bytes a → least ≤ bytes.length) :
    (counted least one).Accepts (WritesCounted W) := by
  have hcounted : counted least one = compactSize >>= fun n => (do
      let s ← get
      if hasAtLeast (n * least) s.rest then many one n
      else (fail (.countExceeds n) : Decoder Nat) >>= many one) := by
    unfold counted count
    rw [bind_assoc]
    congr 1
    funext n s
    rw [bind_assoc, bind_ok (get_ok s), bind_ok (get_ok s)]
    split <;> rfl
  have hmany (n : Nat) := (many_accepts hone n).checked
    (fun s => hasAtLeast (n * least) s.rest)
    (fun _ => (fail (.countExceeds n) : Decoder Nat) >>= many one)
    (fun _ _ h => by cases h) (by
      rintro s taken as t ⟨rfl, hparts⟩ h
      exact (hasAtLeast_iff _ _).2 (Nat.le_trans (hparts.mul_le_length hleast) h.length_le))
  rw [hcounted]
  refine (compactSize_accepts.bind hmany).congr fun bytes as => ?_
  constructor
  · rintro ⟨_, count, back, hcount, ⟨rfl, hparts⟩, rfl⟩
    exact ⟨count, back, hcount, hparts, rfl⟩
  · rintro ⟨count, back, hcount, hparts, rfl⟩
    exact ⟨_, count, back, hcount, ⟨rfl, hparts⟩, rfl⟩

end Decoder

end BlockIndex
