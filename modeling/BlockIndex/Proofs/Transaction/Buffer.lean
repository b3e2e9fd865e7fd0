import BlockIndex.Proofs.Transaction.Grammar

/-!
# Decoding in a buffer

The same decoding over a buffer that stays and a position that moves.  Here every slice is checked
against the buffer, every difference against zero and every move of the position against the end of
the buffer, and a check that fails halts.  Both go the same way on every buffer, so no check ever
fails.

* `Buffered`           a step at a position of a buffer;
* `Buffered.Agrees`    a step in the buffer ends as the step over the bytes that are left;
* `Buffered.Mirrors`   it does so from every position.

Main statements: `Buffered.Mirrors.bind`, `Buffered.transaction_mirrors`, `decoding_stays_inside`.
-/

namespace BlockIndex

/-- Why decoding in a buffer ends early. -/
inductive Halt where
  /-- A position beyond the end. -/
  | strayed
  /-- A slice that the buffer does not have. -/
  | outOfRange
  /-- A difference below zero. -/
  | underflow
  /-- The data is refused. -/
  | refused (e : Error)
  deriving DecidableEq, Repr

/-- A step at a position of a buffer. -/
abbrev Buffered (α : Type) := StateT Nat (Except Halt) α

namespace Buffered

variable {α : Type} (buf : Bytes)

/-- Ends early. -/
def halt (h : Halt) : Buffered α := fun _ => .error h

/-- Fails at the present position. -/
def fail (fault : TransactionFault) : Buffered α := fun pos =>
  .error (.refused (.invalidTransaction pos fault))

/-- A difference of lengths. -/
def minus (a b : Nat) : Buffered Nat := if b ≤ a then pure (a - b) else halt .underflow

/-- The bytes from one position to another. -/
def slice (start stop : Nat) : Buffered Bytes :=
  if start ≤ stop ∧ stop ≤ buf.length then pure ((buf.drop start).take (stop - start))
  else halt .outOfRange

/-- Moves on. -/
def advance (n : Nat) : Buffered Unit := fun pos =>
  if pos + n ≤ buf.length then .ok ((), pos + n) else .error .strayed

/-- Moves back by one. -/
def stepBack : Buffered Unit := do
  let pos ← get
  let back ← minus pos 1
  set back

/-- How many bytes are left. -/
def remaining : Buffered Nat := do
  let pos ← get
  minus buf.length pos

/-- The next `n` bytes. -/
def take (n : Nat) : Buffered Bytes := do
  let left ← remaining buf
  if left < n then fail (.missingBytes n left)
  else
    let pos ← get
    let out ← slice buf pos (pos + n)
    advance buf n
    return out

/-- The bytes of an array of `n`. -/
def array (n : Nat) : Buffered Bytes := do
  let bytes ← take buf n
  if bytes.length = n then return bytes else halt .outOfRange

/-- A 32-bit word. -/
def word : Buffered UInt32 := do
  let bytes ← array buf 4
  return word32 bytes

/-- A 64-bit word. -/
def longWord : Buffered UInt64 := do
  let bytes ← array buf 8
  return word64 bytes

/-- A hash. -/
def hash : Buffered Hash := do
  let bytes ← take buf 32
  match Hash.ofBytes? bytes with
  | some found => return found
  | none => halt .outOfRange

/-- A compact size. -/
def compactSize : Buffered Nat := do
  let pos ← get
  let rest ← slice buf pos buf.length
  match CompactSize.decode? rest with
  | some (value, used) => do
    advance buf used
    return value
  | none => fail .truncatedSize

/-- A length prefix and that many bytes. -/
def item : Buffered Bytes := do
  let length ← compactSize buf
  let left ← remaining buf
  if left < length then fail (.lengthExceeds length left) else take buf length

/-- A count of items of at least `least` bytes each.  The product is a number of any size: one that
no word holds is beyond every buffer. -/
def count (least : Nat) : Buffered Nat := do
  let n ← compactSize buf
  let left ← remaining buf
  if left < n * least then fail (.countExceeds n) else return n

/-- Just `n` items. -/
def many (one : Buffered α) : Nat → Buffered (List α)
  | 0 => return []
  | n + 1 => do
    let a ← one
    let as ← many one n
    return a :: as

/-- A count, and that many items of at least `least` bytes each. -/
def counted (least : Nat) (one : Buffered α) : Buffered (List α) := do
  let n ← count buf least
  many one n

/-- An input without its witness. -/
def input : Buffered TransactionInput := do
  let prevTxid ← hash buf
  let prevIndex ← word buf
  let script ← item buf
  let sequence ← word buf
  return ⟨prevTxid, prevIndex, script, sequence, []⟩

/-- An output. -/
def output : Buffered TransactionOutput := do
  let amount ← longWord buf
  let script ← item buf
  return ⟨amount, script⟩

/-- The inputs with the witnesses that follow the outputs. -/
def witnesses : List TransactionInput → Buffered (List TransactionInput)
  | [] => return []
  | next :: others => do
    let items ← counted buf Decoder.leastItem (item buf)
    let found ← witnesses others
    return { next with witness := items } :: found

/-- Whether the form with witnesses follows, its marker and flag being passed if it does.  A wrong
flag is stepped back over, so that the error names its place. -/
def form : Buffered Bool := do
  let pos ← get
  if buf[pos]? = some 0 then
    advance buf 1
    let bytes ← take buf 1
    match bytes with
    | [] => halt .outOfRange
    | flag :: _ =>
      if flag = 1 then return true
      else
        stepBack
        fail (.badFlag flag)
  else return false

/-- The inputs with the witnesses that one of the two forms has. -/
def witnessesIf (segwit : Bool) (inputs : List TransactionInput) :
    Buffered (List TransactionInput) :=
  if segwit then witnesses buf inputs else return inputs

/-- The hash of the form in which the transaction is stored. -/
def storedId (segwit : Bool) (start stop : Nat) (txid : Hash) : Buffered Hash :=
  if segwit then do
    let stored ← slice buf start stop
    return Hash.doubleSha256 stored
  else return txid

/-- One transaction of either form.  The slices and the lengths are told by saved positions. -/
def transaction : Buffered Transaction := do
  let start ← get
  let version ← word buf
  let segwit ← form buf
  let bodyStart ← get
  let inputs ← counted buf Decoder.leastInput (input buf)
  let outputs ← counted buf Decoder.leastOutput (output buf)
  let bodyEnd ← get
  let inputs ← witnessesIf buf segwit inputs
  let lockStart ← get
  let lockTime ← word buf
  let stop ← get
  let front ← slice buf start (start + 4)
  let body ← slice buf bodyStart bodyEnd
  let back ← slice buf lockStart stop
  let txid := Hash.doubleSha256 (front ++ body ++ back)
  let size ← minus stop start
  let bodySize ← minus bodyEnd bodyStart
  let wtxid ← storedId buf segwit start stop txid
  return {
    version, segwit, inputs, outputs, lockTime, txid, wtxid
    size := UInt32.ofNat size
    vsize := virtualSize segwit (UInt32.ofNat (4 + bodySize + 4)) (UInt32.ofNat size) }

/-- Block data: a count and that many transactions. -/
def transactions : Buffered (List Transaction) := do
  let n ← compactSize buf
  many (transaction buf) n

/-- How many transactions are begun where `n` should follow: all up to the first that fails. -/
def attempts : Nat → Nat → Nat
  | 0, _ => 0
  | n + 1, pos =>
    match transaction buf pos with
    | .ok (_, next) => attempts n next + 1
    | .error _ => 1

/-- How many transactions of block data are begun. -/
def attempted : Nat :=
  match compactSize buf 0 with
  | .ok (n, pos) => attempts buf n pos
  | .error _ => 0

end Buffered

/-- Every transaction of block data in a buffer. -/
def decodeBuffer (data : Bytes) : Except Halt (List Transaction) :=
  match Buffered.transactions data 0 with
  | .error h => .error h
  | .ok (txs, _) => .ok txs

/-! ## The buffer and the bytes left -/

/-- The bytes of a buffer that are left at a position. -/
def Remaining.within (buf : Bytes) (pos : Nat) : Remaining := ⟨pos, buf.drop pos⟩

namespace Buffered

/-- A step in the buffer ends as the step over the bytes left does: with the same value at the same
position, or refused for the same reason, at a place of the buffer either way. -/
inductive Agrees {α : Type} (buf : Bytes) :
    Except Error (α × Remaining) → Except Halt (α × Nat) → Prop
  | ok {a : α} {pos : Nat} (h : pos ≤ buf.length) :
    Agrees buf (.ok (a, .within buf pos)) (.ok (a, pos))
  | refused {offset : Nat} {fault : TransactionFault} (h : offset ≤ buf.length) :
    Agrees buf (.error (.invalidTransaction offset fault))
      (.error (.refused (.invalidTransaction offset fault)))

/-- A step in the buffer goes as a step over the bytes left, from wherever it starts. -/
def Mirrors {α : Type} (buf : Bytes) (m : Buffered α) (d : Decoder α) : Prop :=
  ∀ pos ≤ buf.length, Agrees buf (d (.within buf pos)) (m pos)

variable {α β : Type} {buf : Bytes} {pos : Nat}

theorem bind_run (m : Buffered α) (g : α → Buffered β) (pos : Nat) :
    (m >>= g) pos = match m pos with
      | .error h => .error h
      | .ok (a, next) => g a next := by
  show (m pos >>= fun found => g found.1 found.2) = _
  cases m pos <;> rfl

theorem bind_ok {m : Buffered α} {g : α → Buffered β} {a : α} {next : Nat}
    (h : m pos = .ok (a, next)) : (m >>= g) pos = g a next := by
  rw [bind_run, h]

theorem get_ok (pos : Nat) : (get : Buffered Nat) pos = .ok (pos, pos) := rfl

/-- What follows a step may use what the step found and took. -/
theorem Agrees.bind {d : Decoder α} {f : α → Decoder β} {m : Buffered α} {g : α → Buffered β}
    (h : Agrees buf (d (.within buf pos)) (m pos))
    (hnext : ∀ a next, next ≤ buf.length → d (.within buf pos) = .ok (a, .within buf next) →
      Agrees buf (f a (.within buf next)) (g a next)) :
    Agrees buf ((d >>= f) (.within buf pos)) ((m >>= g) pos) := by
  rw [Decoder.bind_run, bind_run]
  generalize hd : d (.within buf pos) = found at h
  generalize m pos = reached at h
  cases h with
  | ok hpos => exact hnext _ _ hpos hd
  | refused hoffset => exact .refused hoffset

theorem Mirrors.bind {d : Decoder α} {f : α → Decoder β} {m : Buffered α} {g : α → Buffered β}
    (h : Mirrors buf m d) (hnext : ∀ a, Mirrors buf (g a) (f a)) :
    Mirrors buf (m >>= g) (d >>= f) :=
  fun pos hpos => (h pos hpos).bind fun a next hle _ => hnext a next hle

theorem Mirrors.pure (a : α) : Mirrors buf (pure a) (pure a) := fun _ hpos => .ok hpos

/-! ## Checks that hold -/

theorem slice_ok {start stop : Nat} (h : start ≤ stop) (hstop : stop ≤ buf.length) :
    slice buf start stop = pure ((buf.drop start).take (stop - start)) :=
  if_pos ⟨h, hstop⟩

theorem storedId_ok {segwit : Bool} {start stop : Nat} {txid : Hash} (h : start ≤ stop)
    (hstop : stop ≤ buf.length) : storedId buf segwit start stop txid
      = pure (if segwit then Hash.doubleSha256 ((buf.drop start).take (stop - start)) else txid) := by
  unfold storedId
  rw [slice_ok h hstop]
  cases segwit <;> rfl

theorem minus_ok {a b : Nat} (h : b ≤ a) : minus a b = pure (a - b) := if_pos h

theorem advance_ok {n : Nat} (h : pos + n ≤ buf.length) :
    advance buf n pos = .ok ((), pos + n) := if_pos h

theorem remaining_ok (h : pos ≤ buf.length) :
    remaining buf pos = .ok ((buf.drop pos).length, pos) := by
  show minus buf.length pos pos = _
  rw [minus_ok h, List.length_drop]
  rfl

theorem take_ok {n : Nat} (h : pos + n ≤ buf.length) :
    take buf n pos = .ok ((buf.drop pos).take n, pos + n) := by
  have hleft : ¬ (buf.drop pos).length < n := by
    rw [List.length_drop]
    omega
  have hslice := slice_ok (Nat.le_add_right pos n) h
  unfold take
  rw [bind_ok (remaining_ok (by omega)), if_neg hleft, bind_ok (get_ok pos),
    hslice, pure_bind, bind_ok (advance_ok h), Nat.add_sub_cancel_left]
  rfl

theorem take_error {n : Nat} (hpos : pos ≤ buf.length)
    (h : (buf.drop pos).length < n) : take buf n pos
      = .error (.refused (.invalidTransaction pos (.missingBytes n (buf.drop pos).length))) := by
  unfold take
  rw [bind_ok (remaining_ok hpos), if_pos h]
  rfl

/-! ## Steps -/

theorem take_mirrors (n : Nat) : Mirrors buf (take buf n) (Decoder.take n) := by
  intro pos hpos
  unfold Decoder.take
  dsimp only [Remaining.within]
  by_cases hroom : pos + n ≤ buf.length
  · rw [take_ok hroom, splitFront_drop hroom]
    exact .ok hroom
  · have hshort : (buf.drop pos).length < n := by
      rw [List.length_drop]
      omega
    rw [take_error hpos hshort, splitFront_eq_none_iff.2 hshort]
    exact .refused hpos

theorem array_mirrors (n : Nat) : Mirrors buf (array buf n) (Decoder.take n) := by
  intro pos hpos
  rw [← bind_pure (Decoder.take n)]
  refine (take_mirrors n pos hpos).bind fun bytes next hle hread => ?_
  obtain ⟨_, ⟨rfl, hlen⟩, _⟩ := (Decoder.take_accepts n _ _ _).1 hread
  rw [if_pos hlen]
  exact .ok hle

theorem word_mirrors : Mirrors buf (word buf) Decoder.word :=
  (array_mirrors 4).bind fun bytes => .pure (word32 bytes)

theorem longWord_mirrors : Mirrors buf (longWord buf) Decoder.longWord :=
  (array_mirrors 8).bind fun bytes => .pure (word64 bytes)

theorem hash_mirrors : Mirrors buf (hash buf) Decoder.hash := by
  intro pos hpos
  unfold hash
  by_cases hroom : pos + 32 ≤ buf.length
  · have hlen : ((buf.drop pos).take 32).length = 32 := by
      rw [List.length_take, List.length_drop]
      omega
    have hread : Decoder.hash (.within buf pos)
        = .ok (⟨(buf.drop pos).take 32, hlen⟩, .within buf (pos + 32)) :=
      (Decoder.hash_accepts _ _ _).2 ⟨_, rfl, (by
        rw [Remaining.within, Remaining.within, ← List.drop_drop, List.take_append_drop]), by
        rw [hlen]
        rfl⟩
    rw [hread, bind_ok (take_ok hroom), Hash.ofBytes?, dif_pos hlen]
    exact .ok hroom
  · have hshort : (buf.drop pos).length < 32 := by
      rw [List.length_drop]
      omega
    rw [bind_run, take_error hpos hshort]
    unfold Decoder.hash
    split
    · next hsplit =>
      rw [Remaining.within, splitFront_eq_none_iff.2 hshort] at hsplit
      cases hsplit
    · exact .refused hpos

theorem compactSize_mirrors : Mirrors buf (compactSize buf) Decoder.compactSize := by
  intro pos hpos
  have hslice := slice_ok hpos (Nat.le_refl buf.length)
  rw [List.take_of_length_le (Nat.le_of_eq List.length_drop)] at hslice
  unfold compactSize Decoder.compactSize
  rw [bind_ok (get_ok pos), hslice, pure_bind]
  dsimp only [Remaining.within]
  cases hread : CompactSize.decode? (buf.drop pos) with
  | none => exact .refused hpos
  | some found =>
    obtain ⟨value, used⟩ := found
    obtain ⟨form, rest, _, hused, hrest⟩ := CompactSize.decode?_eq_some_iff.1 hread
    have hroom : pos + used ≤ buf.length := by
      have hlen := congrArg List.length hrest
      rw [List.length_drop, List.length_append] at hlen
      omega
    dsimp only
    rw [bind_ok (advance_ok hroom), List.drop_drop]
    exact .ok hroom

theorem checked_mirrors {m : Buffered α} {d : Decoder α} (h : Mirrors buf m d) (n : Nat)
    (fault : Nat → TransactionFault) :
    Mirrors buf
      (do let left ← remaining buf; if left < n then fail (fault left) else m)
      (do let s ← get; if hasAtLeast n s.rest then d else Decoder.fail (fault s.rest.length)) := by
  intro pos hpos
  rw [Decoder.bind_ok (Decoder.get_ok _), bind_ok (remaining_ok hpos)]
  by_cases hroom : n ≤ (buf.drop pos).length
  · have henough : hasAtLeast n (Remaining.within buf pos).rest = true := (hasAtLeast_iff _ _).2 hroom
    rw [if_pos henough, if_neg (Nat.not_lt_of_le hroom)]
    exact h pos hpos
  · have hshort : ¬ hasAtLeast n (Remaining.within buf pos).rest = true :=
      fun henough => hroom ((hasAtLeast_iff _ _).1 henough)
    rw [if_neg hshort, if_pos (Nat.lt_of_not_le hroom)]
    exact .refused hpos

theorem item_mirrors : Mirrors buf (item buf) Decoder.item :=
  compactSize_mirrors.bind fun length =>
    checked_mirrors (take_mirrors length) length (.lengthExceeds length)

theorem count_mirrors (least : Nat) :
    Mirrors buf (count buf least) (Decoder.count least) :=
  compactSize_mirrors.bind fun n =>
    checked_mirrors (.pure n) (n * least) fun _ => .countExceeds n

theorem many_mirrors {m : Buffered α} {d : Decoder α} (h : Mirrors buf m d) (n : Nat) :
    Mirrors buf (many m n) (Decoder.many d n) := by
  induction n with
  | zero => exact .pure []
  | succ n ih =>
    rw [Decoder.many_succ_eq]
    exact h.bind fun a => ih.bind fun as => .pure (a :: as)

theorem counted_mirrors {m : Buffered α} {d : Decoder α} (h : Mirrors buf m d) (least : Nat) :
    Mirrors buf (counted buf least m) (Decoder.counted least d) :=
  (count_mirrors least).bind fun n => many_mirrors h n

/-! ## A transaction -/

theorem input_mirrors : Mirrors buf (input buf) Decoder.input :=
  hash_mirrors.bind fun _ => word_mirrors.bind fun _ => item_mirrors.bind fun _ =>
    word_mirrors.bind fun _ => .pure _

theorem output_mirrors : Mirrors buf (output buf) Decoder.output :=
  longWord_mirrors.bind fun _ => item_mirrors.bind fun _ => .pure _

theorem witnesses_mirrors (inputs : List TransactionInput) :
    Mirrors buf (witnesses buf inputs) (Decoder.witnesses inputs) := by
  induction inputs with
  | nil => exact .pure []
  | cons next others ih =>
    rw [Decoder.witnesses_cons]
    exact (counted_mirrors item_mirrors _).bind fun items => ih.bind fun found =>
      .pure ({ next with witness := items } :: found)

theorem witnessesIf_mirrors (segwit : Bool) (inputs : List TransactionInput) :
    Mirrors buf (witnessesIf buf segwit inputs) (Decoder.witnessesIf segwit inputs) := by
  cases segwit with
  | true => exact witnesses_mirrors inputs
  | false => exact .pure inputs

theorem form_mirrors : Mirrors buf (form buf) Decoder.form := by
  intro pos hpos
  have hhead : (Remaining.within buf pos).rest.head? = buf[pos]? := List.head?_drop ..
  unfold form
  rw [Decoder.form_run, bind_ok (get_ok pos), hhead]
  split
  · next hzero =>
    obtain ⟨hlt, hmarker⟩ := List.getElem?_eq_some_iff.1 hzero
    have hrest : Remaining.within buf pos = ⟨pos, 0 :: buf.drop (pos + 1)⟩ := by
      rw [Remaining.within, List.drop_eq_getElem_cons hlt, hmarker]
    rw [hrest, Decoder.bind_run, Decoder.markerAndFlag_run, bind_ok (advance_ok hlt)]
    by_cases hroom : pos + 1 + 1 ≤ buf.length
    · have hflag : buf.drop (pos + 1) = buf[pos + 1] :: buf.drop (pos + 2) :=
        List.drop_eq_getElem_cons hroom
      rw [bind_ok (take_ok hroom), hflag]
      dsimp only [List.take_succ_cons]
      by_cases hone : buf[pos + 1] = 1
      · rw [if_pos hone, if_pos hone]
        exact .ok hroom
      · rw [if_neg hone, if_neg hone]
        exact .refused hlt
    · have hnone : buf.drop (pos + 1) = [] := List.drop_eq_nil_of_le (by omega)
      have hshort : (buf.drop (pos + 1)).length < 1 := by
        rw [hnone]
        decide
      rw [bind_run, take_error hlt hshort, hnone]
      exact .refused hlt
  · exact .ok hpos

/-- Where a step succeeds in a grammar, the position has moved by the length of what was taken. -/
theorem next_eq {d : Decoder α} {W : Bytes → α → Prop} (hd : d.Accepts W) {a : α} {next : Nat}
    (h : d (.within buf pos) = .ok (a, .within buf next)) :
    ∃ taken, W taken a ∧ next = pos + taken.length := by
  obtain ⟨taken, ha, hgives⟩ := (hd _ _ _).1 h
  exact ⟨taken, ha, hgives.pos⟩

theorem transaction_mirrors : Mirrors buf (transaction buf) Decoder.transaction := by
  intro pos hpos
  unfold transaction Decoder.transaction
  rw [Decoder.bind_ok (Decoder.get_ok _), bind_ok (get_ok pos)]
  refine (word_mirrors pos hpos).bind fun version p₁ hp₁ hversion => ?_
  refine (form_mirrors p₁ hp₁).bind fun segwit p₂ hp₂ hform => ?_
  rw [Decoder.bind_ok (Decoder.get_ok _), bind_ok (get_ok p₂)]
  refine (counted_mirrors input_mirrors _ p₂ hp₂).bind fun inputs p₃ hp₃ hinputs => ?_
  refine (counted_mirrors output_mirrors _ p₃ hp₃).bind fun outputs p₄ hp₄ houtputs => ?_
  rw [Decoder.bind_ok (Decoder.get_ok _), bind_ok (get_ok p₄)]
  refine (witnessesIf_mirrors segwit inputs p₄ hp₄).bind fun witnessed p₅ hp₅ hwitnessed => ?_
  rw [Decoder.bind_ok (Decoder.get_ok _), bind_ok (get_ok p₅)]
  refine (word_mirrors p₅ hp₅).bind fun lockTime p₆ hp₆ hlockTime => ?_
  rw [Decoder.bind_ok (Decoder.get_ok _), bind_ok (get_ok p₆)]
  -- the positions between the steps, from what the steps took
  obtain ⟨_, rfl, hfront⟩ := next_eq Decoder.word_accepts hversion
  have hmarked := (Decoder.form_eq_ok_iff.1 hform).1.pos
  obtain ⟨_, ⟨_, hempty⟩, hins⟩ := next_eq Decoder.inputs_accepts hinputs
  obtain ⟨_, _, houts⟩ := next_eq Decoder.outputs_accepts houtputs
  obtain ⟨_, _, hwits⟩ := next_eq (Decoder.witnessesIf_accepts segwit hempty) hwitnessed
  obtain ⟨_, rfl, hlast⟩ := next_eq Decoder.word_accepts hlockTime
  dsimp only [Remaining.within] at hmarked
  rw [length_bytes32] at hfront hlast
  have hsize : pos ≤ p₆ := by omega
  have hbody : p₂ ≤ p₄ := by omega
  have hback : p₆ - p₅ = 4 := by omega
  rw [slice_ok (Nat.le_add_right pos 4) (by omega), slice_ok hbody hp₄, slice_ok (by omega) hp₆,
    minus_ok hsize, minus_ok hbody]
  simp only [pure_bind]
  rw [storedId_ok hsize hp₆, hback, Nat.add_sub_cancel_left, pure_bind]
  exact .ok hp₆

theorem transactions_mirrors : Mirrors buf (transactions buf) Decoder.transactions :=
  compactSize_mirrors.bind fun n => many_mirrors transaction_mirrors n

/-! ## Safety -/

/-- What the buffer gives, the bytes left give. -/
theorem Mirrors.ok {m : Buffered α} {d : Decoder α} (h : Mirrors buf m d) (hpos : pos ≤ buf.length)
    {a : α} {next : Nat} (hm : m pos = .ok (a, next)) :
    next ≤ buf.length ∧ d (.within buf pos) = .ok (a, .within buf next) := by
  have hagrees := h pos hpos
  rw [hm] at hagrees
  generalize d (.within buf pos) = found at hagrees
  cases hagrees with
  | ok hnext => exact ⟨hnext, rfl⟩

theorem transaction_advances (hpos : pos ≤ buf.length) {tx : Transaction} {next : Nat}
    (h : transaction buf pos = .ok (tx, next)) : pos + 10 ≤ next ∧ next ≤ buf.length := by
  obtain ⟨hnext, hread⟩ := transaction_mirrors.ok hpos h
  obtain ⟨_, ⟨l, hl, rfl⟩, hmoved⟩ := next_eq Decoder.transaction_accepts hread
  have hleast := hl.writes.least
  exact ⟨by omega, hnext⟩

theorem attempts_le (n : Nat) (hpos : pos ≤ buf.length) :
    attempts buf n pos ≤ (buf.length - pos) / 10 + 1 := by
  induction n generalizing pos with
  | zero => exact Nat.zero_le _
  | succ n ih =>
    unfold attempts
    split
    · next tx next h =>
      obtain ⟨hmoved, hnext⟩ := transaction_advances hpos h
      have hrest := ih hnext
      omega
    · exact Nat.le_add_left 1 _

theorem attempted_le (buf : Bytes) : attempted buf ≤ buf.length / 10 + 1 := by
  unfold attempted
  split
  · next n next h =>
    have hbound := attempts_le n (compactSize_mirrors.ok (Nat.zero_le _) h).1
    omega
  · exact Nat.zero_le _

/-- All of the transactions that decode were begun, and no others. -/
theorem attempts_of_ok {n : Nat} {txs : List Transaction} {next : Nat}
    (h : many (transaction buf) n pos = .ok (txs, next)) : attempts buf n pos = txs.length := by
  induction n generalizing pos txs with
  | zero =>
    cases h
    rfl
  | succ n ih =>
    unfold many at h
    rw [bind_run] at h
    unfold attempts
    cases hone : transaction buf pos with
    | error e =>
      rw [hone] at h
      cases h
    | ok found =>
      rw [hone] at h
      dsimp only at h ⊢
      rw [bind_run] at h
      cases hrest : many (transaction buf) n found.2 with
      | error e =>
        rw [hrest] at h
        cases h
      | ok others =>
        rw [hrest] at h
        cases h
        rw [ih hrest]
        rfl

theorem attempted_of_ok {txs : List Transaction} {next : Nat}
    (h : transactions buf 0 = .ok (txs, next)) : attempted buf = txs.length := by
  unfold transactions at h
  rw [bind_run] at h
  unfold attempted
  cases hsize : compactSize buf 0 with
  | error e =>
    rw [hsize] at h
    cases h
  | ok found =>
    rw [hsize] at h
    exact attempts_of_ok h

/-- A count that is believed is no more than the bytes left behind it. -/
theorem count_le {least n next : Nat} (hleast : 0 < least) (hpos : pos ≤ buf.length)
    (h : count buf least pos = .ok (n, next)) : n ≤ buf.length - next := by
  unfold count at h
  rw [bind_run] at h
  cases hsize : compactSize buf pos with
  | error e =>
    rw [hsize] at h
    cases h
  | ok found =>
    obtain ⟨value, behind⟩ := found
    rw [hsize] at h
    dsimp only at h
    rw [bind_ok (remaining_ok (compactSize_mirrors.ok hpos hsize).1)] at h
    split at h
    · cases h
    · next hroom =>
      cases h
      have hmul := Nat.le_mul_of_pos_right n hleast
      rw [List.length_drop] at hroom
      omega

end Buffered

/-- No check fails: the buffer is decoded as the bytes are, and refused as they are. -/
theorem decodeBuffer_eq (data : Bytes) :
    decodeBuffer data = (decodeTransactions data).mapError Halt.refused := by
  have h : Buffered.Agrees data (Decoder.transactions ⟨0, data⟩) (Buffered.transactions data 0) :=
    Buffered.transactions_mirrors 0 (Nat.zero_le _)
  unfold decodeBuffer decodeTransactions
  generalize Decoder.transactions ⟨0, data⟩ = found at h
  generalize Buffered.transactions data 0 = reached at h
  cases h <;> rfl

theorem refused_inside {data : Bytes} {e : Error} (he : decodeTransactions data = .error e) :
    ∃ offset fault, e = .invalidTransaction offset fault ∧ offset ≤ data.length := by
  have h : Buffered.Agrees data (Decoder.transactions ⟨0, data⟩) (Buffered.transactions data 0) :=
    Buffered.transactions_mirrors 0 (Nat.zero_le _)
  unfold decodeTransactions at he
  generalize Decoder.transactions ⟨0, data⟩ = found at h he
  generalize Buffered.transactions data 0 = reached at h
  cases h with
  | ok => cases he
  | @refused offset fault hoffset =>
    cases he
    exact ⟨offset, fault, rfl, hoffset⟩

theorem attempted_decodeBuffer {data : Bytes} {txs : List Transaction}
    (h : decodeBuffer data = .ok txs) : Buffered.attempted data = txs.length := by
  unfold decodeBuffer at h
  split at h
  · cases h
  · next found _ hfound =>
    cases h
    exact Buffered.attempted_of_ok hfound

/-- **Decoding is safe and bounded.**  With every slice, difference and move of the position checked
against the data, decoding gives what it gives without the checks, so that none of them fails.  A
transaction takes ten bytes or more, so no more are begun than there are tens of bytes, and one.  A
count that is believed is no more than the bytes left, and an error lies in the data. -/
theorem decoding_stays_inside (data : Bytes) :
    decodeBuffer data = (decodeTransactions data).mapError Halt.refused ∧
      (∀ pos ≤ data.length, ∀ tx next, Buffered.transaction data pos = .ok (tx, next) →
        pos + 10 ≤ next ∧ next ≤ data.length) ∧
      Buffered.attempted data ≤ data.length / 10 + 1 ∧
      (∀ txs, decodeBuffer data = .ok txs → Buffered.attempted data = txs.length) ∧
      (∀ least, 0 < least → ∀ pos ≤ data.length, ∀ n next,
        Buffered.count data least pos = .ok (n, next) → n ≤ data.length - next) ∧
      ∀ e, decodeTransactions data = .error e →
        ∃ offset fault, e = .invalidTransaction offset fault ∧ offset ≤ data.length :=
  ⟨decodeBuffer_eq data, fun _ hpos _ _ h => Buffered.transaction_advances hpos h,
    Buffered.attempted_le data, fun _ h => attempted_decodeBuffer h,
    fun _ hleast _ hpos _ _ h => Buffered.count_le hleast hpos h, fun _ he => refused_inside he⟩

end BlockIndex
