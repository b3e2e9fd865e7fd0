import BlockIndex.Error
import BlockIndex.Transaction

/-!
# Decoding transactions

A decoder takes values from the front of the bytes that are left and knows how many it has taken,
since every error names the place where it arose.

* `Decoder`              a step that takes a value or fails;
* `Decoder.transaction`  one transaction, of either form;
* `decodeTransactions`   block data: a count and that many transactions, whatever follows them.

A count is believed only if the bytes left can hold that many of the shortest items, and a length
only if that many bytes are left, so a decoder never builds more than the data holds.
-/

namespace BlockIndex

/-- Bytes being decoded: how many were taken and which are left. -/
structure Remaining where
  pos : Nat
  rest : Bytes
  deriving DecidableEq, Repr

/-- A step of decoding. -/
abbrev Decoder (α : Type) := StateT Remaining (Except Error) α

namespace Decoder

/-- Fails at the present place. -/
def fail {α : Type} (fault : TransactionFault) : Decoder α := fun s =>
  .error (.invalidTransaction s.pos fault)

/-- The next `n` bytes. -/
def take (n : Nat) : Decoder Bytes := fun s =>
  match splitFront n s.rest with
  | some (front, rest) => .ok (front, ⟨s.pos + n, rest⟩)
  | none => .error (.invalidTransaction s.pos (.missingBytes n s.rest.length))

/-- A 32-bit word. -/
def word : Decoder UInt32 := do
  let bytes ← take 4
  return word32 bytes

/-- A 64-bit word. -/
def longWord : Decoder UInt64 := do
  let bytes ← take 8
  return word64 bytes

/-- A hash. -/
def hash : Decoder Hash := fun s =>
  match h : splitFront 32 s.rest with
  | some (front, rest) => .ok (⟨front, (splitFront_eq_some_iff.1 h).2⟩, ⟨s.pos + 32, rest⟩)
  | none => .error (.invalidTransaction s.pos (.missingBytes 32 s.rest.length))

/-- A compact size. -/
def compactSize : Decoder Nat := fun s =>
  match CompactSize.decode? s.rest with
  | some (value, used) => .ok (value, ⟨s.pos + used, s.rest.drop used⟩)
  | none => .error (.invalidTransaction s.pos .truncatedSize)

/-- A length prefix and that many bytes. -/
def item : Decoder Bytes := do
  let length ← compactSize
  let s ← get
  if hasAtLeast length s.rest then take length
  else fail (.lengthExceeds length s.rest.length)

/-- A count of items of at least `least` bytes each. -/
def count (least : Nat) : Decoder Nat := do
  let n ← compactSize
  let s ← get
  if hasAtLeast (n * least) s.rest then return n
  else fail (.countExceeds n)

/-- Further `n` items after those in `taken`, the last taken first. -/
def manyFrom {α : Type} (one : Decoder α) : Nat → List α → Decoder (List α)
  | 0, taken => fun s => .ok (taken.reverse, s)
  | n + 1, taken => fun s =>
    match one s with
    | .error e => .error e
    | .ok (a, s') => manyFrom one n (a :: taken) s'

/-- Just `n` items. -/
def many {α : Type} (one : Decoder α) (n : Nat) : Decoder (List α) := manyFrom one n []

/-- A count, and that many items of at least `least` bytes each. -/
def counted {α : Type} (least : Nat) (one : Decoder α) : Decoder (List α) := do
  let n ← count least
  many one n

/-! ## Parts of a transaction -/

/-- The fewest bytes of an input: an id, an index, an empty script and a sequence number. -/
def leastInput : Nat := 41

/-- The fewest bytes of an output: an amount and an empty script. -/
def leastOutput : Nat := 9

/-- The fewest bytes of a witness item. -/
def leastItem : Nat := 1

/-- An input without its witness. -/
def input : Decoder TransactionInput := do
  let prevTxid ← hash
  let prevIndex ← word
  let script ← item
  let sequence ← word
  return ⟨prevTxid, prevIndex, script, sequence, []⟩

/-- An output. -/
def output : Decoder TransactionOutput := do
  let amount ← longWord
  let script ← item
  return ⟨amount, script⟩

/-- Further witnesses, one for each input, after the inputs in `taken`, the last taken first. -/
def witnessesFrom : List TransactionInput → List TransactionInput → Decoder (List TransactionInput)
  | [], taken => fun s => .ok (taken.reverse, s)
  | next :: others, taken => fun s =>
    match counted leastItem item s with
    | .error e => .error e
    | .ok (items, s') => witnessesFrom others ({ next with witness := items } :: taken) s'

/-- The inputs with the witnesses that follow the outputs. -/
def witnesses (inputs : List TransactionInput) : Decoder (List TransactionInput) :=
  witnessesFrom inputs []

/-- Whether the witness marker stands next.  A form without witnesses has its number of inputs
there, which is not zero. -/
def atMarker : Decoder Bool := do
  let s ← get
  return s.rest.head? = some 0

/-- The marker and the flag of the form with witnesses. -/
def markerAndFlag : Decoder Unit := do
  let _ ← take 1
  let s ← get
  match s.rest with
  | [] => fail (.missingBytes 1 0)
  | flag :: rest =>
    if flag = 1 then set (⟨s.pos + 1, rest⟩ : Remaining)
    else fail (.badFlag flag)

/-- Whether the form with witnesses follows, its marker and flag being taken if it does. -/
def form : Decoder Bool := do
  let segwit ← atMarker
  if segwit then markerAndFlag
  return segwit

/-- The inputs with the witnesses that one of the two forms has. -/
def witnessesIf (segwit : Bool) (inputs : List TransactionInput) :
    Decoder (List TransactionInput) :=
  if segwit then witnesses inputs else return inputs

/-- One transaction of either form.  The bytes of the form without witnesses are put together from
three slices of what was taken. -/
def transaction : Decoder Transaction := do
  let start ← get
  let version ← word
  let segwit ← form
  let bodyStart ← get
  let inputs ← counted leastInput input
  let outputs ← counted leastOutput output
  let bodyEnd ← get
  let inputs ← witnessesIf segwit inputs
  let lockStart ← get
  let lockTime ← word
  let stop ← get
  let body := bodyStart.rest.take (bodyEnd.pos - bodyStart.pos)
  let legacy := start.rest.take 4 ++ body ++ lockStart.rest.take 4
  let stored := start.rest.take (stop.pos - start.pos)
  let txid := Hash.doubleSha256 legacy
  let size := UInt32.ofNat (stop.pos - start.pos)
  let legacySize := UInt32.ofNat (4 + (bodyEnd.pos - bodyStart.pos) + 4)
  return {
    version, segwit, inputs, outputs, lockTime, txid, size
    wtxid := if segwit then Hash.doubleSha256 stored else txid
    vsize := virtualSize segwit legacySize size }

/-- Block data: a count and that many transactions. -/
def transactions : Decoder (List Transaction) := do
  let n ← compactSize
  many transaction n

/-! ## Laws of repetition -/

theorem manyFrom_eq {α : Type} (one : Decoder α) (n : Nat) (taken : List α) (s : Remaining) :
    manyFrom one n taken s =
      (many one n s).map fun r => (taken.reverse ++ r.1, r.2) := by
  unfold many
  induction n generalizing taken s with
  | zero => simp [manyFrom, Except.map]
  | succ n ih =>
    simp only [manyFrom]
    cases one s with
    | error e => rfl
    | ok r =>
      obtain ⟨a, s'⟩ := r
      simp only
      rw [ih (a :: taken) s', ih [a] s']
      cases manyFrom one n [] s' with
      | error e => rfl
      | ok r => simp [Except.map]

@[simp] theorem many_zero {α : Type} (one : Decoder α) (s : Remaining) :
    many one 0 s = .ok ([], s) := rfl

theorem many_succ {α : Type} (one : Decoder α) (n : Nat) (s : Remaining) :
    many one (n + 1) s =
      match one s with
      | .error e => .error e
      | .ok (a, s') => (many one n s').map fun r => (a :: r.1, r.2) := by
  unfold many
  simp only [manyFrom]
  cases one s with
  | error e => rfl
  | ok r =>
    obtain ⟨a, s'⟩ := r
    simp only
    rw [manyFrom_eq]
    rfl

end Decoder

/-- Every transaction in `data`, the bytes of a block after its header. -/
def decodeTransactions (data : Bytes) : Except Error (List Transaction) :=
  match Decoder.transactions ⟨0, data⟩ with
  | .error e => .error e
  | .ok (txs, _) => .ok txs

end BlockIndex
