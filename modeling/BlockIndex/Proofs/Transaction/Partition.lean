import BlockIndex.Proofs.Transaction.Encoding

/-!
# Accepted block data

Block data that decodes is a count, one slice for each transaction, and a rest that nothing looks
at.  The slices are layouts of the transactions, whether or not their counts and lengths are written
in the shortest form, so every id is the hash of the bytes that it should be.

* `Partition`   block data cut into a count, slices and a rest.

Main statements: `decodeTransactions_eq_ok_iff`, `decodeTransactions_partition`.
-/

namespace BlockIndex

/-- Block data cut into a count, one slice for each transaction, and a rest. -/
structure Partition (data : Bytes) (txs : List Transaction) where
  count : Bytes
  /-- The parts of the slices, in order. -/
  layouts : List Layout
  rest : Bytes
  data_eq : data = count ++ layouts.flatMap Layout.stored ++ rest
  writes : CompactSize.Writes count txs.length
  describes : List.Forall₂ Layout.Describes layouts txs

namespace Partition

variable {data : Bytes} {txs : List Transaction}

/-- The bytes before the rest. -/
def consumed (p : Partition data txs) : Bytes := p.count ++ p.layouts.flatMap Layout.stored

/-- The same cut of longer data. -/
def extend (p : Partition data txs) (more : Bytes) : Partition (data ++ more) txs :=
  { p with
    rest := p.rest ++ more
    data_eq := (congrArg (· ++ more) p.data_eq).trans (List.append_assoc _ _ _) }

theorem consumed_extend (p : Partition data txs) (more : Bytes) :
    (p.extend more).consumed = p.consumed := rfl

theorem length_consumed_le (p : Partition data txs) : p.consumed.length ≤ data.length := by
  have hlen : data.length = p.consumed.length + p.rest.length :=
    (congrArg List.length p.data_eq).trans List.length_append
  omega

theorem writesEach (p : Partition data txs) :
    WritesEach WritesTransaction (p.layouts.flatMap Layout.stored) txs :=
  ⟨p.layouts.map Layout.stored,
    List.forall₂_map_left_iff.2 (p.describes.imp fun l _ h => ⟨l, h, rfl⟩), rfl⟩

/-- Decoding takes what is before the rest. -/
theorem transactions_ok (p : Partition data txs) :
    Decoder.transactions ⟨0, data⟩ = .ok (txs, ⟨p.consumed.length, p.rest⟩) :=
  (Decoder.transactions_accepts _ _ _).2
    ⟨p.consumed, ⟨p.count, _, p.writes, p.writesEach, rfl⟩, p.data_eq, (Nat.zero_add _).symm⟩

end Partition

/-- Slices that write transactions are layouts of them. -/
theorem exists_layouts {back : Bytes} {txs : List Transaction}
    (h : WritesEach WritesTransaction back txs) : ∃ layouts : List Layout,
      back = layouts.flatMap Layout.stored ∧ List.Forall₂ Layout.Describes layouts txs := by
  obtain ⟨parts, hparts, rfl⟩ := h
  induction hparts with
  | nil => exact ⟨[], rfl, .nil⟩
  | cons hl _ ih =>
    obtain ⟨l, hdescribes, rfl⟩ := hl
    obtain ⟨layouts, hback, hlayouts⟩ := ih
    exact ⟨l :: layouts, by rw [List.flatten_cons, List.flatMap_cons, hback],
      .cons hdescribes hlayouts⟩

/-- **Decoding is finding a partition.** -/
theorem decodeTransactions_eq_ok_iff {data : Bytes} {txs : List Transaction} :
    decodeTransactions data = .ok txs ↔ Nonempty (Partition data txs) := by
  constructor
  · intro h
    unfold decodeTransactions at h
    cases hrun : Decoder.transactions ⟨0, data⟩ with
    | error e => simp [hrun] at h
    | ok found =>
      obtain ⟨txs', t⟩ := found
      rw [hrun] at h
      obtain rfl : txs' = txs := by simpa using h
      obtain ⟨_, ⟨count, back, hcount, hback, rfl⟩, hgives⟩ :=
        (Decoder.transactions_accepts _ _ _).1 hrun
      obtain ⟨layouts, rfl, hlayouts⟩ := exists_layouts hback
      exact ⟨⟨count, layouts, t.rest, hgives.rest, hcount, hlayouts⟩⟩
  · rintro ⟨p⟩
    rw [decodeTransactions, p.transactions_ok]

theorem Partition.consumed_length_eq {data : Bytes} {txs txs' : List Transaction}
    (p : Partition data txs) (q : Partition data txs') :
    p.consumed.length = q.consumed.length := by
  have hsame := p.transactions_ok.symm.trans q.transactions_ok
  simp only [Except.ok.injEq, Prod.mk.injEq, Remaining.mk.injEq] at hsame
  exact hsame.2.1

/-- A size is a word, so it is the length of what is stored as far as a word can tell. -/
theorem Layout.Describes.toNat_size {l : Layout} {tx : Transaction} (h : l.Describes tx) :
    tx.size.toNat = l.stored.length % 0x1_0000_0000 := by
  rw [h.size, UInt32.toNat_ofNat']

/-- **Accepted block data is partitioned, and what can be partitioned is accepted.**  The count is
the number of transactions, and the slices are the transactions in order: the ids hash the slice and
the slice without marker, flag and witnesses, and the size is the length of the slice modulo
`2 ^ 32`, which is the length itself for all that fits in a record.  What follows the slices is not
looked at, and data that ends before they do is refused. -/
theorem decodeTransactions_partition (data : Bytes) (txs : List Transaction) :
    (decodeTransactions data = .ok txs ↔ Nonempty (Partition data txs)) ∧
      ∀ p : Partition data txs,
        List.Forall₂ (fun l tx => tx.size.toNat = l.stored.length % 0x1_0000_0000)
          p.layouts txs ∧
        (∀ more, decodeTransactions (data ++ more) = .ok txs) ∧
        ∀ short, short <+: data → short.length < p.consumed.length →
          ∃ e, decodeTransactions short = .error e := by
  refine ⟨decodeTransactions_eq_ok_iff, fun p => ⟨p.describes.imp fun _ _ hl => hl.toNat_size,
    fun more => decodeTransactions_eq_ok_iff.2 ⟨p.extend more⟩, ?_⟩⟩
  rintro short ⟨more, rfl⟩ hcut
  cases hshort : decodeTransactions short with
  | error e => exact ⟨e, rfl⟩
  | ok found =>
    -- what the shorter data gives, the longer data gives too, and from as many bytes
    obtain ⟨q⟩ := decodeTransactions_eq_ok_iff.1 hshort
    have hsame := p.consumed_length_eq (q.extend more)
    have hfits := q.length_consumed_le
    rw [q.consumed_extend] at hsame
    omega

/-- Two transactions, their number in three bytes where one would do. -/
def lengthened : Bytes := [0xfd, 2, 0] ++ (plainBody.encode ++ witnessedBody.encode)

/-- The two transactions, with nothing after them. -/
def lengthenedPartition : Partition lengthened [plainBody.identified, witnessedBody.identified] where
  count := [0xfd, 2, 0]
  layouts := [plainBody.layout, witnessedBody.layout]
  rest := []
  data_eq := by simp [lengthened, TransactionBody.stored_layout]
  writes := CompactSize.Writes.two rfl
  describes :=
    have hplain : plainBody.Encodable := ⟨by decide, by decide⟩
    have hwitnessed : witnessedBody.Encodable := ⟨by decide, by decide⟩
    .cons (TransactionBody.describes_identified hplain.writes)
      (.cons (TransactionBody.describes_identified hwitnessed.writes) .nil)

theorem lengthened_partitioned :
    decodeTransactions (lengthened ++ [0xAB, 0xCD])
        = .ok [plainBody.identified, witnessedBody.identified] ∧
      ∀ k < lengthened.length, ∃ e, decodeTransactions (lengthened.take k) = .error e := by
  obtain ⟨_, hmore, hshort⟩ := (decodeTransactions_partition _ _).2 lengthenedPartition
  refine ⟨hmore [0xAB, 0xCD], fun k hk => hshort _ (List.take_prefix k _) ?_⟩
  have hall : lengthenedPartition.consumed = lengthened := by
    rw [← List.append_nil lengthenedPartition.consumed]
    exact lengthenedPartition.data_eq.symm
  rw [hall, List.length_take]
  omega

/-! ### Transactions with one long condition -/

/-- A transaction with one output, which pays nothing. -/
def paying (segwit : Bool) (script : Bytes) : TransactionBody where
  version := 2
  segwit
  inputs := [⟨.zero, 0, [], 0xFFFFFFFF, []⟩]
  outputs := [⟨0, script⟩]
  lockTime := 0

section Paying

variable (segwit : Bool) (script : Bytes)

theorem length_legacy_paying :
    (paying segwit script).encodeLegacy.length = (encodeItem script).length + 59 := by
  have hin : (paying segwit script).encodeInputs.length = 42 := rfl
  have hout : (paying segwit script).encodeOutputs = 1 :: (bytes64 0 ++ encodeItem script) := by
    simp only [TransactionBody.encodeOutputs, paying, List.flatMap_singleton]
    rfl
  rw [TransactionBody.length_encodeLegacy, TransactionBody.encodeTransfers_eq, List.length_append,
    hin, hout, List.length_cons, List.length_append, length_bytes64]
  omega

variable {script}

theorem writes_paying (hscript : script.length < 0x1_0000_0000_0000_0000) :
    (paying segwit script).layout.Writes (paying segwit script) where
  version := rfl
  form := rfl
  told _ := by
    show some (1 : UInt8) ≠ some 0
    decide
  transfers := by
    refine ⟨_, _, ?_, ?_, TransactionBody.encodeTransfers_eq _⟩
    · refine writesCounted_flatMap _ (by simp [paying]) fun i hi => ?_
      obtain rfl := List.mem_singleton.1 hi
      exact writesInput_encode (by decide)
    · refine writesCounted_flatMap _ (by simp [paying]) fun o ho => writesOutput_encode ?_
      obtain rfl := List.mem_singleton.1 ho
      exact hscript
  witnesses := by
    unfold WritesWitnesses TransactionBody.layout TransactionBody.encodeWitnesses
    split
    · refine writesEach_flatMap _ fun i hi => ?_
      obtain rfl := List.mem_singleton.1 hi
      exact writesCounted_flatMap encodeItem (by decide) nofun
    · refine ⟨rfl, fun i hi => ?_⟩
      obtain rfl := List.mem_singleton.1 hi
      rfl
  lockTime := rfl

/-- A block of the one transaction. -/
def payingPartition (hscript : script.length < 0x1_0000_0000_0000_0000) :
    Partition (1 :: (paying segwit script).encode) [(paying segwit script).identified] where
  count := [1]
  layouts := [(paying segwit script).layout]
  rest := []
  data_eq := by
    rw [List.flatMap_singleton, TransactionBody.stored_layout, List.append_nil]
    rfl
  writes := CompactSize.writes_one
  describes := .cons (TransactionBody.describes_identified (writes_paying segwit hscript)) .nil

/-- Every cut of the block takes all of it. -/
theorem length_consumed_paying (hscript : script.length < 0x1_0000_0000_0000_0000)
    {txs : List Transaction} (p : Partition (1 :: (paying segwit script).encode) txs) :
    p.consumed.length = (paying segwit script).encode.length + 1 := by
  rw [p.consumed_length_eq (payingPartition segwit hscript), ← @List.length_cons _ 1,
    ← List.append_nil (payingPartition segwit hscript).consumed]
  exact congrArg List.length (payingPartition segwit hscript).data_eq.symm

end Paying

/-- A condition of `2 ^ 32` bytes. -/
@[irreducible] def vastScript : Bytes := List.replicate 0x1_0000_0000 0

theorem length_vastScript : vastScript.length = 0x1_0000_0000 := by
  unfold vastScript
  exact List.length_replicate

theorem length_vastScript_lt : vastScript.length < 0x1_0000_0000_0000_0000 := by
  rw [length_vastScript]
  decide

/-- A transaction in the form without witnesses that is longer than a word can say. -/
def vastBody : TransactionBody := paying false vastScript

/-- A block of the vast transaction. -/
def vastBlock : Bytes := 1 :: vastBody.encode

theorem length_vastBody : vastBody.encode.length = 0x1_0000_0000 + 68 := by
  have hsize : (CompactSize.encode 0x1_0000_0000).length = 9 := by decide
  rw [vastBody, TransactionBody.encode_eq_legacy rfl, length_legacy_paying, encodeItem,
    List.length_append, length_vastScript, hsize]

theorem writes_vastBody : vastBody.layout.Writes vastBody :=
  writes_paying false length_vastScript_lt

theorem toNat_size_vastBody : vastBody.identified.size.toNat = 68 := by
  rw [(TransactionBody.describes_identified writes_vastBody).toNat_size,
    TransactionBody.stored_layout, length_vastBody]

/-- The size of more than four gigabytes is 68, and however the block is cut, its slice is longer
than that. -/
theorem vastBlock_size : decodeTransactions vastBlock = .ok [vastBody.identified] ∧
    vastBody.identified.size.toNat = 68 ∧
    ¬ ∃ p : Partition vastBlock [vastBody.identified],
      List.Forall₂ (fun l tx => l.stored.length = tx.size.toNat)
        p.layouts [vastBody.identified] := by
  refine ⟨decodeTransactions_eq_ok_iff.2 ⟨payingPartition false length_vastScript_lt⟩,
    toNat_size_vastBody, ?_⟩
  rintro ⟨p, hexact⟩
  have hall : p.consumed.length = 0x1_0000_0000 + 69 :=
    (length_consumed_paying false length_vastScript_lt p).trans
      (congrArg (· + 1) length_vastBody)
  obtain ⟨l, hlayouts⟩ : ∃ l, p.layouts = [l] := List.length_eq_one_iff.1 p.describes.length_eq
  rw [hlayouts, List.forall₂_cons, toNat_size_vastBody] at hexact
  have hcount := p.writes.length_le
  have hslice := hexact.1
  rw [Partition.consumed, hlayouts, List.flatMap_singleton, List.length_append] at hall
  omega

end BlockIndex
