import BlockIndex.Proofs.Transaction.Partition

/-!
# Sizes of decoded transactions

A record holds at most `2 ^ 32 - 1` bytes, so the sizes of the transactions in it are words.  The
virtual size of the form with witnesses takes a sum in a word that need not fit: a transaction of a
gigabyte without its witnesses brings it past `2 ^ 32`, and the virtual size then starts over.

* `Layout.weight`   four times the virtual size, before rounding.

Main statement: `sizes_exact_iff`.
-/

namespace BlockIndex

/-- Three times the bytes without marker, flag and witnesses, and once all bytes. -/
def Layout.weight (l : Layout) : Nat := 3 * l.legacy.length + l.stored.length

namespace Layout.Describes

variable {l : Layout} {tx : Transaction}

theorem vsize_legacy (h : l.Describes tx) (hform : tx.segwit = false) : tx.vsize = tx.size := by
  rw [h.vsize, hform]
  rfl

theorem toNat_vsize (h : l.Describes tx) (hform : tx.segwit = true) :
    tx.vsize.toNat = (l.weight % 0x1_0000_0000 + 3) / 4 := by
  rw [h.vsize, hform, h.size, toNat_virtualSize_true]
  rfl

/-- The sum that starts over is too small by a quarter of `2 ^ 32` or more. -/
theorem vsize_exact_iff (h : l.Describes tx) (hform : tx.segwit = true) :
    tx.vsize.toNat = (l.weight + 3) / 4 ↔ l.weight < 0x1_0000_0000 := by
  rw [h.toNat_vsize hform]
  omega

end Layout.Describes

theorem Partition.length_stored_le {data : Bytes} {txs : List Transaction} (p : Partition data txs)
    {l : Layout} (hl : l ∈ p.layouts) : l.stored.length ≤ data.length := by
  have hpart := length_le_flatMap Layout.stored hl
  have hall := p.length_consumed_le
  rw [Partition.consumed, List.length_append] at hall
  omega

/-- **Sizes are exact as far as the sum fits in a word.** -/
theorem sizes_exact_iff {data : Bytes} {txs : List Transaction}
    (hroom : data.length ≤ 0xFFFF_FFFF - 80) (h : decodeTransactions data = .ok txs) :
    Nonempty (Partition data txs) ∧ ∀ p : Partition data txs, List.Forall₂ (fun l tx =>
      tx.size.toNat = l.stored.length ∧
      (tx.segwit = false → tx.vsize.toNat = l.stored.length) ∧
      (tx.segwit = true →
        (tx.vsize.toNat = (l.weight + 3) / 4 ↔ l.weight < 0x1_0000_0000))) p.layouts txs := by
  refine ⟨decodeTransactions_eq_ok_iff.1 h, fun p => ?_⟩
  have hlayouts := (List.forall₂_and_left _ _).2 ⟨fun _ hl => p.length_stored_le hl, p.describes⟩
  refine hlayouts.imp fun l tx ⟨hfits, hdescribes⟩ => ?_
  have hsize : tx.size.toNat = l.stored.length := by
    rw [hdescribes.toNat_size]
    omega
  exact ⟨hsize, fun hform => by rw [hdescribes.vsize_legacy hform, hsize],
    hdescribes.vsize_exact_iff⟩

/-! ### A transaction of a gigabyte -/

/-- A condition of `2 ^ 30` bytes. -/
@[irreducible] def greatScript : Bytes := List.replicate 0x4000_0000 0

theorem length_greatScript : greatScript.length = 0x4000_0000 := by
  unfold greatScript
  exact List.length_replicate

/-- A transaction in the form with witnesses whose only output has the great condition. -/
def greatBody : TransactionBody where
  version := 2
  segwit := true
  inputs := [⟨.zero, 0, [], 0xFFFFFFFF, []⟩]
  outputs := [⟨0, greatScript⟩]
  lockTime := 0

theorem length_legacy_greatBody : greatBody.encodeLegacy.length = 0x4000_0000 + 64 := by
  have hsize : (CompactSize.encode 0x4000_0000).length = 5 := by decide
  have hlegacy := length_legacy_paying true greatScript
  rw [encodeItem, List.length_append, length_greatScript, hsize] at hlegacy
  exact hlegacy

theorem length_greatBody : greatBody.encode.length = 0x4000_0000 + 67 := by
  have hlegacy := length_legacy_greatBody
  have hform : greatBody.encodeForm.length = 2 := by decide
  have hwits : greatBody.encodeWitnesses.length = 1 := by decide
  rw [greatBody.length_encodeLegacy, greatBody.encodeTransfers_eq, List.length_append] at hlegacy
  simp only [greatBody.encode_eq, List.length_append, length_bytes32, hform, hwits]
  omega

theorem writes_greatBody : greatBody.layout.Writes greatBody := by
  refine writes_paying true ?_
  rw [length_greatScript]
  decide

/-- A block of the great transaction. -/
def greatBlock : Bytes := 1 :: greatBody.encode

/-- The one slice. -/
def greatPartition : Partition greatBlock [greatBody.identified] where
  count := [1]
  layouts := [greatBody.layout]
  rest := []
  data_eq := by
    rw [List.flatMap_singleton, greatBody.stored_layout, List.append_nil]
    rfl
  writes := CompactSize.writes_one
  describes := .cons (TransactionBody.describes_identified writes_greatBody) .nil

/-- The sum is `2 ^ 32 + 259`, so a gigabyte has a virtual size of 65. -/
theorem greatBlock_sizes : greatBlock.length ≤ 0xFFFF_FFFF - 80 ∧
    decodeTransactions greatBlock = .ok [greatBody.identified] ∧
    greatBody.identified.vsize.toNat = 65 ∧
    greatBody.identified.vsize.toNat
      ≠ (3 * greatBody.encodeLegacy.length + greatBody.encode.length + 3) / 4 := by
  have hroom : greatBlock.length ≤ 0xFFFF_FFFF - 80 := by
    rw [greatBlock, List.length_cons, length_greatBody]
    decide
  have hweight : greatBody.layout.weight = 0x1_0000_0000 + 259 := by
    rw [Layout.weight, greatBody.legacy_layout, greatBody.stored_layout, length_legacy_greatBody,
      length_greatBody]
  have hvsize : greatBody.identified.vsize.toNat = 65 := by
    rw [(TransactionBody.describes_identified writes_greatBody).toNat_vsize rfl, hweight]
  have hdecodes := decodeTransactions_eq_ok_iff.2 ⟨greatPartition⟩
  have hsizes := (sizes_exact_iff hroom hdecodes).2 greatPartition
  obtain ⟨⟨_, _, hiff⟩, _⟩ := List.forall₂_cons.1 hsizes
  refine ⟨hroom, hdecodes, hvsize, fun hexact => ?_⟩
  have hfits : greatBody.layout.weight < 0x1_0000_0000 := (hiff rfl).1 <| by
    rw [Layout.weight, greatBody.legacy_layout, greatBody.stored_layout]
    exact hexact
  rw [hweight] at hfits
  exact absurd hfits (by decide)

end BlockIndex
