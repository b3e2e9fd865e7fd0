import BlockIndex.Proofs.Transaction.Grammar

/-!
# Decoding undoes encoding

What is written of a transaction is read back, whatever bytes follow it: the shortest form of every
count and length is one of those that the grammar has, so the parts that `encode` puts together are
a layout.

* `Decoder.Reads`               a step reads a value from the bytes that write it;
* `TransactionBody.Encodable`   a body can be written so that its form is recognised;
* `TransactionBody.layout`      the parts that write a body.

Main statements: `TransactionBody.describes_identified`, `Decoder.transactions_reads`,
`decodeTransactions_encodeTransactions`.
-/

namespace BlockIndex

namespace CompactSize

/-- Only zero is written with a zero in front. -/
theorem head?_encode_append {n : Nat} (h : n ≠ 0) (rest : Bytes) :
    (encode n ++ rest).head? ≠ some 0 := by
  unfold encode
  split
  · next hsmall =>
    intro hzero
    have hbyte : UInt8.ofNat n = 0 := Option.some.inj hzero
    have := congrArg UInt8.toNat hbyte
    rw [UInt8.toNat_ofNat'] at this
    have hzero' : (0 : UInt8).toNat = 0 := rfl
    omega
  · split
    · simp
    · split
      · simp
      · simp

theorem length_encode_pos (n : Nat) : 0 < (encode n).length := by
  unfold encode
  repeat' split
  all_goals simp

end CompactSize

section Items

variable {α : Type} {as : List α} {a : α} {least bound : Nat} (encode : α → Bytes)

theorem length_le_flatMap (h : a ∈ as) : (encode a).length ≤ (as.flatMap encode).length := by
  induction as with
  | nil => simp at h
  | cons b as ih =>
    rw [List.flatMap_cons, List.length_append]
    rcases List.mem_cons.1 h with rfl | h
    · omega
    · have := ih h
      omega

/-- Items of at least so many bytes take at least so many bytes each. -/
theorem mul_le_length_flatMap (h : ∀ a ∈ as, least ≤ (encode a).length) :
    as.length * least ≤ (as.flatMap encode).length := by
  induction as with
  | nil => simp
  | cons b as ih =>
    have hb := h b List.mem_cons_self
    have hrest := ih fun a ha => h a (List.mem_cons_of_mem b ha)
    rw [List.flatMap_cons, List.length_append, List.length_cons, Nat.succ_mul]
    omega

/-- Where few bytes are written there are few items, and what is written of each is short. -/
theorem few_of_flatMap (part : α → Bytes) (hleast : 0 < least)
    (h : ∀ a ∈ as, least ≤ (encode a).length) (hpart : ∀ a, (part a).length ≤ (encode a).length)
    (hbound : (as.flatMap encode).length < bound) :
    as.length < bound ∧ ∀ a ∈ as, (part a).length < bound := by
  have hcount := mul_le_length_flatMap encode h
  have hmul := Nat.le_mul_of_pos_right as.length hleast
  refine ⟨by omega, fun a ha => ?_⟩
  calc (part a).length
    _ ≤ (encode a).length := hpart a
    _ ≤ (as.flatMap encode).length := length_le_flatMap encode ha
    _ < bound := hbound

end Items

/-! ## Items -/

section Written

variable {α : Type} {W : Bytes → α → Prop} {as : List α} (encode : α → Bytes)

theorem writesEach_flatMap (h : ∀ a ∈ as, W (encode a) a) : WritesEach W (as.flatMap encode) as :=
  ⟨as.map encode, List.forall₂_map_left_iff.2 (List.forall₂_same.2 h), rfl⟩

theorem writesCounted_flatMap (hlen : as.length < 0x1_0000_0000_0000_0000)
    (h : ∀ a ∈ as, W (encode a) a) :
    WritesCounted W (CompactSize.encode as.length ++ as.flatMap encode) as :=
  ⟨_, _, CompactSize.writes_encode hlen, writesEach_flatMap encode h, rfl⟩

end Written

theorem writesItem_encode {item : Bytes} (h : item.length < 0x1_0000_0000_0000_0000) :
    WritesItem (encodeItem item) item :=
  ⟨_, CompactSize.writes_encode h, rfl⟩

theorem writesInput_encode {i : TransactionInput} (h : i.script.length < 0x1_0000_0000_0000_0000) :
    WritesInput i.encode i :=
  ⟨_, writesItem_encode h, by simp only [TransactionInput.encode, List.append_assoc]⟩

theorem writesOutput_encode {o : TransactionOutput}
    (h : o.script.length < 0x1_0000_0000_0000_0000) : WritesOutput o.encode o :=
  ⟨_, writesItem_encode h, rfl⟩

namespace Decoder

theorem leastItem_le (item : Bytes) : leastItem ≤ (encodeItem item).length := by
  have hpos := CompactSize.length_encode_pos item.length
  rw [leastItem, encodeItem, List.length_append]
  omega

theorem leastInput_le (i : TransactionInput) : leastInput ≤ i.encode.length := by
  have hscript := leastItem_le i.script
  simp only [leastItem] at hscript
  simp only [leastInput, TransactionInput.encode, List.length_append, length_bytes32,
    i.prevTxid.length_eq]
  omega

theorem leastOutput_le (o : TransactionOutput) : leastOutput ≤ o.encode.length := by
  have hscript := leastItem_le o.script
  simp only [leastItem] at hscript
  simp only [leastOutput, TransactionOutput.encode, List.length_append, length_bytes64]
  omega

/-- The witness of an input has a count and lengths that can be written. -/
def WitnessFits (i : TransactionInput) : Prop :=
  i.witness.length < 0x1_0000_0000_0000_0000 ∧
    ∀ item ∈ i.witness, item.length < 0x1_0000_0000_0000_0000

theorem WitnessFits.writes {i : TransactionInput} (h : WitnessFits i) :
    WritesWitness i.encodeWitness i :=
  writesCounted_flatMap encodeItem h.1 fun item hitem => writesItem_encode (h.2 item hitem)

end Decoder

/-! ## A transaction -/

theorem length_le_encodeItem (item : Bytes) : item.length ≤ (encodeItem item).length := by
  rw [encodeItem, List.length_append]
  omega

theorem TransactionInput.length_script_le (i : TransactionInput) :
    i.script.length ≤ i.encode.length := by
  have hscript := length_le_encodeItem i.script
  simp only [encode, List.length_append]
  omega

theorem TransactionOutput.length_script_le (o : TransactionOutput) :
    o.script.length ≤ o.encode.length := by
  have hscript := length_le_encodeItem o.script
  simp only [encode, List.length_append]
  omega

namespace TransactionBody

variable {body : TransactionBody}

/-- A body can be written so that its form is recognised: without witnesses only if it has inputs,
whose number stands where the marker would, and none of them has a witness.  It takes less than
`2 ^ 30` bytes. -/
structure Encodable (body : TransactionBody) : Prop where
  plain : body.segwit = false → body.inputs ≠ [] ∧ ∀ i ∈ body.inputs, i.witness = []
  short : body.encode.length < 0x4000_0000

/-- The inputs after their number. -/
def encodeInputs (body : TransactionBody) : Bytes :=
  CompactSize.encode body.inputs.length ++ body.inputs.flatMap TransactionInput.encode

/-- The outputs after their number. -/
def encodeOutputs (body : TransactionBody) : Bytes :=
  CompactSize.encode body.outputs.length ++ body.outputs.flatMap TransactionOutput.encode

/-- The marker and the flag of the form with witnesses. -/
def encodeForm (body : TransactionBody) : Bytes := if body.segwit then [0, 1] else []

/-- The witnesses, in the form that has them. -/
def encodeWitnesses (body : TransactionBody) : Bytes :=
  if body.segwit then body.inputs.flatMap TransactionInput.encodeWitness else []

theorem encodeTransfers_eq (body : TransactionBody) :
    body.encodeTransfers = body.encodeInputs ++ body.encodeOutputs := by
  rw [encodeTransfers, encodeInputs, encodeOutputs, List.append_assoc _ _ (List.flatMap _ _)]

theorem encode_eq (body : TransactionBody) :
    body.encode = bytes32 body.version ++ (body.encodeForm ++ (body.encodeInputs ++
      (body.encodeOutputs ++ (body.encodeWitnesses ++ bytes32 body.lockTime)))) := by
  unfold encode encodeLegacy encodeForm encodeWitnesses
  rw [encodeTransfers_eq]
  cases body.segwit <;> simp

/-- Without witnesses there is one form only. -/
theorem encode_eq_legacy (h : body.segwit = false) : body.encode = body.encodeLegacy := by
  rw [encode, if_neg (by simp [h])]

theorem length_encodeLegacy (body : TransactionBody) :
    body.encodeLegacy.length = 4 + body.encodeTransfers.length + 4 := by
  simp only [encodeLegacy, List.length_append, length_bytes32]

theorem length_encodeLegacy_le (body : TransactionBody) :
    body.encodeLegacy.length ≤ body.encode.length := by
  rw [encode_eq, encodeLegacy, encodeTransfers_eq]
  simp only [List.length_append]
  omega

theorem Encodable.parts (h : body.Encodable) :
    body.encodeInputs.length + body.encodeOutputs.length + body.encodeWitnesses.length
      < 0x4000_0000 := by
  have hshort := h.short
  rw [encode_eq] at hshort
  simp only [List.length_append] at hshort
  omega

theorem Encodable.inputs_few (h : body.Encodable) :
    body.inputs.length < 0x4000_0000 ∧ ∀ i ∈ body.inputs, i.script.length < 0x4000_0000 := by
  have hparts := h.parts
  rw [encodeInputs, List.length_append] at hparts
  exact few_of_flatMap TransactionInput.encode _ (by decide) (fun i _ => Decoder.leastInput_le i)
    TransactionInput.length_script_le (by omega)

theorem Encodable.outputs_few (h : body.Encodable) :
    body.outputs.length < 0x4000_0000 ∧ ∀ o ∈ body.outputs, o.script.length < 0x4000_0000 := by
  have hparts := h.parts
  rw [encodeOutputs, List.length_append] at hparts
  exact few_of_flatMap TransactionOutput.encode _ (by decide)
    (fun o _ => Decoder.leastOutput_le o) TransactionOutput.length_script_le (by omega)

theorem Encodable.witnesses_few (h : body.Encodable) (hsegwit : body.segwit = true) :
    ∀ i ∈ body.inputs, Decoder.WitnessFits i := by
  intro i hi
  have hparts := h.parts
  rw [encodeWitnesses, if_pos hsegwit] at hparts
  have hwitness := length_le_flatMap TransactionInput.encodeWitness hi
  rw [TransactionInput.encodeWitness, List.length_append] at hwitness
  exact few_of_flatMap encodeItem _ (by decide) (fun item _ => Decoder.leastItem_le item)
    length_le_encodeItem (by omega)

theorem Encodable.writes_inputs (h : body.Encodable) :
    WritesCounted WritesInput body.encodeInputs body.inputs := by
  obtain ⟨hcount, hscripts⟩ := h.inputs_few
  refine writesCounted_flatMap _ (by omega) fun i hi => writesInput_encode ?_
  have := hscripts i hi
  omega

theorem Encodable.writes_outputs (h : body.Encodable) :
    WritesCounted WritesOutput body.encodeOutputs body.outputs := by
  obtain ⟨hcount, hscripts⟩ := h.outputs_few
  refine writesCounted_flatMap _ (by omega) fun o ho => writesOutput_encode ?_
  have := hscripts o ho
  omega

theorem Encodable.writes_witnesses (h : body.Encodable) :
    WritesWitnesses body.segwit body.encodeWitnesses body.inputs := by
  unfold WritesWitnesses encodeWitnesses
  split
  · next hsegwit =>
    exact writesEach_flatMap _ fun i hi => (h.witnesses_few hsegwit i hi).writes
  · next hlegacy => exact ⟨rfl, (h.plain (by simpa using hlegacy)).2⟩

/-- The parts that write a body. -/
def layout (body : TransactionBody) : Layout where
  version := bytes32 body.version
  form := body.encodeForm
  transfers := body.encodeTransfers
  witnesses := body.encodeWitnesses
  lockTime := bytes32 body.lockTime

theorem stored_layout (body : TransactionBody) : body.layout.stored = body.encode := by
  rw [encode_eq, Layout.stored, layout, encodeTransfers_eq]
  simp only [List.append_assoc]

theorem legacy_layout (body : TransactionBody) : body.layout.legacy = body.encodeLegacy := by
  rw [encodeLegacy, List.append_assoc]
  rfl

/-- The number of inputs is not taken for the marker, since it is not zero. -/
theorem Encodable.writes (h : body.Encodable) : body.layout.Writes body where
  version := rfl
  form := rfl
  told hplain := by
    show body.encodeTransfers.head? ≠ some 0
    rw [encodeTransfers_eq, encodeInputs, List.append_assoc]
    exact CompactSize.head?_encode_append
      (fun hzero => (h.plain hplain).1 (List.eq_nil_of_length_eq_zero hzero)) _
  transfers := ⟨_, _, h.writes_inputs, h.writes_outputs, body.encodeTransfers_eq⟩
  witnesses := h.writes_witnesses
  lockTime := rfl

/-- **The parts describe the transaction** that the body makes. -/
theorem describes_identified (h : body.layout.Writes body) :
    body.layout.Describes body.identified where
  writes := h
  txid := by rw [legacy_layout]; rfl
  wtxid := by
    rw [stored_layout]
    split
    · rfl
    · next hform =>
      show Hash.doubleSha256 body.encode = Hash.doubleSha256 body.encodeLegacy
      rw [encode_eq_legacy (Bool.eq_false_iff.2 hform : body.segwit = false)]
  size := by rw [stored_layout]; rfl
  vsize := by rw [legacy_layout]; rfl

end TransactionBody

namespace Decoder

/-- A step reads a value from the bytes that write it, whatever follows them. -/
def Reads {α : Type} (one : Decoder α) (bytes : Bytes) (a : α) : Prop :=
  ∀ pos rest, one ⟨pos, bytes ++ rest⟩ = .ok (a, ⟨pos + bytes.length, rest⟩)

theorem Accepts.reads {α : Type} {one : Decoder α} {W : Bytes → α → Prop} {bytes : Bytes} {a : α}
    (h : one.Accepts W) (hwrites : W bytes a) : one.Reads bytes a :=
  fun _ _ => (h _ _ _).2 ⟨bytes, hwrites, rfl, rfl⟩

theorem transactions_reads {bodies : List TransactionBody}
    (hcount : bodies.length < 0x1_0000_0000_0000_0000) (h : ∀ body ∈ bodies, body.Encodable) :
    transactions.Reads (encodeTransactions bodies) (bodies.map TransactionBody.identified) := by
  have hparts : List.Forall₂ WritesTransaction (bodies.map TransactionBody.encode)
      (bodies.map TransactionBody.identified) := by
    rw [List.forall₂_map_left_iff, List.forall₂_map_right_iff, List.forall₂_same]
    exact fun body hbody => ⟨body.layout, TransactionBody.describes_identified (h body hbody).writes,
      body.stored_layout.symm⟩
  refine transactions_accepts.reads ⟨_, _, ?_, ⟨_, hparts, rfl⟩, rfl⟩
  rw [List.length_map]
  exact CompactSize.writes_encode hcount

end Decoder

/-! ## Ids and sizes -/

/-- A transaction says what a body says and has the ids and sizes of the bytes that write it. -/
structure Identifies (tx : Transaction) (body : TransactionBody) : Prop where
  fields : tx.toTransactionBody = body
  txid : tx.txid = Hash.doubleSha256 body.encodeLegacy
  wtxid : tx.wtxid = Hash.doubleSha256 body.encode
  legacy : body.segwit = false → tx.wtxid = tx.txid
  size : tx.size.toNat = body.encode.length
  /-- A quarter rounded up. -/
  vsize : tx.vsize.toNat = (3 * body.encodeLegacy.length + body.encode.length + 3) / 4

theorem TransactionBody.Encodable.identifies {body : TransactionBody} (h : body.Encodable) :
    Identifies body.identified body := by
  have hshort := h.short
  refine ⟨rfl, rfl, rfl, fun hform => ?_, ?_, ?_⟩
  · show Hash.doubleSha256 body.encode = Hash.doubleSha256 body.encodeLegacy
    rw [encode_eq_legacy hform]
  · show (UInt32.ofNat body.encode.length).toNat = body.encode.length
    rw [UInt32.toNat_ofNat']
    omega
  · exact toNat_virtualSize hshort body.length_encodeLegacy_le fun hform => by
      rw [encode_eq_legacy hform]

/-- **Decoding undoes encoding.**  Block data of as many transactions as a count can be written for
gives them back, each with its ids and its sizes, whatever bytes trail behind them. -/
theorem decodeTransactions_encodeTransactions {bodies : List TransactionBody}
    (hcount : bodies.length < 0x1_0000_0000_0000_0000) (h : ∀ body ∈ bodies, body.Encodable)
    (trailing : Bytes) :
    decodeTransactions (encodeTransactions bodies ++ trailing)
        = .ok (bodies.map TransactionBody.identified) ∧
      ∀ body ∈ bodies, Identifies body.identified body := by
  refine ⟨?_, fun body hbody => (h body hbody).identifies⟩
  rw [decodeTransactions, Decoder.transactions_reads hcount h]

/-! ### One transaction of each form -/

/-- A transaction in the form without witnesses. -/
def plainBody : TransactionBody where
  version := 1
  segwit := false
  inputs := [⟨.zero, coinbaseIndex, [0x51, 0x52], 0xFFFFFFFF, []⟩]
  outputs := [⟨5_000_000_000, [0xAC]⟩, ⟨0, []⟩]
  lockTime := 0

/-- A transaction whose second input has witness items, one of them empty. -/
def witnessedBody : TransactionBody where
  version := 2
  segwit := true
  inputs := [⟨.zero, 0, [], 0xFFFFFFFE, []⟩, ⟨.zero, 1, [], 0xFFFFFFFE, [[0x30, 0x44], []]⟩]
  outputs := [⟨1, [0x00, 0x14]⟩]
  lockTime := 700_000

theorem decodeTransactions_both_forms :
    decodeTransactions (encodeTransactions [plainBody, witnessedBody] ++ [0xAB, 0xCD])
        = .ok [plainBody.identified, witnessedBody.identified] ∧
      plainBody.identified.vsize = 72 ∧ witnessedBody.identified.vsize = 105 := by
  have hbodies : ∀ body ∈ [plainBody, witnessedBody], body.Encodable := by
    intro body hbody
    rcases List.mem_cons.1 hbody with rfl | hbody
    · exact ⟨by decide, by decide⟩
    · obtain rfl := List.mem_singleton.1 hbody
      exact ⟨by decide, by decide⟩
  exact ⟨(decodeTransactions_encodeTransactions (by decide) hbodies [0xAB, 0xCD]).1,
    by decide, by decide⟩

end BlockIndex
