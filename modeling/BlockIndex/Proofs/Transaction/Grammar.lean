import BlockIndex.Proofs.Transaction.Steps

/-!
# The grammar of transactions

A transaction is a layout: five parts, each of which writes some of its fields.  The decoder takes
just these strings, and the ids and sizes that it computes from positions are those of the layout.
Counts and lengths may be longer than needed, so one transaction has many layouts.

* `Layout`            the five parts of a written transaction;
* `Layout.Writes`     the parts write what a body says;
* `Layout.Describes`  they describe a transaction, its ids and sizes included.

Main statements: `Decoder.witnesses_accepts`, `Decoder.transaction_accepts`,
`Decoder.transactions_accepts`.
-/

namespace BlockIndex

/-! ## Written forms -/

/-- An input as it is before its witness is read. -/
def Decoder.bare (i : TransactionInput) : TransactionInput := { i with witness := [] }

/-- An input without its witness. -/
def WritesInput (bytes : Bytes) (i : TransactionInput) : Prop :=
  ∃ script, WritesItem script i.script ∧
    bytes = i.prevTxid.bytes ++ (bytes32 i.prevIndex ++ (script ++ bytes32 i.sequence))

/-- The witness items of an input. -/
def WritesWitness (bytes : Bytes) (i : TransactionInput) : Prop :=
  WritesCounted WritesItem bytes i.witness

/-- The witnesses of all inputs, in the form that has them. -/
def WritesWitnesses (segwit : Bool) (bytes : Bytes) (inputs : List TransactionInput) : Prop :=
  if segwit then WritesEach WritesWitness bytes inputs
  else bytes = [] ∧ ∀ i ∈ inputs, i.witness = []

/-- An output. -/
def WritesOutput (bytes : Bytes) (o : TransactionOutput) : Prop :=
  ∃ script, WritesItem script o.script ∧ bytes = bytes64 o.amount ++ script

theorem WritesInput.least {bytes : Bytes} {i : TransactionInput} (h : WritesInput bytes i) :
    Decoder.leastInput ≤ bytes.length := by
  obtain ⟨script, hscript, rfl⟩ := h
  have hleast := hscript.least
  simp only [Decoder.leastItem] at hleast
  simp only [Decoder.leastInput, List.length_append, length_bytes32, i.prevTxid.length_eq]
  omega

theorem WritesOutput.least {bytes : Bytes} {o : TransactionOutput} (h : WritesOutput bytes o) :
    Decoder.leastOutput ≤ bytes.length := by
  obtain ⟨script, hscript, rfl⟩ := h
  have hleast := hscript.least
  simp only [Decoder.leastItem] at hleast
  simp only [Decoder.leastOutput, List.length_append, length_bytes64]
  omega

/-- Inputs without witnesses are bare. -/
theorem map_bare_of_empty {inputs : List TransactionInput} (h : ∀ i ∈ inputs, i.witness = []) :
    inputs.map Decoder.bare = inputs := by
  have hsame : ∀ i ∈ inputs, Decoder.bare i = id i := by
    intro i hi
    rw [Decoder.bare, ← h i hi]
    rfl
  rw [List.map_congr_left hsame, List.map_id]

/-- What is written of an input does not tell its witness. -/
theorem writesCounted_bare {bytes : Bytes} {inputs : List TransactionInput} :
    WritesCounted WritesInput bytes (inputs.map Decoder.bare) ↔
      WritesCounted WritesInput bytes inputs := by
  simp only [WritesCounted, WritesEach, List.length_map, List.forall₂_map_right_iff]
  rfl

/-! ## Layouts -/

/-- The five parts of a written transaction. -/
structure Layout where
  version : Bytes
  /-- The marker and the flag of the form with witnesses. -/
  form : Bytes
  /-- Inputs and outputs. -/
  transfers : Bytes
  witnesses : Bytes
  lockTime : Bytes

namespace Layout

/-- The transaction as it is stored. -/
def stored (l : Layout) : Bytes :=
  l.version ++ (l.form ++ (l.transfers ++ (l.witnesses ++ l.lockTime)))

/-- The transaction without the marker, the flag and the witnesses. -/
def legacy (l : Layout) : Bytes := l.version ++ (l.transfers ++ l.lockTime)

/-- The parts write what the body says, each its own fields. -/
structure Writes (l : Layout) (body : TransactionBody) : Prop where
  version : l.version = bytes32 body.version
  form : l.form = if body.segwit then [0, 1] else []
  /-- A number of inputs that starts with a zero would be taken for the marker. -/
  told : body.segwit = false → l.transfers.head? ≠ some 0
  transfers : ∃ inputs outputs, WritesCounted WritesInput inputs body.inputs ∧
    WritesCounted WritesOutput outputs body.outputs ∧ l.transfers = inputs ++ outputs
  witnesses : WritesWitnesses body.segwit l.witnesses body.inputs
  lockTime : l.lockTime = bytes32 body.lockTime

/-- The parts write what the transaction says, and its ids and sizes are theirs. -/
structure Describes (l : Layout) (tx : Transaction) : Prop where
  writes : l.Writes tx.toTransactionBody
  txid : tx.txid = Hash.doubleSha256 l.legacy
  wtxid : tx.wtxid = if tx.segwit then Hash.doubleSha256 l.stored else tx.txid
  size : tx.size = UInt32.ofNat l.stored.length
  vsize : tx.vsize = virtualSize tx.segwit (UInt32.ofNat l.legacy.length) tx.size

variable {l : Layout} {body : TransactionBody}

theorem Describes.unique {tx tx' : Transaction} (h : l.Describes tx) (h' : l.Describes tx')
    (hbody : tx.toTransactionBody = tx'.toTransactionBody) : tx = tx' := by
  obtain ⟨body, txid, wtxid, size, vsize⟩ := tx
  obtain ⟨body', txid', wtxid', size', vsize'⟩ := tx'
  obtain rfl : body = body' := hbody
  obtain rfl : txid = txid' := h.txid.trans h'.txid.symm
  obtain rfl : wtxid = wtxid' := h.wtxid.trans h'.wtxid.symm
  obtain rfl : size = size' := h.size.trans h'.size.symm
  obtain rfl : vsize = vsize' := h.vsize.trans h'.vsize.symm
  rfl

theorem Writes.transfers_length (h : l.Writes body) : 2 ≤ l.transfers.length := by
  obtain ⟨inputs, outputs, hinputs, houtputs, hsplit⟩ := h.transfers
  have hin := hinputs.length_pos
  have hout := houtputs.length_pos
  rw [hsplit, List.length_append]
  omega

theorem Writes.length_version (h : l.Writes body) : l.version.length = 4 := by
  rw [h.version, length_bytes32]

theorem Writes.length_lockTime (h : l.Writes body) : l.lockTime.length = 4 := by
  rw [h.lockTime, length_bytes32]

/-- The shortest transaction has neither inputs nor outputs. -/
theorem Writes.least (h : l.Writes body) : 10 ≤ l.stored.length := by
  have htransfers := h.transfers_length
  simp only [stored, List.length_append, h.length_version, h.length_lockTime]
  omega

end Layout

/-- A transaction, by one of its layouts. -/
def WritesTransaction (bytes : Bytes) (tx : Transaction) : Prop :=
  ∃ l : Layout, l.Describes tx ∧ bytes = l.stored

namespace Decoder

variable {s t u : Remaining} {tx : Transaction}

/-! ## Parts of a transaction -/

theorem input_accepts : input.Accepts fun bytes i => WritesInput bytes i ∧ i.witness = [] := by
  refine (hash_accepts.bind fun prevTxid => word_accepts.bind fun prevIndex =>
    item_accepts.bind fun script => word_accepts.map fun sequence =>
      TransactionInput.mk prevTxid prevIndex script sequence []).congr fun bytes i => ?_
  constructor
  · rintro ⟨_, _, _, rfl, ⟨_, _, _, rfl, ⟨_, script, _, hscript, ⟨_, rfl, rfl⟩, rfl⟩, rfl⟩, rfl⟩
    exact ⟨⟨script, hscript, rfl⟩, rfl⟩
  · obtain ⟨prevTxid, prevIndex, item, sequence, witness⟩ := i
    rintro ⟨⟨script, hscript, rfl⟩, rfl⟩
    exact ⟨_, _, _, rfl, ⟨_, _, _, rfl, ⟨_, script, _, hscript, ⟨_, rfl, rfl⟩, rfl⟩, rfl⟩, rfl⟩

theorem output_accepts : output.Accepts WritesOutput := by
  refine (longWord_accepts.bind fun amount => item_accepts.map fun script =>
    TransactionOutput.mk amount script).congr fun bytes o => ?_
  constructor
  · rintro ⟨_, _, script, rfl, ⟨_, hscript, rfl⟩, rfl⟩
    exact ⟨script, hscript, rfl⟩
  · rintro ⟨script, hscript, rfl⟩
    exact ⟨_, _, script, rfl, ⟨_, hscript, rfl⟩, rfl⟩

theorem witness_accepts : (counted leastItem item).Accepts (WritesCounted WritesItem) :=
  counted_accepts item_accepts fun _ _ h => h.least

theorem witnessesFrom_cons (next : TransactionInput) (others taken : List TransactionInput) :
    witnessesFrom (next :: others) taken = counted leastItem item >>= fun items =>
      witnessesFrom others ({ next with witness := items } :: taken) := by
  funext s
  rw [witnessesFrom]
  dsimp only
  rw [bind_run]
  cases counted leastItem item s <;> rfl

theorem witnessesFrom_eq (inputs taken : List TransactionInput) : witnessesFrom inputs taken
    = witnesses inputs >>= fun found => Pure.pure (taken.reverse ++ found) := by
  unfold witnesses
  induction inputs generalizing taken with
  | nil =>
    show _ = (Pure.pure [] : Decoder _) >>= _
    rw [pure_bind, List.append_nil]
    rfl
  | cons next others ih =>
    rw [witnessesFrom_cons, witnessesFrom_cons, bind_assoc]
    congr 1
    funext items
    rw [ih ({ next with witness := items } :: taken), ih [{ next with witness := items }],
      bind_assoc]
    congr 1
    funext found
    rw [pure_bind, List.reverse_cons, List.append_assoc]
    rfl

theorem witnesses_cons (next : TransactionInput) (others : List TransactionInput) :
    witnesses (next :: others) = counted leastItem item >>= fun items =>
      witnesses others >>= fun found => Pure.pure ({ next with witness := items } :: found) := by
  rw [witnesses, witnessesFrom_cons]
  congr 1
  funext items
  rw [witnessesFrom_eq]
  rfl

/-- Witnesses are read into the inputs they belong to. -/
theorem witnesses_accepts (inputs : List TransactionInput) :
    (witnesses inputs).Accepts fun bytes found =>
      WritesEach WritesWitness bytes found ∧ found.map bare = inputs.map bare := by
  induction inputs with
  | nil =>
    refine (Accepts.pure []).congr fun bytes found => ?_
    constructor
    · rintro ⟨rfl, rfl⟩
      exact ⟨⟨[], .nil, rfl⟩, rfl⟩
    · rintro ⟨⟨parts, hparts, rfl⟩, hsame⟩
      obtain rfl := List.map_eq_nil_iff.1 hsame
      obtain rfl := List.forall₂_nil_right_iff.1 hparts
      exact ⟨rfl, rfl⟩
  | cons next others ih =>
    rw [witnesses_cons]
    refine (witness_accepts.bind fun items => ih.map ({ next with witness := items } :: ·)).congr
      fun bytes found => ?_
    constructor
    · rintro ⟨items, front, _, hitems, ⟨new, ⟨⟨parts, hparts, rfl⟩, hsame⟩, rfl⟩, rfl⟩
      refine ⟨⟨front :: parts, .cons hitems hparts, rfl⟩, ?_⟩
      rw [List.map_cons, List.map_cons, hsame]
      rfl
    · rintro ⟨⟨parts, hparts, rfl⟩, hsame⟩
      cases hparts with
      | nil => simp at hsame
      | @cons front i parts new hi hparts =>
        rw [List.map_cons, List.map_cons, List.cons.injEq] at hsame
        obtain ⟨hbare, hsame⟩ := hsame
        have hfull : { next with witness := i.witness } = i := by
          show TransactionInput.mk (bare next).prevTxid (bare next).prevIndex (bare next).script
            (bare next).sequence i.witness = i
          rw [← hbare]
          rfl
        exact ⟨i.witness, front, _, hi, ⟨new, ⟨⟨parts, hparts, rfl⟩, hsame⟩, by rw [hfull]⟩, rfl⟩

theorem witnessesIf_accepts (segwit : Bool) {inputs : List TransactionInput}
    (hempty : ∀ i ∈ inputs, i.witness = []) : (witnessesIf segwit inputs).Accepts
      fun bytes found => WritesWitnesses segwit bytes found ∧ found.map bare = inputs := by
  have hbare := map_bare_of_empty hempty
  cases segwit with
  | true =>
    refine (witnesses_accepts inputs).congr fun bytes found => ?_
    rw [hbare]
    rfl
  | false =>
    refine (Accepts.pure inputs).congr fun bytes found => ?_
    constructor
    · rintro ⟨rfl, rfl⟩
      exact ⟨⟨rfl, hempty⟩, hbare⟩
    · rintro ⟨⟨rfl, hfound⟩, rfl⟩
      exact ⟨rfl, (map_bare_of_empty hfound).symm⟩

theorem markerAndFlag_run (pos : Nat) (rest : Bytes) : markerAndFlag ⟨pos, 0 :: rest⟩
    = match rest with
      | [] => .error (.invalidTransaction (pos + 1) (.missingBytes 1 0))
      | flag :: rest =>
        if flag = 1 then .ok ((), ⟨pos + 2, rest⟩)
        else .error (.invalidTransaction (pos + 1) (.badFlag flag)) := by
  have htake : take 1 ⟨pos, 0 :: rest⟩ = .ok ([0], ⟨pos + 1, rest⟩) := rfl
  unfold markerAndFlag
  rw [bind_ok htake, bind_ok (get_ok _)]
  cases rest with
  | nil => rfl
  | cons flag rest =>
    dsimp only
    split <;> rfl

theorem form_run (s : Remaining) : form s = if s.rest.head? = some 0
    then (markerAndFlag >>= fun _ => Pure.pure true) s else .ok (false, s) := by
  have hmarker : atMarker s = .ok (decide (s.rest.head? = some 0), s) := rfl
  unfold form
  rw [bind_ok hmarker]
  by_cases hzero : s.rest.head? = some 0
  · simp only [hzero, decide_true, if_true]
  · simp only [hzero, decide_false, Bool.false_eq_true, if_false]
    rfl

/-- Behind the marker stands a flag of one. -/
theorem markerAndFlag_eq_ok_iff {rest : Bytes} {pos : Nat} {a : Unit} :
    markerAndFlag ⟨pos, 0 :: rest⟩ = .ok (a, t) ↔ Remaining.Gives ⟨pos, 0 :: rest⟩ [0, 1] t := by
  rw [markerAndFlag_run]
  constructor
  · intro h
    split at h
    · cases h
    · split at h
      · next hflag =>
        subst hflag
        cases h
        exact ⟨rfl, rfl⟩
      · cases h
  · rintro ⟨hrest, hpos⟩
    obtain ⟨_, after⟩ := t
    obtain rfl : rest = 1 :: after := (List.cons.inj hrest).2
    obtain rfl := hpos
    rfl

/-- The form is told by the byte after the version. -/
theorem form_eq_ok_iff {segwit : Bool} : form s = .ok (segwit, t) ↔
    s.Gives (if segwit then [0, 1] else []) t ∧ (segwit = false → t.rest.head? ≠ some 0) := by
  obtain ⟨pos, rest⟩ := s
  rw [form_run]
  split
  · next hzero =>
    obtain ⟨after, rfl⟩ := List.head?_eq_some_iff.1 hzero
    simp only [bind_eq_ok_iff, markerAndFlag_eq_ok_iff, pure_ok, Except.ok.injEq, Prod.mk.injEq]
    constructor
    · rintro ⟨_, _, hgives, rfl, rfl⟩
      exact ⟨hgives, nofun⟩
    · rintro ⟨hgives, htold⟩
      cases segwit with
      | true => exact ⟨(), t, hgives, rfl, rfl⟩
      | false =>
        obtain rfl := Remaining.gives_nil_iff.1 hgives
        exact absurd hzero (htold rfl)
  · next hzero =>
    rw [Except.ok.injEq, Prod.mk.injEq]
    constructor
    · rintro ⟨rfl, rfl⟩
      exact ⟨.refl _, fun _ => hzero⟩
    · rintro ⟨hgives, htold⟩
      cases segwit with
      | true =>
        obtain rfl : rest = 0 :: 1 :: t.rest := hgives.rest
        exact absurd rfl hzero
      | false => exact ⟨rfl, (Remaining.gives_nil_iff.1 hgives).symm⟩

/-! ## A transaction -/

theorem inputs_accepts : (counted leastInput input).Accepts fun bytes inputs =>
    WritesCounted WritesInput bytes inputs ∧ ∀ i ∈ inputs, i.witness = [] := by
  refine (counted_accepts input_accepts fun _ _ h => h.1.least).congr fun bytes inputs => ?_
  simp only [WritesCounted, writesEach_and_iff]
  constructor
  · rintro ⟨count, back, hcount, ⟨hback, hempty⟩, rfl⟩
    exact ⟨⟨count, back, hcount, hback, rfl⟩, hempty⟩
  · rintro ⟨⟨count, back, hcount, hback, rfl⟩, hempty⟩
    exact ⟨count, back, hcount, ⟨hback, hempty⟩, rfl⟩

theorem outputs_accepts : (counted leastOutput output).Accepts (WritesCounted WritesOutput) :=
  counted_accepts output_accepts fun _ _ h => h.least

/-- The states between the parts of a transaction. -/
theorem gives_stored_iff {l : Layout} : s.Gives l.stored u ↔ ∃ s₁ s₂ s₃ s₄, s.Gives l.version s₁ ∧
    s₁.Gives l.form s₂ ∧ s₂.Gives l.transfers s₃ ∧ s₃.Gives l.witnesses s₄ ∧
      s₄.Gives l.lockTime u := by
  simp only [Layout.stored, Remaining.gives_append_iff, exists_and_left]

/-- The transaction put together from what was read and from the states in which the whole starts, the
transfers start and end, the lock time starts and the whole ends. -/
def assembled (start bodyStart bodyEnd lockStart stop : Remaining) (body : TransactionBody) :
    Transaction :=
  let legacy := start.rest.take 4 ++ bodyStart.rest.take (bodyEnd.pos - bodyStart.pos)
    ++ lockStart.rest.take 4
  let txid := Hash.doubleSha256 legacy
  let size := UInt32.ofNat (stop.pos - start.pos)
  { toTransactionBody := body
    txid
    wtxid := if body.segwit then
      Hash.doubleSha256 (start.rest.take (stop.pos - start.pos)) else txid
    size
    vsize := virtualSize body.segwit
      (UInt32.ofNat (4 + (bodyEnd.pos - bodyStart.pos) + 4)) size }

/-- **The slices are the parts of the layout**, so the ids hash its two forms. -/
theorem describes_assembled {l : Layout} {body : TransactionBody} {s₁ s₂ s₃ s₄ : Remaining}
    (hwrites : l.Writes body) (hversion : s.Gives l.version s₁) (hform : s₁.Gives l.form s₂)
    (htransfers : s₂.Gives l.transfers s₃) (hwitnesses : s₃.Gives l.witnesses s₄)
    (hlockTime : s₄.Gives l.lockTime u) : l.Describes (assembled s s₂ s₃ s₄ u body) := by
  have hstored : s.Gives l.stored u := gives_stored_iff.2
    ⟨s₁, s₂, s₃, s₄, hversion, hform, htransfers, hwitnesses, hlockTime⟩
  have hfront := hversion.take
  have hback := hlockTime.take
  rw [hwrites.length_version] at hfront
  rw [hwrites.length_lockTime] at hback
  have hlegacy : s.rest.take 4 ++ s₂.rest.take (s₃.pos - s₂.pos) ++ s₄.rest.take 4 = l.legacy := by
    rw [hfront, hback, htransfers.slice, List.append_assoc]
    rfl
  have hlength : u.pos - s.pos = l.stored.length := by
    rw [hstored.pos, Nat.add_sub_cancel_left]
  have hlegacyLength : 4 + (s₃.pos - s₂.pos) + 4 = l.legacy.length := by
    rw [htransfers.pos, Nat.add_sub_cancel_left, Layout.legacy, List.length_append,
      List.length_append, hwrites.length_version, hwrites.length_lockTime, Nat.add_assoc]
  unfold assembled
  rw [hlegacy, hlegacyLength, hstored.slice, hlength]
  exact ⟨hwrites, rfl, rfl, rfl, rfl⟩

/-- The steps of a transaction, and what is put together from them and the places between them. -/
theorem transaction_eq_ok_iff : transaction s = .ok (tx, u) ↔
    ∃ version s₁ segwit s₂ inputs mid outputs s₃ witnessed s₄ lockTime,
      word s = .ok (version, s₁) ∧ form s₁ = .ok (segwit, s₂) ∧
      counted leastInput input s₂ = .ok (inputs, mid) ∧
      counted leastOutput output mid = .ok (outputs, s₃) ∧
      witnessesIf segwit inputs s₃ = .ok (witnessed, s₄) ∧ word s₄ = .ok (lockTime, u) ∧
      assembled s s₂ s₃ s₄ u ⟨version, segwit, witnessed, outputs, lockTime⟩ = tx := by
  unfold transaction
  simp only [bind_eq_ok_iff, get_ok, Except.ok.injEq, Prod.mk.injEq, pure_ok]
  constructor
  · rintro ⟨_, _, ⟨rfl, rfl⟩, version, s₁, hversion, segwit, _, hform, _, s₂, ⟨rfl, rfl⟩, inputs, mid,
      hinputs, outputs, _, houtputs, _, s₃, ⟨rfl, rfl⟩, witnessed, _, hwitnessed, _, s₄, ⟨rfl, rfl⟩,
      lockTime, _, hlockTime, _, _, ⟨rfl, rfl⟩, htx, rfl⟩
    exact ⟨version, s₁, segwit, _, inputs, mid, outputs, _, witnessed, _, lockTime, hversion, hform,
      hinputs, houtputs, hwitnessed, hlockTime, htx⟩
  · rintro ⟨version, s₁, segwit, s₂, inputs, mid, outputs, s₃, witnessed, s₄, lockTime, hversion, hform,
      hinputs, houtputs, hwitnessed, hlockTime, htx⟩
    exact ⟨s, s, ⟨rfl, rfl⟩, version, s₁, hversion, segwit, s₂, hform, s₂, s₂, ⟨rfl, rfl⟩, inputs, mid,
      hinputs, outputs, s₃, houtputs, s₃, s₃, ⟨rfl, rfl⟩, witnessed, s₄, hwitnessed, s₄, s₄, ⟨rfl, rfl⟩,
      lockTime, u, hlockTime, u, u, ⟨rfl, rfl⟩, htx, rfl⟩

/-- What a transaction was read from is a layout of it. -/
theorem exists_layout (h : transaction s = .ok (tx, u)) :
    ∃ l : Layout, l.Describes tx ∧ s.Gives l.stored u := by
  obtain ⟨version, s₁, segwit, s₂, inputs, mid, outputs, s₃, witnessed, s₄, lockTime, hword, hmark, hin,
    hout, hwit, hlast, rfl⟩ := transaction_eq_ok_iff.1 h
  obtain ⟨_, rfl, hversion⟩ := (word_accepts _ _ _).1 hword
  obtain ⟨hform, htold⟩ := form_eq_ok_iff.1 hmark
  obtain ⟨ins, ⟨hins, hempty⟩, hinputs⟩ := (inputs_accepts _ _ _).1 hin
  obtain ⟨outs, houts, houtputs⟩ := (outputs_accepts _ _ _).1 hout
  obtain ⟨wits, ⟨hwits, rfl⟩, hwitnessed⟩ := (witnessesIf_accepts _ hempty _ _ _).1 hwit
  obtain ⟨_, rfl, hlockTime⟩ := (word_accepts _ _ _).1 hlast
  have htransfers := hinputs.trans houtputs
  let l : Layout := ⟨bytes32 version, if segwit then [0, 1] else [], ins ++ outs, wits,
    bytes32 lockTime⟩
  have hwrites : l.Writes ⟨version, segwit, witnessed, outputs, lockTime⟩ := by
    refine ⟨rfl, rfl, fun hplain => ?_, ⟨ins, outs, writesCounted_bare.1 hins, houts, rfl⟩, hwits,
      rfl⟩
    have hpos : 0 < (ins ++ outs).length :=
      List.length_append ▸ Nat.add_pos_left hins.length_pos outs.length
    rw [← htransfers.head? hpos]
    exact htold hplain
  have hassembled := describes_assembled hwrites hversion hform htransfers hwitnessed hlockTime
  exact ⟨l, hassembled, gives_stored_iff.2
    ⟨s₁, s₂, s₃, s₄, hversion, hform, htransfers, hwitnessed, hlockTime⟩⟩

/-- Where a layout of a transaction stands next, the transaction is read. -/
theorem transaction_ok {l : Layout} (hl : l.Describes tx) (h : s.Gives l.stored u) :
    transaction s = .ok (tx, u) := by
  obtain ⟨s₁, s₂, s₃, s₄, hversion, hform, htransfers, hwitnesses, hlockTime⟩ := gives_stored_iff.1 h
  have htold (hplain : tx.segwit = false) : s₂.rest.head? ≠ some 0 := by
    rw [htransfers.head? (Nat.lt_of_lt_of_le (by decide) hl.writes.transfers_length)]
    exact hl.writes.told hplain
  have hempty : ∀ i ∈ tx.inputs.map bare, i.witness = [] := by
    intro i hi
    obtain ⟨_, _, rfl⟩ := List.mem_map.1 hi
    rfl
  have hassembled := describes_assembled hl.writes hversion hform htransfers hwitnesses hlockTime
  obtain ⟨ins, outs, hins, houts, hsplit⟩ := hl.writes.transfers
  rw [hsplit] at htransfers
  obtain ⟨mid, hinputs, houtputs⟩ := Remaining.gives_append_iff.1 htransfers
  exact transaction_eq_ok_iff.2 ⟨tx.version, s₁, tx.segwit, s₂, tx.inputs.map bare, mid, tx.outputs, s₃,
    tx.inputs, s₄, tx.lockTime, (word_accepts _ _ _).2 ⟨_, hl.writes.version, hversion⟩,
    form_eq_ok_iff.2 ⟨hl.writes.form ▸ hform, htold⟩,
    (inputs_accepts _ _ _).2 ⟨ins, ⟨writesCounted_bare.2 hins, hempty⟩, hinputs⟩,
    (outputs_accepts _ _ _).2 ⟨outs, houts, houtputs⟩,
    (witnessesIf_accepts _ hempty _ _ _).2 ⟨_, ⟨hl.writes.witnesses, rfl⟩, hwitnesses⟩,
    (word_accepts _ _ _).2 ⟨_, hl.writes.lockTime, hlockTime⟩, hassembled.unique hl rfl⟩

/-- **A transaction is a layout.** -/
theorem transaction_accepts : transaction.Accepts WritesTransaction := by
  intro s tx u
  constructor
  · intro h
    obtain ⟨l, hl, hgives⟩ := exists_layout h
    exact ⟨l.stored, ⟨l, hl, rfl⟩, hgives⟩
  · rintro ⟨_, ⟨l, hl, rfl⟩, hgives⟩
    exact transaction_ok hl hgives

theorem transactions_accepts : transactions.Accepts (WritesCounted WritesTransaction) := by
  refine (compactSize_accepts.bind fun n => many_accepts transaction_accepts n).congr
    fun bytes txs => ?_
  constructor
  · rintro ⟨_, count, back, hcount, ⟨rfl, hback⟩, rfl⟩
    exact ⟨count, back, hcount, hback, rfl⟩
  · rintro ⟨count, back, hcount, hback, rfl⟩
    exact ⟨_, count, back, hcount, ⟨rfl, hback⟩, rfl⟩

end Decoder

end BlockIndex
