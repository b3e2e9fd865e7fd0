import BlockIndex.Proofs.Chain.Operations
import BlockIndex.Proofs.Run.Completeness
import BlockIndex.Run.Blocks

/-!
# The blocks of a walk

A walk goes over a range of a chain, every block of which the assembler holds, and each is a child of
the block before it.

* `Visit.IsOn`         a visit is of the block of a chain at its height;
* `Walk.Knows`         the record at a height of a walk is that of its chain's block;
* `walkOver_knows`     so it is at every height of the range;
* `Walk.Knows.visit_isOn`  what is read there is a visit of the block, whatever became of the files;
* `Volume.Shows`       a volume shows the block files of a directory as they were;
* `Walk.Reads`         what is walked lies in the directory that is read.

Main statements: `walkOver_knows`, `Walk.Knows.load_shown` (as long as the files are as they were, the
block is read).
-/

namespace BlockIndex

/-- The hash that stands before a height: zeros before the first one. -/
def BestChain.before? (chain : BestChain) : Nat → Option Hash
  | 0 => some Hash.zero
  | height + 1 => chain.hashAt? height

def Visit.height (visit : Visit) : Nat := visit.block.height

/-- A visit is of the block of a chain at its height, a child of the block before it. -/
structure Visit.IsOn (visit : Visit) (chain : BestChain) : Prop where
  hash : chain.hashAt? visit.height = some visit.block.hash
  parent : chain.before? visit.height = some visit.block.header.prevHash
  view : visit.view.height = visit.height ∧ visit.view.hash = visit.block.hash ∧
    visit.view.header = visit.block.header

/-- The hash of a visited block is that of the first 80 bytes of its payload. -/
def Visit.Genuine (visit : Visit) : Prop :=
  visit.block.hash = Hash.doubleSha256 (visit.block.payload.take Header.size)

/-- The record at a height of a walk is that of the block of its chain, a child of the block before
it. -/
structure Walk.Knows (w : Walk) (height : Nat) (r : Record) : Prop where
  found : w.recordAt height = .ok r
  hash : w.chain.hashAt? height = some r.hash
  parent : w.chain.before? height = some r.header.prevHash
  genuine : r.header.hash = r.hash

/-! ## The chain -/

theorem parent_of_grounded {records : List Record} {chain : BestChain}
    (hgrounded : ∀ i y, chain.hashAt? i = some y → Rooted records y (chain.hashes.take (i + 1)))
    {height : Nat} {x : Hash} (hx : chain.hashAt? height = some x) :
    ∃ r ∈ records, r.hash = x ∧ chain.before? height = some r.header.prevHash := by
  have htaken : ∀ i, i ≤ height → (chain.hashes.take (height + 1))[i]? = chain.hashAt? i :=
    fun i hi => List.getElem?_take_of_lt (by omega)
  cases height with
  | zero =>
    obtain ⟨r, hr, hhash, hgenesis⟩ :=
      (hgrounded 0 x hx).head ((htaken 0 (Nat.le_refl 0)).trans hx)
    have hzero : r.header.prevHash = Hash.zero := of_decide_eq_true hgenesis
    exact ⟨r, hr, hhash, congrArg some hzero.symm⟩
  | succ i =>
    have hlt : i < chain.hashes.length := Nat.lt_of_succ_lt (List.getElem?_eq_some_iff.1 hx).1
    have hy : chain.hashAt? i = some chain.hashes[i] := List.getElem?_eq_getElem hlt
    obtain ⟨r, hr, hhash, _, hparent⟩ := (hgrounded (i + 1) x hx).succ
      ((htaken i (Nat.le_succ i)).trans hy) ((htaken (i + 1) (Nat.le_refl _)).trans hx)
    exact ⟨r, hr, hhash, hy.trans (congrArg some hparent.symm)⟩

variable {config : Config} {a : Assembler}

/-- Whichever chain is walked, its blocks have their ancestries on it. -/
theorem chainFor_grounded (hl : a.Linking []) (hrests : a.Rests) {chain : BestChain}
    (h : chainFor config a = .ok chain) (i : Nat) (y : Hash) (hy : chain.hashAt? i = some y) :
    Rooted a.records y (chain.hashes.take (i + 1)) := by
  unfold chainFor at h
  cases hend : config.endHash with
  | none =>
    rw [hend] at h
    obtain rfl := Except.ok.inj h
    exact hrests.grounded i y hy
  | some x =>
    rw [hend] at h
    obtain ⟨k, hk⟩ := Assembler.branchTo_isLinked h
    obtain ⟨hashes, hbranch, hrooted, _⟩ := Assembler.branchTo_eq hl hk
    obtain rfl := Except.ok.inj (hbranch.symm.trans h)
    exact hrooted.take hy

/-! ## The range -/

theorem Range.lastHeight_lt {chain : BestChain} {last : Nat}
    (h : lastHeight config chain = .ok (some last)) : last < chain.length := by
  unfold lastHeight BestChain.tipHeight? at h
  cases hlength : chain.length with
  | zero =>
    rw [hlength] at h
    cases hend : config.endHeight <;> rw [hend] at h <;> simp at h
  | succ n =>
    rw [hlength] at h
    cases hend : config.endHeight with
    | none =>
      rw [hend] at h
      have heq : n = last := Option.some.inj (Except.ok.inj h)
      omega
    | some stop =>
      rw [hend] at h
      dsimp only at h
      split at h
      · cases h
      · have heq : stop = last := Option.some.inj (Except.ok.inj h)
        omega

theorem Range.resolve_within {chain : BestChain} {range : Range}
    (h : resolve config a chain = .ok (some range)) :
    range.first ≤ range.last ∧ range.last < chain.length := by
  cases hlast : lastHeight config chain with
  | error e =>
    unfold resolve at h
    rw [hlast] at h
    cases h
  | ok last =>
    cases hfirst : firstHeight config a chain with
    | error e =>
      unfold resolve at h
      rw [hlast, hfirst] at h
      cases h
    | ok first =>
      cases last with
      | none =>
        rw [resolve_none hlast hfirst] at h
        split at h <;> simp at h
      | some last =>
        rw [resolve_some hlast hfirst] at h
        split at h
        · next hle =>
          obtain rfl := Option.some.inj (Except.ok.inj h)
          exact ⟨hle, lastHeight_lt hlast⟩
        · cases h

theorem Range.mem_heights {range : Range} {height : Nat} :
    height ∈ range.heights ↔ range.first ≤ height ∧ height ≤ range.last := by
  rw [heights, List.mem_range'_1]
  omega

/-- **The blocks of a walk.**  At every height of its range a walk knows the record of its chain. -/
theorem walkOver_knows (hl : a.Linking []) (hrests : a.Rests)
    (hgenuine : ∀ r ∈ a.records, r.header.hash = r.hash) {reader : Reader} {reused : Bool}
    {records reorgs : Nat} {w : Walk} (h : walkOver config reader a reused records reorgs = .ok w)
    {height : Nat} (hheight : height ∈ w.heights) : ∃ r ∈ a.records, w.Knows height r := by
  obtain ⟨hchain, hresolve, _⟩ := walkOver_parts h
  have hassembler := (walkOver_ok h).1
  have hlt : height < w.chain.hashes.length := by
    unfold Walk.heights at hheight
    cases hrange : w.range with
    | none =>
      rw [hrange] at hheight
      cases hheight
    | some range =>
      rw [hrange] at hheight hresolve
      exact Nat.lt_of_le_of_lt (Range.mem_heights.1 hheight).2 (Range.resolve_within hresolve).2
  have hx : w.chain.hashAt? height = some w.chain.hashes[height] := List.getElem?_eq_getElem hlt
  obtain ⟨r, hr, hhash, hparent⟩ := parent_of_grounded (chainFor_grounded hl hrests hchain) hx
  refine ⟨r, hr, ?_, by rw [hhash]; exact hx, hparent, hgenuine r hr⟩
  obtain ⟨id, n, hid, rfl⟩ := Assembler.mem_records_iff.1 hr
  unfold Walk.recordAt
  rw [hx, hassembler]
  dsimp only
  rw [(Assembler.node?_eq_some_iff hl.distinct).2 ⟨id, hid, hhash⟩]

/-! ## Reading a block -/

section Reading

variable {w : Walk} {v : Volume} {height : Nat} {r : Record} {visit : Visit}

theorem Reader.payload_front {reader next : Reader} {payload : Bytes}
    (h : reader.payload v r = (.ok payload, next)) :
    payload.take Header.size = r.header.encode := by
  unfold Reader.payload at h
  cases hread : reader.readAt v r.fileId r.payloadOffset r.length with
  | mk result after =>
    rw [hread] at h
    cases result with
    | error e => cases (Prod.mk.inj h).1
    | ok bytes =>
      dsimp only at h
      split at h
      · next hfront =>
        obtain rfl := Except.ok.inj (Prod.mk.inj h).1
        exact hfront
      · cases (Prod.mk.inj h).1

/-- What is read of a record is its block; a payload that is read begins with its header. -/
theorem Walk.visitOf_block {loadPayload : Bool} {reader next : Reader}
    (h : visitOf loadPayload reader v r height = (.ok visit, next)) :
    ∃ payload count, visit = ⟨blockOf r height payload, HeaderView.ofRecord r height count⟩ ∧
      (loadPayload = true → payload.take Header.size = r.header.encode) := by
  unfold visitOf at h
  cases loadPayload with
  | true =>
    rw [if_pos rfl] at h
    cases hread : reader.payload v r with
    | mk result after =>
      rw [hread] at h
      cases result with
      | error e => cases (Prod.mk.inj h).1
      | ok payload =>
        exact ⟨payload, _, (Except.ok.inj (Prod.mk.inj h).1).symm,
          fun _ => Reader.payload_front hread⟩
  | false =>
    rw [if_neg Bool.false_ne_true] at h
    cases hread : reader.transactionCount v r with
    | mk result after =>
      rw [hread] at h
      cases result with
      | error e => cases (Prod.mk.inj h).1
      | ok count =>
        exact ⟨[], count, (Except.ok.inj (Prod.mk.inj h).1).symm, fun hload => by cases hload⟩

namespace Walk

theorem load_reader (w : Walk) (v : Volume) (height : Nat) :
    ∃ reader, (w.load v height).2 = { w with reader } := by
  unfold load
  cases w.recordAt height with
  | error e => exact ⟨w.reader, rfl⟩
  | ok r => exact ⟨_, rfl⟩

theorem Knows.withReader (h : w.Knows height r) (reader : Reader) :
    Knows { w with reader } height r :=
  ⟨h.found, h.hash, h.parent, h.genuine⟩

/-- **What is read** is a visit of the block at its height, whatever became of the files. -/
theorem Knows.visit_isOn {next : Walk} (h : w.Knows height r)
    (hload : w.load v height = (.ok visit, next)) :
    visit.height = height ∧ visit.IsOn w.chain ∧
      (w.config.loadPayload = true → visit.Genuine) := by
  unfold load at hload
  rw [h.found] at hload
  dsimp only at hload
  cases hread : visitOf w.config.loadPayload w.reader v r height with
  | mk result after =>
    rw [hread] at hload
    obtain rfl : result = .ok visit := (Prod.mk.inj hload).1
    obtain ⟨payload, count, rfl, hfront⟩ := visitOf_block hread
    refine ⟨rfl, ⟨h.hash, h.parent, rfl, rfl, rfl⟩, ?_⟩
    intro hpayload
    show r.hash = Hash.doubleSha256 (payload.take Header.size)
    rw [hfront hpayload, ← h.genuine]
    rfl

end Walk

end Reading

/-! ## Files that do not change -/

/-- The block files of a directory are as they were: their names lead to the same files, and these
hold the same bytes. -/
def Volume.Shows (v : Volume) (d : Directory) : Prop :=
  ∀ id file, d.files.get? id = some file → v.find file.path = d.volume.find file.path ∧
    ∀ node, v.find file.path = .ok node → v.isDirectory node = false ∧ v.bytesOf node = d.bytes id

theorem Directory.shows (d : Directory) : d.volume.Shows d := by
  intro id file hfile
  refine ⟨rfl, ?_⟩
  intro node hfind
  obtain ⟨node', hfind', hkind, _, hbytes, _⟩ := d.opens hfile
  rw [hfind'] at hfind
  obtain rfl := Except.ok.inj hfind
  exact ⟨hkind, hbytes⟩

section Shown

variable {d : Directory} {magic : UInt32} {v : Volume} {reader : Reader} {id : Nat}
  {file : BlockFile} {r : Record}

theorem Volume.readExact_congr {v u : Volume} {node : NodeNumber}
    (hkind : v.isDirectory node = u.isDirectory node) (hbytes : v.bytesOf node = u.bytesOf node)
    (offset count : Nat) : v.readExact node offset count = u.readExact node offset count := by
  unfold readExact
  rw [hbytes, hkind]

namespace Reader

/-- What is read of a file, also of one that is kept open, is what it held. -/
theorem Over.readAt_shown (h : reader.Over d magic) (hv : v.Shows d)
    (hfile : d.files.get? id = some file) (offset count : Nat) :
    reader.readAt v id offset count = reader.readAt d.volume id offset count := by
  obtain ⟨hfind, hnow⟩ := hv id file hfile
  have hsame : reader.target v id = reader.target d.volume id := by
    unfold Reader.target
    rw [h.files, hfile]
    dsimp only
    rw [hfind]
  obtain ⟨node, next, htarget, _, hleads⟩ := h.target hfile
  obtain ⟨hkind, hbytes⟩ := hnow node (hfind.trans hleads)
  obtain ⟨hkind', hbytes'⟩ := (d.shows id file hfile).2 node hleads
  unfold Reader.readAt
  rw [hsame, htarget]
  dsimp only
  rw [Volume.readExact_congr (hkind.trans hkind'.symm) (hbytes.trans hbytes'.symm)]

theorem Over.payload_shown (h : reader.Over d magic) (hv : v.Shows d)
    (hfile : d.files.get? r.fileId = some file) :
    reader.payload v r = reader.payload d.volume r := by
  unfold Reader.payload
  rw [h.readAt_shown hv hfile]

theorem Over.transactionCount_shown (h : reader.Over d magic) (hv : v.Shows d)
    (hfile : d.files.get? r.fileId = some file) :
    reader.transactionCount v r = reader.transactionCount d.volume r := by
  unfold Reader.transactionCount
  dsimp only
  rw [h.readAt_shown hv hfile]

end Reader

/-- **As long as the files are as they were**, a block whose record lies there is read. -/
theorem Walk.Knows.load_shown {w : Walk} {height : Nat} (h : w.Knows height r)
    (hlies : d.Lies magic r) (hover : w.reader.Over d magic) (hv : v.Shows d) :
    ∃ visit next, w.load v height = (.ok visit, { w with reader := next }) ∧
      next.Over d magic := by
  obtain ⟨visit, next, hload, hnext, _⟩ := Walk.load_of_lies hover h.found hlies
  refine ⟨visit, next, ?_, hnext⟩
  rw [← hload]
  obtain ⟨⟨file, hfile⟩, _⟩ := hlies
  unfold Walk.load
  rw [h.found]
  dsimp only
  unfold Walk.visitOf
  rw [hover.payload_shown hv hfile, hover.transactionCount_shown hv hfile]

/-- A walk reads the files of a directory, and at each of some heights it knows a record that lies
there. -/
structure Walk.Reads (w : Walk) (d : Directory) (magic : UInt32) (heights : List Nat) : Prop where
  opened : w.reader.Over d magic
  knows : ∀ height ∈ heights, ∃ r, w.Knows height r ∧ d.Lies magic r

theorem Walk.Reads.next {w : Walk} {height : Nat} {rest : List Nat}
    (h : w.Reads d magic (height :: rest)) (hover : reader.Over d magic) :
    Walk.Reads { w with reader } d magic rest where
  opened := hover
  knows := by
    intro other hother
    obtain ⟨r, hr, hlies⟩ := h.knows other (List.mem_cons_of_mem height hother)
    exact ⟨r, hr.withReader reader, hlies⟩

end Shown

end BlockIndex
