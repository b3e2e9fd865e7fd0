import BlockIndex.Proofs.Run.Histories

/-!
# What a run walks

The heights and hashes that a run without a last height, a first or a last block walks are a matter of
its best chain and its first height.

* `walked`       what a run walks, up to the first block that cannot be read;
* `walkOf`       the part of a chain from a height on, or the error that there is none;
* `Ran.walked_eq`  a run walks this part of its best chain, and every block of it can be read.
-/

namespace BlockIndex

/-- The heights and hashes of the blocks that a walk reads; an error ends it. -/
def Walk.visited (w : Walk) (v : Volume) : List (Except Error (Nat × Hash)) :=
  (w.loadAll v w.heights).1.map fun item =>
    item.map fun visit => (visit.block.height, visit.block.hash)

/-- What a run walks. -/
def walked (config : Config) (d : Directory) (store : DatabaseStore) :
    Except Error (List (Except Error (Nat × Hash))) :=
  (prepareWith config d.volume d.files store).1.map fun w => w.visited d.volume

/-- No last height, first block or last block is asked for. -/
structure Config.IsOpen (c : Config) : Prop where
  endHeight : c.endHeight = none
  startHash : c.startHash = none
  endHash : c.endHash = none

/-- The part of a chain from a height on. -/
def walkOf (start : Nat) (chain : List Hash) : Except Error (List (Except Error (Nat × Hash))) :=
  if start < chain.length then
    .ok ((List.range' start (chain.length - start)).map fun height =>
      .ok (height, chain.getD height Hash.zero))
  else if chain.length = 0 ∧ start = 0 then .ok []
  else .error (.heightUnreachable start (BestChain.mk chain).tipHeight?)

theorem getD_of_lt {chain : List Hash} {i : Nat} (h : i < chain.length) :
    chain.getD i Hash.zero = chain[i] := by
  rw [List.getD_eq_getElem?_getD, List.getElem?_eq_getElem h, Option.getD_some]

theorem walkOf_zero_inj {chain other : List Hash} (h : walkOf 0 chain = walkOf 0 other) :
    chain = other := by
  have heq : ∀ chain : List Hash, walkOf 0 chain
      = .ok ((List.range' 0 chain.length).map fun height =>
          .ok (height, chain.getD height Hash.zero)) := by
    intro chain
    unfold walkOf
    by_cases hlt : 0 < chain.length
    · rw [if_pos hlt]
      rfl
    · have hzero : chain.length = 0 := by omega
      rw [if_neg hlt, if_pos ⟨hzero, rfl⟩, hzero]
      rfl
  rw [heq, heq] at h
  have hlist := Except.ok.inj h
  have hlength := congrArg List.length hlist
  rw [List.length_map, List.length_map, List.length_range', List.length_range'] at hlength
  rw [hlength] at hlist
  refine List.ext_getElem hlength ?_
  intro i hi hi'
  have hitem := List.map_inj_left.1 hlist i (by rw [List.mem_range'_1]; omega)
  have hhash := (Prod.mk.inj (Except.ok.inj hitem)).2
  rw [getD_of_lt hi, getD_of_lt hi'] at hhash
  exact hhash

/-! ## Reading blocks -/

theorem Walk.load_of_lies {w : Walk} {d : Directory} {magic : UInt32} {height : Nat} {r : Record}
    (hover : w.reader.Over d magic) (hrecord : w.recordAt height = .ok r) (hlies : d.Lies magic r) :
    ∃ visit next, w.load d.volume height = (.ok visit, { w with reader := next }) ∧
      next.Over d magic ∧ visit.block.height = height ∧ visit.block.hash = r.hash := by
  unfold load
  rw [hrecord]
  dsimp only
  unfold visitOf
  cases w.config.loadPayload with
  | true =>
    obtain ⟨payload, next, hread, hnext⟩ := hover.payload hlies
    rw [if_pos rfl, hread]
    exact ⟨_, next, rfl, hnext, rfl, rfl⟩
  | false =>
    obtain ⟨count, next, hread, hnext⟩ := hover.transactionCount hlies
    rw [if_neg (by simp), hread]
    exact ⟨_, next, rfl, hnext, rfl, rfl⟩

theorem Walk.loadAll_spec {w : Walk} {d : Directory} {magic : UInt32} (f : Nat → Hash)
    {heights : List Nat} (hover : w.reader.Over d magic)
    (h : ∀ height ∈ heights, ∃ n, w.chain.hashAt? height = some (f height) ∧
      w.assembler.node? (f height) = some n ∧ n.record.hash = f height ∧ d.Lies magic n.record) :
    ((w.loadAll d.volume heights).1.map fun item =>
        item.map fun visit => (visit.block.height, visit.block.hash))
      = heights.map fun height => .ok (height, f height) := by
  induction heights generalizing w with
  | nil => rfl
  | cons height rest ih =>
    obtain ⟨n, hhash, hnode, hsame, hlies⟩ := h height List.mem_cons_self
    have hrecord : w.recordAt height = .ok n.record := by
      unfold recordAt
      rw [hhash]
      dsimp only
      rw [hnode]
    obtain ⟨visit, next, hload, hnext, hheight, hvisit⟩ := Walk.load_of_lies hover hrecord hlies
    have hrest := ih (w := { w with reader := next }) hnext
      fun other hother => h other (List.mem_cons_of_mem height hother)
    unfold loadAll
    rw [hload]
    dsimp only
    rw [List.map_cons, List.map_cons, hrest]
    show Except.ok (visit.block.height, visit.block.hash) :: _ = _
    rw [hheight, hvisit, hsame]

/-! ## The range -/

theorem resolve_open {config : Config} (h : config.IsOpen) (a : Assembler) (chain : BestChain) :
    Range.resolve config a chain =
      if config.startHeight < chain.length then
        .ok (some ⟨config.startHeight, chain.length - 1⟩)
      else if chain.length = 0 ∧ config.startHeight = 0 then .ok none
      else .error (.heightUnreachable config.startHeight chain.tipHeight?) := by
  have hlast : Range.lastHeight config chain = .ok chain.tipHeight? := by
    unfold Range.lastHeight
    rw [h.endHeight]
  have hfirst : Range.firstHeight config a chain = .ok config.startHeight := by
    unfold Range.firstHeight
    rw [h.startHash]
  cases hlength : chain.length with
  | zero =>
    have htip : chain.tipHeight? = none := by
      unfold BestChain.tipHeight?
      rw [hlength]
    rw [htip] at hlast
    rw [Range.resolve_none hlast hfirst, if_neg (Nat.not_lt_zero _)]
    by_cases hzero : config.startHeight = 0
    · rw [if_pos hzero, if_pos ⟨rfl, hzero⟩]
    · rw [if_neg hzero, if_neg (fun hboth => hzero hboth.2)]
  | succ n =>
    have htip : chain.tipHeight? = some n := by
      unfold BestChain.tipHeight?
      rw [hlength]
    rw [htip] at hlast
    rw [Range.resolve_some hlast hfirst]
    by_cases hle : config.startHeight ≤ n
    · rw [if_pos hle, if_pos (by omega)]
      rfl
    · rw [if_neg hle, if_neg (by omega), if_neg (by simp)]

theorem walkOver_open {config : Config} (h : config.IsOpen) (reader : Reader) (a : Assembler)
    (reused : Bool) (records reorgs : Nat) :
    walkOver config reader a reused records reorgs = (Range.resolve config a a.best).map fun range =>
      ⟨config, a, reader, a.best, range, reused, records, reorgs⟩ := by
  have hchain : chainFor config a = .ok a.best := by
    unfold chainFor
    rw [h.endHash]
  unfold walkOver
  rw [hchain]
  show (Range.resolve config a a.best).bind _ = _
  cases Range.resolve config a a.best <;> rfl

/-! ## The walk -/

/-- **What a run walks** is the part of its best chain from the first height on. -/
theorem Ran.walked_eq {config : Config} {d : Directory} {store : DatabaseStore} {s : Snapshot}
    {c : Course} (h : Ran config d store.loaded c) (hs : store.Holds s) (hopen : config.IsOpen)
    (hheld : ∀ x ∈ c.assembler.best.hashes, x ∈ c.assembler.records.map Record.hash) :
    walked config d store = walkOf config.startHeight c.assembler.best.hashes := by
  have hlinking := Snapshot.linking_swept c.used c.fed
  have hwalk := h.walk
  unfold walked walkOf
  rw [(hs.run h.toFollows).1, hwalk, walkOver_open hopen, resolve_open hopen]
  show Except.map _ (Except.map _ (if config.startHeight < c.assembler.best.hashes.length then _
    else if c.assembler.best.hashes.length = 0 ∧ config.startHeight = 0 then _ else _)) = _
  by_cases hlt : config.startHeight < c.assembler.best.hashes.length
  · rw [if_pos hlt, if_pos hlt]
    refine congrArg Except.ok ?_
    refine (Walk.loadAll_spec (fun height => c.assembler.best.hashes.getD height Hash.zero) h.opened
      ?_).trans ?_
    · intro height hheight
      have hin : height < c.assembler.best.hashes.length := by
        have hmem : height ∈ List.range' config.startHeight
            (c.assembler.best.hashes.length - 1 + 1 - config.startHeight) := hheight
        rw [List.mem_range'_1] at hmem
        omega
      obtain ⟨r, hr, hhash⟩ := List.mem_map.1 (hheld _ (List.getElem_mem hin))
      obtain ⟨id, n, hid, rfl⟩ := Assembler.mem_records_iff.1 hr
      refine ⟨n, ?_, ?_, ?_, h.lies hr⟩
      · show c.assembler.best.hashes[height]? = _
        rw [getD_of_lt hin, List.getElem?_eq_getElem hin]
      · show c.assembler.node? _ = _
        rw [getD_of_lt hin]
        exact (Assembler.node?_eq_some_iff hlinking.distinct).2 ⟨id, hid, hhash⟩
      · rw [getD_of_lt hin]
        exact hhash
    · show (List.range' config.startHeight
        (c.assembler.best.hashes.length - 1 + 1 - config.startHeight)).map _ = _
      rw [Nat.sub_add_cancel (by omega)]
  · rw [if_neg hlt, if_neg hlt]
    split <;> rfl

end BlockIndex
