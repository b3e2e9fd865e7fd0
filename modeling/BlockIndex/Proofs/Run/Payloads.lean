import BlockIndex.Proofs.Run.Blocks

/-!
# Runs with payloads and without

Whether payloads are wanted is looked at when a block is read, and nowhere else.  Without a payload
the number of transactions is read by itself, and it is the number that the payload says.

* `Config.loading`, `Walk.loading`  the same with payloads wanted or not;
* `prepare_loading`                 a run is prepared alike;
* `Visit.bare`                      a visit without its payload;
* `Walk.visitOf_bare`               one block read both ways;
* `Walk.Spares`                     one walk gives the visits of another without their payloads.

Main statements: `Walk.Reads.load`, `payloads_spared`.
-/

namespace BlockIndex

/-- The options with payloads wanted or not. -/
def Config.loading (config : Config) (wanted : Bool) : Config :=
  { config with loadPayload := wanted }

/-- The walk with payloads wanted or not. -/
def Walk.loading (w : Walk) (wanted : Bool) : Walk := { w with config := w.config.loading wanted }

/-- The stage with payloads wanted or not. -/
def Stage.loading (stage : Stage) (wanted : Bool) : Stage :=
  { stage with config := stage.config.loading wanted }

/-! ## Preparing -/

section Preparing

variable (config : Config) (wanted : Bool)

theorem walkOver_loading (reader : Reader) (a : Assembler) (reused : Bool) (records reorgs : Nat) :
    walkOver (config.loading wanted) reader a reused records reorgs
      = (walkOver config reader a reused records reorgs).map (Walk.loading · wanted) := by
  have hchain : chainFor (config.loading wanted) a = chainFor config a := rfl
  unfold walkOver
  rw [hchain]
  cases chainFor config a with
  | error e => rfl
  | ok chain =>
    have hrange : Range.resolve (config.loading wanted) a chain
        = Range.resolve config a chain := rfl
    show (Range.resolve (config.loading wanted) a chain).bind _
      = Except.map _ ((Range.resolve config a chain).bind _)
    rw [hrange]
    cases Range.resolve config a chain <;> rfl

/-- The same is written, and the same is walked. -/
theorem plan_loading (v : Volume) (files : BlockFiles) (loaded : Snapshot) :
    plan (config.loading wanted) v files loaded =
      ((plan config v files loaded).1,
        (plan config v files loaded).2.map (Walk.loading · wanted)) := by
  unfold plan
  have hnetwork : (config.loading wanted).network = config.network := rfl
  rw [hnetwork]
  generalize resume (Reader.ofFiles files config.network.magic) v files loaded = resuming
  obtain ⟨_ | resumed, r⟩ := resuming
  · rfl
  have hscan : ∀ a cursor,
      scanFrom (config.loading wanted) v files a cursor = scanFrom config v files a cursor :=
    fun _ _ => rfl
  dsimp only
  rw [hscan]
  generalize scanFrom config v files resumed.assembler resumed.snapshot.cursor = scanning
  obtain ⟨_ | outcome, p⟩ := scanning
  · rfl
  · dsimp only
    rw [walkOver_loading]

theorem prepareWith_loading {σ : Type} [IndexStore σ] (v : Volume) (files : BlockFiles)
    (store : σ) : prepareWith (config.loading wanted) v files store =
      ((prepareWith config v files store).1.map (Walk.loading · wanted),
        (prepareWith config v files store).2) := by
  unfold prepareWith
  generalize (IndexCache.ofStore store).load = loading
  obtain ⟨_ | loaded, cache⟩ := loading
  · rfl
  dsimp only
  rw [plan_loading]
  generalize applyEdits IndexCache.edit (plan config v files loaded).1 cache = writing
  obtain ⟨_ | _, cache⟩ := writing <;> rfl

/-- **A run is prepared alike**: it fails with the same error, or walks the same, and leaves the same
volume. -/
theorem prepare_loading (v : Volume) : prepare (config.loading wanted) v =
    ((prepare config v).1.map (Walk.loading · wanted), (prepare config v).2) := by
  have hvalid : (config.loading wanted).validate = config.validate := rfl
  have hdir : (config.loading wanted).blockdir = config.blockdir := rfl
  unfold prepare
  rw [hvalid, hdir]
  cases config.validate with
  | error e => rfl
  | ok _ =>
    dsimp only
    cases BlockFiles.discover v config.blockdir with
    | error e => rfl
    | ok files =>
      have hcache : (config.loading wanted).cachedir = config.cachedir := rfl
      have hnetwork : (config.loading wanted).network = config.network := rfl
      dsimp only
      unfold prepareOver
      rw [hcache, hnetwork]
      cases config.cachedir with
      | none =>
        dsimp only
        rw [prepareWith_loading]
      | some cachedir =>
        dsimp only
        generalize FileStore.openIn v cachedir config.network = opening
        obtain ⟨_ | store, v⟩ := opening
        · rfl
        · dsimp only
          rw [prepareWith_loading]

theorem Stage.run_loading (stage : Stage) (database : Database) :
    (stage.loading wanted).run database =
      ((stage.run database).1.map (Walk.loading · wanted), (stage.run database).2) :=
  prepareWith_loading _ _ _ _ _

theorem Stage.prepared_loading (stage : Stage) (database : Database) :
    (stage.loading wanted).prepared database
      = (stage.prepared database).map (Walk.loading · wanted) := by
  have hcache : (stage.loading wanted).config.cachedir = stage.config.cachedir := rfl
  unfold prepared
  rw [hcache]
  cases stage.config.cachedir with
  | none => exact congrArg Prod.fst (prepareWith_loading _ _ _ _ _)
  | some _ => exact congrArg Prod.fst (run_loading wanted stage database)

end Preparing

/-! ## Reading a block -/

/-- A visit without its payload. -/
def Visit.bare (visit : Visit) : Visit := { visit with block := { visit.block with payload := [] } }

/-- What is answered of a block, without its payload. -/
def bareAnswer : Option (Except Error Visit) → Option (Except Error Visit) :=
  Option.map (Except.map Visit.bare)

section Reading

variable {d : Directory} {magic : UInt32} {v : Volume} {reader : Reader} {r : Record} {w : Walk}
  {height : Nat} {heights rest : List Nat}

/-- **One block**: of a record that lies in the directory, both are read, the payload and the number
of transactions that it says. -/
theorem Walk.visitOf_bare (hover : reader.Over d magic) (hlies : d.Lies magic r) (hv : v.Shows d)
    (height : Nat) : ∃ visit next, visitOf true reader v r height = (.ok visit, next) ∧
      visitOf false reader v r height = (.ok visit.bare, next) ∧ next.Over d magic := by
  obtain ⟨⟨file, hfile⟩, _, hread⟩ := hlies
  have hreaches := hover.reaches hfile
  have hpayload := (hover.payload_shown hv hfile).trans (hreaches.payload (.of_readAt hread))
  have hcount :=
    (hover.transactionCount_shown hv hfile).trans (hreaches.transactionCount (.of_readAt hread))
  unfold visitOf
  rw [if_pos rfl, if_neg Bool.false_ne_true, hpayload, hcount]
  exact ⟨_, _, rfl, rfl, hover.next hfile⟩

/-- **One step**: both walks give the block at the next height, and leave the same reader to read on
with. -/
theorem Walk.Reads.load (h : w.Reads d magic (height :: rest)) (hv : v.Shows d) : ∃ visit reader,
    (w.loading true).load v height = (.ok visit, Walk.loading { w with reader } true) ∧
      (w.loading false).load v height = (.ok visit.bare, Walk.loading { w with reader } false) ∧
      Walk.Reads { w with reader } d magic rest := by
  obtain ⟨r, hr, hlies⟩ := h.knows height List.mem_cons_self
  obtain ⟨visit, next, hfull, hbare, hnext⟩ := Walk.visitOf_bare h.opened hlies hv height
  have hload : ∀ wanted, (w.loading wanted).load v height =
      ((visitOf wanted w.reader v r height).1,
        Walk.loading { w with reader := (visitOf wanted w.reader v r height).2 } wanted) := by
    intro wanted
    have hrecord : (w.loading wanted).recordAt height = .ok r := hr.found
    unfold Walk.load
    rw [hrecord]
    rfl
  exact ⟨visit, next, by rw [hload, hfull], by rw [hload, hbare], h.next hnext⟩

theorem Walk.Reads.loading (h : w.Reads d magic heights) (wanted : Bool) :
    (w.loading wanted).Reads d magic heights where
  opened := h.opened
  knows := by
    intro height hheight
    obtain ⟨r, hr, hlies⟩ := h.knows height hheight
    exact ⟨r, ⟨hr.found, hr.hash, hr.parent, hr.genuine⟩, hlies⟩

/-! ## All blocks -/

/-- Two lazy walks over the same heights, one of them without payloads, answer the same but for the
payloads. -/
theorem Walk.Reads.answers {b spare : Blocks} (h : w.Reads d magic heights)
    (hheights : b.heights = heights) (hheights' : spare.heights = heights)
    (hwalk : b.walk = w.loading true) (hwalk' : spare.walk = w.loading false) {vs : List Volume}
    (hvs : ∀ v ∈ vs, v.Shows d) : spare.answers vs = (b.answers vs).map bareAnswer := by
  induction vs generalizing b spare w heights with
  | nil => rfl
  | cons v vs ih =>
    cases heights with
    | nil =>
      rw [Blocks.answers_nil hheights, Blocks.answers_nil hheights', List.map_replicate]
      rfl
    | cons height rest =>
      obtain ⟨visit, reader, hfull, hbare, hrest⟩ := h.load (hvs v List.mem_cons_self)
      rw [← hwalk] at hfull
      rw [← hwalk'] at hbare
      obtain ⟨after, hasked, hgoes, hleft⟩ := Blocks.next?_ok hheights hfull
      obtain ⟨after', hasked', hgoes', hleft'⟩ := Blocks.next?_ok hheights' hbare
      have hothers := ih hrest hleft hleft' hgoes hgoes'
        fun u hu => hvs u (List.mem_cons_of_mem v hu)
      rw [Blocks.answers, Blocks.answers, hasked, hasked', List.map_cons, hothers]
      rfl

/-- A handler that looks at no payload does the same with both. -/
theorem Walk.Reads.runHeights {σ : Type} {volume : σ → Volume}
    {handle : Visit → σ → Except Error Flow × σ} (h : w.Reads d magic heights)
    (hshown : ∀ s, (volume s).Shows d) (hblind : ∀ visit s, handle visit s = handle visit.bare s)
    (summary : Summary) (state : σ) :
    (w.loading false).runHeights volume handle summary state heights
      = (w.loading true).runHeights volume handle summary state heights := by
  induction heights generalizing w summary state with
  | nil => rfl
  | cons height rest ih =>
    obtain ⟨visit, reader, hfull, hbare, hrest⟩ := h.load (hshown state)
    unfold Walk.runHeights
    rw [hfull, hbare]
    dsimp only
    rw [← hblind]
    generalize handle visit state = handled
    obtain ⟨_ | _ | _, state⟩ := handled
    · rfl
    · exact ih hrest (summary.count height) state
    · rfl

end Reading

/-! ## Whole runs -/

/-- While the files of a directory are as they were, one walk gives the visits of another, without
their payloads. -/
structure Walk.Spares (spare w : Walk) (d : Directory) : Prop where
  /-- Neither fails, and both answer the same but for the payloads. -/
  answers : ∀ vs, (∀ v ∈ vs, v.Shows d) → (∀ e, some (.error e) ∉ w.blocks.answers vs) ∧
    spare.blocks.answers vs = (w.blocks.answers vs).map bareAnswer
  /-- A handler that looks at no payload does the same with both, to the same end. -/
  handed : ∀ {σ : Type} (volume : σ → Volume) (handle : Visit → σ → Except Error Flow × σ),
    (∀ s, (volume s).Shows d) → (∀ visit s, handle visit s = handle visit.bare s) →
      ∀ state, spare.run volume handle state = w.run volume handle state

/-- **Payloads spared.**  Whatever runs came before, a run without payloads leaves the same cache as
one with them, and it fails alike or gives the same visits without their payloads, if files that keep
their length and time keep their bytes and no two different headers share a hash.  What a run makes
of any volume is the same without payloads. -/
theorem payloads_spared (before : List Stage) (stage : Stage)
    (htrusts : ∀ old ∈ before, old.directory.Trusts stage.directory)
    (hdiscerns : ∀ old ∈ before,
      Directory.Discerns stage.config.network.magic old.directory stage.directory) :
    (((stage.loading false).run (databaseAfter before)).2
        = ((stage.loading true).run (databaseAfter before)).2) ∧
      ((∃ e, (stage.loading true).prepared (databaseAfter before) = .error e ∧
          (stage.loading false).prepared (databaseAfter before) = .error e) ∨
        ∃ w, (stage.loading true).prepared (databaseAfter before) = .ok w ∧
          (stage.loading false).prepared (databaseAfter before) = .ok (w.loading false) ∧
          (w.loading false).Spares w stage.directory) ∧
      ∀ v, prepare (stage.config.loading false) v =
        ((prepare (stage.config.loading true) v).1.map (Walk.loading · false),
          (prepare (stage.config.loading true) v).2) := by
  refine ⟨by rw [Stage.run_loading, Stage.run_loading], ?_,
    prepare_loading (stage.config.loading true) false⟩
  rw [Stage.prepared_loading, Stage.prepared_loading]
  cases hprepared : stage.prepared (databaseAfter before) with
  | error e => exact Or.inl ⟨e, rfl, rfl⟩
  | ok w =>
    refine Or.inr ⟨w.loading true, rfl, rfl, ?_⟩
    have hreads := Stage.prepared_reads htrusts hdiscerns hprepared
    have hheights : ∀ wanted, (w.loading wanted).blocks.heights = w.heights :=
      fun wanted => Blocks.heights_blocks _
    constructor
    case answers =>
      intro vs hvs
      have hfull := hreads.loading true
      rw [← Blocks.walk_blocks (w.loading true)] at hfull
      exact ⟨Blocks.answers_shown (hheights true) hfull hvs,
        hreads.answers (hheights true) (hheights false) (Blocks.walk_blocks _)
          (Blocks.walk_blocks _) hvs⟩
    case handed =>
      intro σ volume handle hshown hblind state
      exact hreads.runHeights hshown hblind _ state

/-- A stage over a directory of one record, whose number of transactions takes three bytes. -/
def countedStage : Stage :=
  ⟨cachedConfig, (Directory.at? Reader.countedVolume ["blocks"]).get (by decide +kernel)⟩

/-- The numbers of transactions that a lazy walk answers, and the lengths of the payloads. -/
def countsOf (answers : List (Option (Except Error Visit))) : List (Option Nat × Nat) :=
  answers.filterMap fun answer =>
    (answer.bind Except.toOption).map fun visit =>
      (visit.view.transactionCount, visit.block.payload.length)

/-- A record that is kept from the cache has 513 transactions, with its payload and without. -/
theorem payloads_spared_counted :
    (∀ old ∈ [countedStage], old.directory.Trusts countedStage.directory) ∧
      (∀ old ∈ [countedStage], Directory.Discerns countedStage.config.network.magic old.directory
        countedStage.directory) ∧
      ∃ w, (countedStage.loading true).prepared (databaseAfter [countedStage]) = .ok w ∧
        w.cacheReused = true ∧
        countsOf (w.blocks.answers [countedStage.directory.volume]) = [(some 513, 83)] ∧
        (countedStage.loading false).prepared (databaseAfter [countedStage])
          = .ok (w.loading false) ∧
        countsOf ((w.loading false).blocks.answers [countedStage.directory.volume])
          = [(some 513, 0)] ∧
        (w.loading false).Spares w countedStage.directory := by
  have htrusts : ∀ old ∈ [countedStage], old.directory.Trusts countedStage.directory := by
    decide +kernel
  have hdiscerns : ∀ old ∈ [countedStage], Directory.Discerns countedStage.config.network.magic
      old.directory countedStage.directory := by
    decide +kernel
  have hfacts : ((countedStage.loading true).prepared (databaseAfter [countedStage])).toOption.map
      (fun w => (w.cacheReused, countsOf (w.blocks.answers [countedStage.directory.volume]),
        countsOf ((w.loading false).blocks.answers [countedStage.directory.volume])))
        = some (true, [(some 513, 83)], [(some 513, 0)]) := by
    decide +kernel
  obtain ⟨w, hw, hall⟩ := Option.map_eq_some_iff.1 hfacts
  obtain ⟨hreused, hboth⟩ := Prod.mk.inj hall
  obtain ⟨hfull, hbare⟩ := Prod.mk.inj hboth
  have hprepared := eq_ok_of_toOption hw
  obtain ⟨_, herror | ⟨other, hother, hspare, hspares⟩, _⟩ :=
    payloads_spared [countedStage] countedStage htrusts hdiscerns
  · obtain ⟨e, hfailed, _⟩ := herror
    rw [hprepared] at hfailed
    cases hfailed
  · rw [hprepared] at hother
    obtain rfl := Except.ok.inj hother
    exact ⟨htrusts, hdiscerns, w, hprepared, hreused, hfull, hspare, hbare, hspares⟩

end BlockIndex
