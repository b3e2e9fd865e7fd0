import BlockIndex.Proofs.Run.Growth
import BlockIndex.Proofs.Run.Visits

/-!
# Walking lazily

A lazy walk yields the blocks of its range one after the other, up to the first that cannot be read;
and a run hands them on.

* `Blocks.heights`        the heights that are left;
* `Blocks.next?_known`    the block at the next height, or an error and then nothing;
* `Blocks.answers_spec`   blocks at the first heights, then at most one error, then nothing;
* `Blocks.answers_shown`  no error as long as the files are as they were;
* `Blocks.HandsOn`        the calls of a handler are the blocks of a lazy walk.

Main statements: `Walk.run_handsOn`, `blocks_exact`.
-/

namespace BlockIndex

namespace Blocks

variable {b : Blocks} {v : Volume} {height : Nat} {rest : List Nat} {w : Walk}

/-! ## One block -/

/-- The heights that are left. -/
def heights (b : Blocks) : List Nat :=
  match b.last with
  | none => []
  | some last => (Range.mk b.next last).heights

theorem heights_blocks (w : Walk) : w.blocks.heights = w.heights := by
  unfold Walk.blocks Walk.heights
  cases w.range <;> rfl

theorem walk_blocks (w : Walk) : w.blocks.walk = w := by
  unfold Walk.blocks
  cases w.range <;> rfl

theorem next?_nil (h : b.heights = []) : b.next? v = (none, b) := by
  unfold Blocks.heights at h
  unfold next?
  cases hlast : b.last with
  | none => rfl
  | some last =>
    rw [hlast] at h
    have hlength := congrArg List.length h
    dsimp only [Range.heights] at hlength
    rw [List.length_range', List.length_nil] at hlength
    dsimp only
    rw [if_pos (by omega)]

theorem heights_eq_cons (h : b.heights = height :: rest) :
    ∃ last, b.last = some last ∧ b.next = height ∧ height ≤ last ∧
      ∀ w, Blocks.heights ⟨w, height + 1, some last⟩ = rest := by
  unfold Blocks.heights at h
  cases hlast : b.last with
  | none =>
    rw [hlast] at h
    cases h
  | some last =>
    rw [hlast] at h
    dsimp only [Range.heights] at h
    have hlength := congrArg List.length h
    rw [List.length_range', List.length_cons] at hlength
    obtain ⟨n, hn⟩ : ∃ n, last + 1 - b.next = n + 1 := ⟨_, hlength⟩
    rw [hn, List.range'_succ] at h
    obtain ⟨rfl, rfl⟩ := List.cons.inj h
    refine ⟨last, rfl, rfl, by omega, ?_⟩
    intro w
    show List.range' (b.next + 1) (last + 1 - (b.next + 1)) = _
    rw [show last + 1 - (b.next + 1) = n by omega]

theorem next?_ok {visit : Visit} (h : b.heights = height :: rest)
    (hload : b.walk.load v height = (.ok visit, w)) :
    ∃ after, b.next? v = (some (.ok visit), after) ∧ after.walk = w ∧ after.heights = rest := by
  obtain ⟨last, hlast, rfl, hle, hrest⟩ := heights_eq_cons h
  refine ⟨⟨w, b.next + 1, some last⟩, ?_, rfl, hrest w⟩
  unfold next?
  rw [hlast, hload]
  dsimp only
  rw [if_neg (by omega)]

theorem next?_error {e : Error} (h : b.heights = height :: rest)
    (hload : b.walk.load v height = (.error e, w)) :
    ∃ after, b.next? v = (some (.error e), after) ∧ after.heights = [] := by
  obtain ⟨last, hlast, rfl, hle, _⟩ := heights_eq_cons h
  refine ⟨⟨w, b.next + 1, none⟩, ?_, rfl⟩
  unfold next?
  rw [hlast, hload]
  dsimp only
  rw [if_neg (by omega)]

/-- **One step** answers the block at the next height, or an error after which nothing is left. -/
theorem next?_known {r : Record} (h : b.heights = height :: rest) (hr : b.walk.Knows height r)
    (v : Volume) :
    (∃ e after, b.next? v = (some (.error e), after) ∧ after.heights = []) ∨
      ∃ visit after reader, b.next? v = (some (.ok visit), after) ∧
        after.walk = { b.walk with reader } ∧ after.heights = rest ∧ visit.height = height ∧
        visit.IsOn b.walk.chain ∧ (b.walk.config.loadPayload = true → visit.Genuine) := by
  obtain ⟨reader, hreader⟩ := b.walk.load_reader v height
  cases hload : b.walk.load v height with
  | mk result next =>
    rw [hload] at hreader
    cases result with
    | error e =>
      obtain ⟨after, hasked, hover⟩ := next?_error h hload
      exact Or.inl ⟨e, after, hasked, hover⟩
    | ok visit =>
      obtain ⟨after, hasked, hwalk, hrest⟩ := next?_ok h hload
      exact Or.inr ⟨visit, after, reader, hasked, hwalk.trans hreader, hrest, hr.visit_isOn hload⟩

/-! ## All blocks -/

theorem answers_nil (h : b.heights = []) (vs : List Volume) :
    b.answers vs = List.replicate vs.length none := by
  induction vs with
  | nil => rfl
  | cons v rest ih =>
    rw [answers, next?_nil h]
    dsimp only
    rw [ih]
    rfl

/-- The answers of a lazy walk that reads some blocks and fails or not, then nothing. -/
def yield (visits : List Visit) (fault? : Option Error) (rest : Nat) :
    List (Option (Except Error Visit)) :=
  (visits.map fun visit => some (.ok visit)) ++ (fault?.toList.map fun e => some (.error e))
    ++ List.replicate rest none

/-- **Whatever becomes of the files**, a lazy walk answers the blocks at the first of its heights,
then at most one error, then nothing; and without an error it leaves none out. -/
theorem answers_spec {heights : List Nat} (h : b.heights = heights)
    (hknows : ∀ height ∈ heights, ∃ r, b.walk.Knows height r) (vs : List Volume) :
    ∃ visits fault? count, b.answers vs = yield visits fault? count ∧
      visits.map Visit.height <+: heights ∧
      (fault? = none → count ≠ 0 → visits.map Visit.height = heights) ∧
      ∀ visit ∈ visits, visit.IsOn b.walk.chain ∧
        (b.walk.config.loadPayload = true → visit.Genuine) := by
  induction vs generalizing b heights with
  | nil => exact ⟨[], none, 0, rfl, List.nil_prefix, fun _ hcount => absurd rfl hcount, by simp⟩
  | cons v vs ih =>
    cases heights with
    | nil =>
      rw [answers_nil h]
      exact ⟨[], none, (v :: vs).length, rfl, List.nil_prefix, fun _ _ => rfl, by simp⟩
    | cons height others =>
      obtain ⟨r, hr⟩ := hknows height List.mem_cons_self
      rw [answers]
      rcases next?_known h hr v with ⟨e, after, hasked, hover⟩ |
        ⟨visit, after, reader, hasked, hwalk, hothers, hheight, hvisit⟩
      · rw [hasked]
        dsimp only
        rw [answers_nil hover]
        exact ⟨[], some e, vs.length, rfl, List.nil_prefix, fun hnone => by simp at hnone, by simp⟩
      · -- the walk goes on as it is, but for its reader
        obtain ⟨visits, fault?, count, hanswers, hprefix, hall, hvisits⟩ := ih hothers (by
          intro other hother
          obtain ⟨s, hs⟩ := hknows other (List.mem_cons_of_mem height hother)
          rw [hwalk]
          exact ⟨s, hs.withReader reader⟩)
        rw [hwalk] at hvisits
        rw [hasked]
        dsimp only
        refine ⟨visit :: visits, fault?, count, ?_, ?_, ?_, ?_⟩
        · rw [hanswers]
          rfl
        · rw [List.map_cons, hheight]
          exact List.cons_prefix_cons.2 ⟨rfl, hprefix⟩
        · intro hnone hcount
          rw [List.map_cons, hheight, hall hnone hcount]
        · exact List.forall_mem_cons.2 ⟨hvisit, hvisits⟩

/-- **As long as the files are as they were**, a lazy walk answers no error. -/
theorem answers_shown {d : Directory} {magic : UInt32} {heights : List Nat}
    (h : b.heights = heights) (hreads : b.walk.Reads d magic heights) {vs : List Volume}
    (hvs : ∀ v ∈ vs, v.Shows d) (e : Error) : some (.error e) ∉ b.answers vs := by
  induction vs generalizing b heights with
  | nil => exact List.not_mem_nil
  | cons v vs ih =>
    cases heights with
    | nil =>
      rw [answers_nil h]
      intro hmem
      cases (List.mem_replicate.1 hmem).2
    | cons height others =>
      obtain ⟨r, hr, hlies⟩ := hreads.knows height List.mem_cons_self
      obtain ⟨visit, next, hload, hnext⟩ :=
        hr.load_shown hlies hreads.opened (hvs v List.mem_cons_self)
      obtain ⟨after, hasked, hwalk, hothers⟩ := next?_ok h hload
      have hrest := ih (b := after) hothers (by rw [hwalk]; exact hreads.next hnext)
        fun u hu => hvs u (List.mem_cons_of_mem v hu)
      rw [answers, hasked]
      intro hmem
      rcases List.mem_cons.1 hmem with heq | hmem
      · cases heq
      · exact hrest hmem

theorem length_answers (b : Blocks) (vs : List Volume) : (b.answers vs).length = vs.length := by
  induction vs generalizing b with
  | nil => rfl
  | cons v vs ih => exact congrArg (· + 1) (ih _)

theorem length_yield (visits : List Visit) (fault? : Option Error) (count : Nat) :
    (yield visits fault? count).length = visits.length + fault?.toList.length + count := by
  rw [yield, List.length_append, List.length_append, List.length_map, List.length_map,
    List.length_replicate]

/-- A lazy walk without an error answers all its blocks, then nothing. -/
theorem answers_whole {heights : List Nat} (h : b.heights = heights)
    (hknows : ∀ height ∈ heights, ∃ r, b.walk.Knows height r) {vs : List Volume}
    (hnone : ∀ e, some (.error e) ∉ b.answers vs) :
    ∃ visits, b.answers vs = yield visits none (vs.length - heights.length) ∧
      visits.map Visit.height = heights.take vs.length ∧
      ∀ visit ∈ visits, visit.IsOn b.walk.chain := by
  obtain ⟨visits, fault?, count, hanswers, hprefix, hall, hvisits⟩ := answers_spec h hknows vs
  cases fault? with
  | some e =>
    refine absurd ?_ (hnone e)
    rw [hanswers]
    simp [yield]
  | none =>
    have hlength := b.length_answers vs
    rw [hanswers, length_yield, Option.toList_none, List.length_nil, Nat.add_zero] at hlength
    have hvisits := fun visit hvisit => (hvisits visit hvisit).1
    by_cases hzero : count = 0
    · -- it was not asked for more blocks than there are
      have hshort := hprefix.length_le
      have htaken := List.prefix_iff_eq_take.1 hprefix
      rw [List.length_map] at hshort htaken
      obtain rfl : count = vs.length - heights.length := by omega
      refine ⟨visits, hanswers, ?_, hvisits⟩
      rwa [show visits.length = vs.length by omega] at htaken
    · have hsame := hall rfl hzero
      have hlong := congrArg List.length hsame
      rw [List.length_map] at hlong
      obtain rfl : count = vs.length - heights.length := by omega
      refine ⟨visits, hanswers, ?_, hvisits⟩
      rw [hsame, List.take_of_length_le (by omega)]

end Blocks

/-! ## Handing blocks on -/

/-- A call of a handler. -/
structure Handling where
  /-- The volume that the block was read from. -/
  volume : Volume
  visit : Visit
  answer : Except Error Flow

/-- A handler that keeps its calls beside its state. -/
def recording {σ : Type} (volume : σ → Volume) (handle : Visit → σ → Except Error Flow × σ)
    (visit : Visit) (s : σ × List Handling) : Except Error Flow × (σ × List Handling) :=
  let handled := handle visit s.1
  (handled.1, handled.2, s.2 ++ [⟨volume s.1, visit, handled.1⟩])

/-- The calls of a handler are the blocks of a lazy walk, one after the other, up to the first that
it does not let the run go on after. -/
inductive Blocks.HandsOn : Blocks → List Handling → Volume → Prop where
  /-- No block is left, or the next one cannot be read. -/
  | finished {b : Blocks} {v : Volume} (none : ∀ visit, (b.next? v).1 ≠ some (.ok visit)) :
      HandsOn b [] v
  /-- The handler stops or fails. -/
  | ended {b after : Blocks} {v : Volume} {call : Handling}
      (asked : b.next? call.volume = (some (.ok call.visit), after))
      (ends : call.answer ≠ .ok .next) : HandsOn b [call] v
  /-- The run goes on. -/
  | next {b after : Blocks} {v : Volume} {call : Handling} {calls : List Handling}
      (asked : b.next? call.volume = (some (.ok call.visit), after))
      (goes : call.answer = .ok .next) (rest : HandsOn after calls v) :
      HandsOn b (call :: calls) v

theorem Blocks.HandsOn.answers {b : Blocks} {calls : List Handling} {v : Volume}
    (h : b.HandsOn calls v) :
    b.answers (calls.map Handling.volume) = yield (calls.map Handling.visit) none 0 := by
  induction h with
  | finished _ => rfl
  | ended hasked _ =>
    rw [List.map_cons, Blocks.answers, hasked]
    rfl
  | next hasked _ _ ih =>
    rw [List.map_cons, Blocks.answers, hasked]
    dsimp only
    rw [ih]
    rfl

/-- The calls that a run makes at some heights are the blocks of a lazy walk over them; and to keep
them changes nothing else. -/
theorem Walk.runHeights_handsOn {σ : Type} (volume : σ → Volume)
    (handle : Visit → σ → Except Error Flow × σ) {heights : List Nat} {b : Blocks}
    (h : b.heights = heights) (summary : Summary) (state : σ) (kept : List Handling) :
    let ran := b.walk.runHeights volume handle summary state heights
    ∃ calls, b.walk.runHeights (fun s => volume s.1) (recording volume handle) summary
        (state, kept) heights = (ran.1, ran.2, kept ++ calls) ∧
      b.HandsOn calls (volume ran.2) := by
  dsimp only
  induction heights generalizing b summary state kept with
  | nil =>
    refine ⟨[], by rw [List.append_nil]; rfl, Blocks.HandsOn.finished ?_⟩
    intro visit
    rw [Blocks.next?_nil h]
    simp
  | cons height rest ih =>
    unfold runHeights
    dsimp only
    cases hload : b.walk.load (volume state) height with
    | mk result w =>
      cases result with
      | error e =>
        obtain ⟨after, hasked, _⟩ := Blocks.next?_error h hload
        refine ⟨[], by rw [List.append_nil], Blocks.HandsOn.finished ?_⟩
        intro visit
        rw [hasked]
        simp
      | ok visit =>
        obtain ⟨after, hasked, rfl, hrest⟩ := Blocks.next?_ok h hload
        dsimp only [recording]
        cases hhandled : handle visit state with
        | mk answer state' =>
          cases answer with
          | error e =>
            exact ⟨_, rfl, Blocks.HandsOn.ended hasked (by simp)⟩
          | ok flow =>
            cases flow with
            | stop => exact ⟨_, rfl, Blocks.HandsOn.ended hasked (by simp)⟩
            | next =>
              obtain ⟨calls, hran, hcalls⟩ := ih hrest (summary.count height) state'
                (kept ++ [⟨volume state, visit, .ok .next⟩])
              rw [List.append_assoc] at hran
              exact ⟨_, hran, Blocks.HandsOn.next hasked rfl hcalls⟩

/-- **A run hands on** the blocks of a lazy walk. -/
theorem Walk.run_handsOn (w : Walk) {σ : Type} (volume : σ → Volume)
    (handle : Visit → σ → Except Error Flow × σ) (state : σ) :
    ∃ calls, w.run (fun s => volume s.1) (recording volume handle) (state, [])
        = ((w.run volume handle state).1, (w.run volume handle state).2, calls) ∧
      w.blocks.HandsOn calls (volume (w.run volume handle state).2) := by
  have hran := Walk.runHeights_handsOn volume handle (Blocks.heights_blocks w) w.summary state []
  rw [Blocks.walk_blocks] at hran
  exact hran

/-! ## What a run prepares -/

/-- What a run prepares, after whatever runs, is a walk over what its assembler knows. -/
theorem Stage.prepared_follows {before : List Stage} {stage : Stage} {w : Walk}
    (h : stage.prepared (databaseAfter before) = .ok w) :
    ∃ s c, s.Fits ∧ s.Vouched before stage.config.network.magic ∧
      s.Traced before stage.config.network.magic ∧ Follows stage.config stage.directory s c ∧
      walkOver stage.config c.reader
        { c.assembler with reorgs := [], persistedLen := c.assembler.best.length }
        (!c.used.isEmpty) c.fed.length c.assembler.reorgs.length = .ok w := by
  obtain ⟨s, hfits, ⟨hvouched, htraced⟩, hplan⟩ := stage.prepared_spec (databaseAfter_traced before)
    ⟨Snapshot.Vouched.empty before _, Snapshot.Traced.empty before _⟩
    fun s hs => hs.1.lasting.follows stage.config stage.directory
  obtain ⟨c, hfollows⟩ := hvouched.lasting.follows stage.config stage.directory
  rw [hplan, hfollows.walk] at h
  exact ⟨s, c, hfits, hvouched, htraced, hfollows, h⟩

/-- **What a run walks**, after whatever runs, are records that lie in its directory. -/
theorem Stage.prepared_reads {before : List Stage} {stage : Stage} {w : Walk}
    (htrusts : ∀ old ∈ before, old.directory.Trusts stage.directory)
    (hdiscerns : ∀ old ∈ before,
      Directory.Discerns stage.config.network.magic old.directory stage.directory)
    (hprepared : stage.prepared (databaseAfter before) = .ok w) :
    w.Reads stage.directory stage.config.network.magic w.heights := by
  obtain ⟨s, c, hfits, hvouched, htraced, h, hwalk⟩ := Stage.prepared_follows hprepared
  -- taking the events from the assembler leaves its chain and records as they are
  have hlinking : Assembler.Linking
      { c.assembler with reorgs := [], persistedLen := c.assembler.best.length } [] :=
    (Snapshot.linking_swept c.used c.fed).congr rfl rfl
  have hrests : Assembler.Rests
      { c.assembler with reorgs := [], persistedLen := c.assembler.best.length } :=
    h.rests.congr rfl rfl rfl
  obtain ⟨_, _, hw⟩ := walkOver_parts hwalk
  refine ⟨by rw [hw]; exact h.opened, ?_⟩
  intro height hheight
  obtain ⟨r, hr, hknown⟩ := walkOver_knows hlinking hrests
    (fun r hr => (h.fits_record hfits hr).2) hwalk hheight
  exact ⟨r, hknown, h.lies_held hvouched htraced htrusts hdiscerns hr⟩

/-! ## Exact walks -/

/-- A walk is over just the blocks of a range of its chain. -/
structure Walk.IsExact (w : Walk) (d : Directory) (range : Range) : Prop where
  /-- The range is on the chain, and not empty. -/
  within : range.first ≤ range.last ∧ range.last < w.chain.length
  count : range.heights.length = range.last - range.first + 1
  /-- While the files are as they were, every block is answered in turn, then nothing. -/
  shown : ∀ vs, (∀ v ∈ vs, v.Shows d) → ∃ visits,
    w.blocks.answers vs = Blocks.yield visits none (vs.length - range.heights.length) ∧
      visits.map Visit.height = range.heights.take vs.length ∧
      ∀ visit ∈ visits, visit.IsOn w.chain
  /-- Whatever becomes of them, the first blocks are answered, then at most one error, then nothing;
  and without an error none is left out. -/
  changed : ∀ vs, ∃ visits fault? count, w.blocks.answers vs = Blocks.yield visits fault? count ∧
    visits.map Visit.height <+: range.heights ∧
    (fault? = none → count ≠ 0 → visits.map Visit.height = range.heights) ∧
    ∀ visit ∈ visits, visit.IsOn w.chain ∧ (w.config.loadPayload = true → visit.Genuine)
  /-- A handler gets these blocks, up to the first that it does not let the run go on after. -/
  handed : ∀ {σ : Type} (volume : σ → Volume) (handle : Visit → σ → Except Error Flow × σ)
    (state : σ), ∃ calls, w.run (fun s => volume s.1) (recording volume handle) (state, [])
        = ((w.run volume handle state).1, (w.run volume handle state).2, calls) ∧
      w.blocks.HandsOn calls (volume (w.run volume handle state).2) ∧
      w.blocks.answers (calls.map Handling.volume) = Blocks.yield (calls.map Handling.visit) none 0

/-- **Exact walks.**  Whatever runs came before, a run that finds a range walks just the blocks of
its chain in that range, if files that keep their length and time keep their bytes and no two
different headers share a hash. -/
theorem blocks_exact (before : List Stage) (stage : Stage) (w : Walk) (range : Range)
    (htrusts : ∀ old ∈ before, old.directory.Trusts stage.directory)
    (hdiscerns : ∀ old ∈ before,
      Directory.Discerns stage.config.network.magic old.directory stage.directory)
    (hprepared : stage.prepared (databaseAfter before) = .ok w) (hrange : w.range = some range) :
    w.config = stage.config ∧ w.IsExact stage.directory range := by
  obtain ⟨s, c, _, _, _, _, hwalk⟩ := Stage.prepared_follows hprepared
  obtain ⟨_, hresolve, hw⟩ := walkOver_parts hwalk
  rw [hrange] at hresolve
  have hwithin := Range.resolve_within hresolve
  have hwanted : w.heights = range.heights := by rw [Walk.heights, hrange]
  have hheights : w.blocks.heights = range.heights := by rw [Blocks.heights_blocks, hwanted]
  have hreads := Stage.prepared_reads htrusts hdiscerns hprepared
  rw [hwanted, ← Blocks.walk_blocks w] at hreads
  have hknown : ∀ height ∈ range.heights, ∃ r, w.blocks.walk.Knows height r := by
    intro height hheight
    obtain ⟨r, hr, _⟩ := hreads.knows height hheight
    exact ⟨r, hr⟩
  refine ⟨by rw [hw], ?_⟩
  constructor
  case within => exact hwithin
  case count =>
    rw [Range.heights, List.length_range']
    omega
  case shown =>
    intro vs hvs
    have hwhole := Blocks.answers_whole hheights hknown (Blocks.answers_shown hheights hreads hvs)
    rw [Blocks.walk_blocks] at hwhole
    exact hwhole
  case changed =>
    intro vs
    have hany := Blocks.answers_spec hheights hknown vs
    rw [Blocks.walk_blocks] at hany
    exact hany
  case handed =>
    intro σ volume handle state
    obtain ⟨calls, hran, hcalls⟩ := w.run_handsOn volume handle state
    exact ⟨calls, hran, hcalls, hcalls.answers⟩

/-! ### A walk over records of the cache and of the scan -/

/-- A history of one run, before the directory grew, and a run after it. -/
def smallHistory : List Stage := [⟨cachedConfig, youngDirectory⟩]

def largeStage : Stage := ⟨cachedConfig, grownDirectory⟩

/-- After both files have grown, the first block is kept from the cache. -/
theorem blocks_exact_grown :
    (∀ old ∈ smallHistory, old.directory.Trusts largeStage.directory) ∧
      (∀ old ∈ smallHistory, Directory.Discerns largeStage.config.network.magic old.directory
        largeStage.directory) ∧
      ∃ w, largeStage.prepared (databaseAfter smallHistory) = .ok w ∧ w.range = some ⟨0, 2⟩ ∧
        w.cacheReused = true ∧ w.config = largeStage.config ∧
        w.IsExact largeStage.directory ⟨0, 2⟩ := by
  have htrusts : ∀ old ∈ smallHistory, old.directory.Trusts largeStage.directory := by
    decide +kernel
  have hdiscerns : ∀ old ∈ smallHistory, Directory.Discerns largeStage.config.network.magic
      old.directory largeStage.directory := by
    decide +kernel
  have hfacts : (largeStage.prepared (databaseAfter smallHistory)).toOption.map
      (fun w => (w.range, w.cacheReused)) = some (some ⟨0, 2⟩, true) := by
    decide +kernel
  obtain ⟨w, hw, hboth⟩ := Option.map_eq_some_iff.1 hfacts
  obtain ⟨hrange, hreused⟩ := Prod.mk.inj hboth
  have hprepared := eq_ok_of_toOption hw
  exact ⟨htrusts, hdiscerns, w, hprepared, hrange, hreused,
    blocks_exact smallHistory largeStage w ⟨0, 2⟩ htrusts hdiscerns hprepared hrange⟩

end BlockIndex
