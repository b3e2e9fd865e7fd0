import BlockIndex.Proofs.Run.Growth
import BlockIndex.Proofs.Run.Persistence
import BlockIndex.Proofs.Run.Tips

/-!
# Heights that can be reached

A scan may stop before the end of its directory, or not begin at all, once the tip is far enough past
the last height.  It never misses a height that can be reached.

* `Progress.reached_iff`             the tip has come to a target;
* `scanFrom_early`                   a scan that stops early has reached its target;
* `Follows.reaches_iff`              the tip comes to a last height just if the directory has a chain
                                     that does;
* `walkOver_unreachable_iff`         a walk fails at its last height just if the tip is below it;
* `Appended`                         directories each of which grows to the next.

Main statement: `unreachable_iff`.
-/

namespace BlockIndex

/-! ## Scans that stop early -/

namespace Progress

theorem reached_iff {p : Progress} {target : Nat} :
    p.reached (some target) = true ↔ ∃ tip, p.assembler.tipHeight? = some tip ∧ target ≤ tip := by
  unfold reached
  cases p.assembler.tipHeight? with
  | none => simp
  | some tip => simp

variable {target : Option Nat}

/-- The records of a file are all added, or the target is reached with the last that is. -/
theorem scanItems_early (target : Option Nat) (p : Progress) (scannedTo : Nat)
    (items : List (Except Error Record × Nat)) :
    p.scanItems target scannedTo items = p.scanItems none scannedTo items ∨
      ∃ place q, p.scanItems target scannedTo items = (.ok (place, true), q) ∧
        q.reached target = true := by
  induction items generalizing p scannedTo with
  | nil => exact Or.inl rfl
  | cons item rest ih =>
    obtain ⟨result, place⟩ := item
    cases result with
    | ok record =>
      have hstep : ∀ other, p.scanItems other scannedTo ((.ok record, place) :: rest)
          = if (p.add record).reached other then (.ok (place, true), p.add record)
            else (p.add record).scanItems other place rest := fun _ => rfl
      have hnever : ¬ (p.add record).reached none = true := Bool.false_ne_true
      rw [hstep, hstep, if_neg hnever]
      by_cases hreached : (p.add record).reached target = true
      · rw [if_pos hreached]
        exact Or.inr ⟨place, p.add record, rfl, hreached⟩
      · rw [if_neg hreached]
        exact ih _ _
    | error e =>
      cases e with
      | corruptRecord fileId offset fault => exact ih p place
      | _ => exact Or.inl rfl

/-- The files are all scanned, or the target is reached in one of them. -/
theorem scanFiles_early (p : Progress) (v : Volume) (magic : UInt32) (cursor : Cursor)
    (outcome : Outcome) (files : List BlockFile) :
    p.scanFiles v magic target cursor outcome files
        = p.scanFiles v magic none cursor outcome files ∨
      (p.scanFiles v magic target cursor outcome files).2.reached target = true := by
  induction files generalizing p outcome with
  | nil => exact Or.inl rfl
  | cons file rest ih =>
    rw [scanFiles, scanFiles]
    cases cursor.resumeOffset file.id with
    | none => exact ih p outcome
    | some offset =>
      dsimp only
      cases Scanner.openFile v file magic offset with
      | error e => exact Or.inl rfl
      | ok scanner =>
        dsimp only
        rcases scanItems_early target p scanner.scannedTo scanner.scanAll
          with hsame | ⟨place, q, hreached, htarget⟩
        · rw [hsame]
          cases p.scanItems none scanner.scannedTo scanner.scanAll with
          | mk result q =>
            cases result with
            | error e => exact Or.inl rfl
            | ok found =>
              dsimp only
              split
              · exact Or.inl rfl
              · exact ih q _
        · right
          rw [hreached]
          exact htarget

end Progress

/-- **A scan that stops early** has reached its target. -/
theorem scanFrom_early (config : Config) (v : Volume) (files : BlockFiles) (a : Assembler)
    (cursor : Cursor) :
    scanFrom config v files a cursor
        = scanFrom { config with endHeight := none } v files a cursor ∨
      (scanFrom config v files a cursor).2.reached config.stopHeight = true := by
  have hnever : ¬ (Progress.start a).reached none = true := Bool.false_ne_true
  have hnone : ({ config with endHeight := none } : Config).stopHeight = none :=
    stopHeight_of_endHeight rfl
  unfold scanFrom
  rw [hnone]
  dsimp only
  rw [if_neg hnever]
  by_cases hreached : (Progress.start a).reached config.stopHeight = true
  · rw [if_pos hreached]
    exact Or.inr hreached
  · rw [if_neg hreached]
    exact Progress.scanFiles_early _ _ _ _ _ _

/-- The height at which a scan may stop, with a last height and no last block. -/
theorem Config.stopHeight_eq {config : Config} {last : Nat} (hend : config.endHeight = some last)
    (hhash : config.endHash = none) :
    config.stopHeight = some (min (last + config.reorgMargin) maxHeight) := by
  unfold stopHeight scanTarget
  rw [hend, hhash]
  rfl

theorem Config.endHash_of_validate {config : Config} {last : Nat} (h : config.validate = .ok ())
    (hend : config.endHeight = some last) : config.endHash = none := by
  unfold validate at h
  rw [hend] at h
  dsimp only at h
  split at h
  · cases h
  · split at h
    · cases h
    · split at h
      · cases h
      · next hnone => exact Option.not_isSome_iff_eq_none.1 hnone

/-- The tip of a run whose scan is skipped or cut short. -/
theorem DatabaseStore.tip_of_early {store : DatabaseStore} {config : Config} {d : Directory}
    {last : Nat} (h : ¬ store.ScansAll config d) (hend : config.endHeight = some last)
    (hhash : config.endHash = none) :
    ∃ tip, (store.assembled config d).tipHeight? = some tip ∧
      min (last + config.reorgMargin) maxHeight ≤ tip := by
  obtain ⟨resumed, hcut⟩ := Classical.not_forall.1 h
  obtain ⟨hresumed, hother⟩ := Classical.not_imp.1 hcut
  have hreached := (scanFrom_early config d.volume d.files resumed.assembler
    resumed.snapshot.cursor).resolve_left hother
  rw [Config.stopHeight_eq hend hhash, Progress.reached_iff] at hreached
  unfold assembled
  rw [hresumed]
  exact hreached

/-! ## What can be reached -/

section Reaching

variable {config : Config} {d : Directory} {s : Snapshot} {c : Course} {last : Nat}

/-- **Reaching a height.**  The tip of a run comes to its last height just if the records of the
directory have a chain that does. -/
theorem Follows.reaches_iff (h : Follows config d s c)
    (haccounted : Accounted d config.network.magic s) (htip : IsTip s.entries s.tip)
    (hconsistent : Consistent (d.records config.network.magic))
    (hend : config.endHeight = some last) (hhash : config.endHash = none)
    (hlimit : last ≤ maxHeight) :
    (∃ tip, c.assembler.tipHeight? = some tip ∧ last ≤ tip) ↔
      ∃ x chain, Rooted (d.records config.network.magic) x chain ∧ last < chain.length := by
  have hexact := haccounted.exact h.usable
  have hused : IsTip c.used.entries c.used.tip := h.usable.isTip haccounted.forest htip
  constructor
  · intro hreached
    obtain ⟨tip, hheight, hle⟩ := hreached
    obtain ⟨x, chain, hchain, hlength⟩ := h.exists_rooted hused hheight
    exact ⟨x, chain, hchain.mono fun r hr => h.mem_records hexact hr, by omega⟩
  · intro hrooted
    obtain ⟨x, chain, hchain, hlength⟩ := hrooted
    rcases h.sweep.ends with hreached | ⟨hleft, _⟩
    · -- the scan stopped at its target, which is not below the last height
      rw [Config.stopHeight_eq hend hhash, Progress.reached_iff] at hreached
      obtain ⟨tip, hheight, hle⟩ := hreached
      refine ⟨tip, ?_, by omega⟩
      rw [← hheight, Progress.feed_start]
      exact congrArg Assembler.tipHeight? (Assembler.absorbAll_snd _ _).symm
    · -- the scan left nothing, so the assembler holds a copy of every block
      have hback : ∀ r ∈ d.records config.network.magic,
          ∃ r' ∈ c.assembler.records, r'.hash = r.hash ∧ r'.header = r.header := by
        intro r hr
        have hknown : (c.stored d).Knows r.hash := by
          rcases haccounted.covered_used h.usable hr with hold | ⟨r', hr', hsame, hle⟩
          · exact h.knows_iff.2 (Or.inl hold)
          · rw [← hsame]
            rcases (h.fed_or_left hexact.aligned).1 ⟨hr', hle⟩ with hfed | hout
            · exact h.knows_iff.2 (Or.inr (List.mem_map_of_mem hfed))
            · rw [hleft] at hout
              exact absurd hout List.not_mem_nil
        obtain ⟨r', hr', hsame⟩ := List.mem_map.1 (h.known_iff.1 hknown)
        exact ⟨r', hr', hsame, hconsistent r' (h.mem_records hexact hr') r hr hsame⟩
      obtain ⟨tip, hheight, hle⟩ := h.tipHeight?_of_rooted hused (hchain.transfer hback)
      exact ⟨tip, hheight, by omega⟩

end Reaching

theorem Range.firstHeight_error {config : Config} {a : Assembler} {chain : BestChain} {e : Error}
    (h : firstHeight config a chain = .error e) : ∃ hash, e = .unknownBlock hash := by
  unfold firstHeight heightOn at h
  split at h
  · split at h
    · split at h
      · cases h
      · exact ⟨_, (Except.error.inj h).symm⟩
    · exact ⟨_, (Except.error.inj h).symm⟩
  · cases h

theorem Range.resolve_unreachable_iff {config : Config} {last : Nat}
    (hend : config.endHeight = some last) (a : Assembler) (chain : BestChain) :
    (∃ tip, resolve config a chain = .error (.heightUnreachable last tip)) ↔
      ¬ ∃ tip, chain.tipHeight? = some tip ∧ last ≤ tip := by
  cases htip : chain.tipHeight? with
  | none =>
    refine iff_of_true ⟨none, ?_⟩ ?_
    · unfold resolve lastHeight
      rw [hend, htip]
      rfl
    · intro hreached
      obtain ⟨tip, hheight, _⟩ := hreached
      cases hheight
  | some tip =>
    by_cases hlow : tip < last
    · refine iff_of_true ⟨some tip, ?_⟩ ?_
      · unfold resolve lastHeight
        rw [hend, htip]
        dsimp only
        rw [if_pos hlow]
        rfl
      · intro hreached
        obtain ⟨_, hheight, hle⟩ := hreached
        obtain rfl := Option.some.inj hheight
        omega
    · have hlast : lastHeight config chain = .ok (some last) := by
        unfold lastHeight
        rw [hend, htip]
        dsimp only
        rw [if_neg hlow]
      refine iff_of_false ?_ (not_not_intro ⟨tip, rfl, Nat.le_of_not_lt hlow⟩)
      intro hfails
      obtain ⟨shown, hfails⟩ := hfails
      cases hfirst : firstHeight config a chain with
      | error e =>
        obtain ⟨hash, rfl⟩ := firstHeight_error hfirst
        unfold resolve at hfails
        rw [hlast, hfirst] at hfails
        cases hfails
      | ok first =>
        rw [resolve_some hlast hfirst] at hfails
        split at hfails
        · cases hfails
        · next hlate =>
          -- the height that is refused is the first one, which is greater
          obtain ⟨rfl, _⟩ := Error.heightUnreachable.inj (Except.error.inj hfails)
          exact hlate (Nat.le_refl _)

/-- A walk fails at its last height just if the tip is below it. -/
theorem walkOver_unreachable_iff {config : Config} {last : Nat}
    (hend : config.endHeight = some last) (hhash : config.endHash = none) (r : Reader)
    (a : Assembler) (reused : Bool) (records reorgs : Nat) :
    (∃ tip, walkOver config r a reused records reorgs = .error (.heightUnreachable last tip)) ↔
      ¬ ∃ tip, a.tipHeight? = some tip ∧ last ≤ tip := by
  have hchain : chainFor config a = .ok a.best := by
    unfold chainFor
    rw [hhash]
  have htip : a.tipHeight? = a.best.tipHeight? := rfl
  rw [htip, ← Range.resolve_unreachable_iff hend a a.best]
  unfold walkOver
  rw [hchain]
  cases hrange : Range.resolve config a a.best with
  | error e => simp [bind, Except.bind, hrange]
  | ok range => simp [bind, Except.bind, hrange, pure, Except.pure]

/-! ## Histories -/

/-- Each directory of a history grows to the next, and the last to `d`. -/
def Appended : List Stage → Directory → Prop
  | [], _ => True
  | old :: before, d => old.directory.GrowsTo d ∧ Appended before old.directory

/-- What is known of a snapshot that runs left. -/
structure Snapshot.Grown (before : List Stage) (magic : UInt32) (s : Snapshot) : Prop where
  lasting : s.Lasting
  tip : IsTip s.entries s.tip
  accounted : ∀ d, Appended before d → Accounted d magic s

theorem Snapshot.Grown.empty (before : List Stage) (magic : UInt32) :
    Snapshot.empty.Grown before magic where
  lasting := Snapshot.Lasting.empty
  tip := fun x hx => by cases hx
  accounted := fun d _ => Accounted.empty d magic

theorem databaseAfter_grown (history : List Stage) :
    (databaseAfter history).Left (Snapshot.Grown history) := by
  refine databaseAfter_left Snapshot.Grown.empty ?_ ?_ history
  · intro before stage magic s hgrown
    exact {
      lasting := hgrown.lasting
      tip := hgrown.tip
      accounted := fun d happended => (hgrown.accounted stage.directory happended.2).grow
        happended.1 }
  · intro before stage s hfits hgrown
    obtain ⟨c, hfollows⟩ := hgrown.lasting.follows stage.config stage.directory
    refine ⟨c, hfollows, ?_⟩
    exact {
      lasting := hfollows.lasting hfits hgrown.lasting
      tip := hfollows.isTip_stored (hfollows.usable.isTip hgrown.lasting.sound.forest hgrown.tip)
      accounted := by
        intro d happended
        obtain ⟨hgrows, hbefore⟩ := happended
        have haccounted := hgrown.accounted stage.directory hbefore
        have hready := (haccounted.exact hfollows.usable).ready
        exact (haccounted.stored ⟨hfollows, hready⟩).grow hgrows }

/-- **Early stopping hides nothing.**  After runs between which block files only grew and new ones
came, a run with a cache or without fails at its last height just if no chain of the records that a
scan of every file from its beginning yields comes to that height; and if its scan is skipped or cut
short, the tip has come to the height at which a scan may stop. -/
theorem unreachable_iff (before : List Stage) (stage : Stage) (last : Nat)
    (happended : Appended before stage.directory) (hvalid : stage.config.validate = .ok ())
    (hend : stage.config.endHeight = some last) (hlimit : last ≤ maxHeight)
    (hconsistent : Consistent (stage.directory.records stage.config.network.magic)) :
    let store := stage.store (databaseAfter before)
    ((∃ tip, stage.prepared (databaseAfter before) = .error (.heightUnreachable last tip)) ↔
      ¬ ∃ x chain, Rooted (stage.directory.records stage.config.network.magic) x chain ∧
        last < chain.length) ∧
    (¬ store.ScansAll stage.config stage.directory →
      ∃ tip, (store.assembled stage.config stage.directory).tipHeight? = some tip ∧
        min (last + stage.config.reorgMargin) maxHeight ≤ tip) := by
  intro store
  have hhash := Config.endHash_of_validate hvalid hend
  refine ⟨?_, fun hearly => DatabaseStore.tip_of_early hearly hend hhash⟩
  obtain ⟨hopens, hgrown⟩ :=
    (databaseAfter_grown before).opens stage (Snapshot.Grown.empty before _)
  obtain ⟨c, hfollows⟩ := hgrown.lasting.follows stage.config stage.directory
  rw [Stage.prepared_eq hopens hfollows, hfollows.walk, walkOver_unreachable_iff hend hhash]
  exact not_congr (hfollows.reaches_iff (hgrown.accounted _ happended) hgrown.tip hconsistent hend
    hhash hlimit)

/-! ### A run that finds more after one that stopped at the first block -/

/-- A history of one run, which stopped at the first block before the directory grew. -/
def youngHistory : List Stage := [⟨untilHeight (some 0), youngDirectory⟩]

/-- A run up to a height that is out of reach. -/
def grownStage : Stage := ⟨untilHeight (some 3), grownDirectory⟩

theorem unreachable_iff_grown :
    Appended youngHistory grownStage.directory ∧ grownStage.config.validate = .ok () ∧
      grownStage.config.endHeight = some 3 ∧ 3 ≤ maxHeight ∧
      Consistent (grownStage.directory.records grownStage.config.network.magic) ∧
      ((∃ tip, grownStage.prepared (databaseAfter youngHistory)
          = .error (.heightUnreachable 3 tip)) ↔
        ¬ ∃ x chain, Rooted (grownStage.directory.records grownStage.config.network.magic) x chain ∧
          3 < chain.length) ∧
      (¬ (grownStage.store (databaseAfter youngHistory)).ScansAll grownStage.config
          grownStage.directory →
        ∃ tip, ((grownStage.store (databaseAfter youngHistory)).assembled
            grownStage.config grownStage.directory).tipHeight? = some tip ∧
          min (3 + grownStage.config.reorgMargin) maxHeight ≤ tip) := by
  have hgrows : youngDirectory.GrowsTo grownStage.directory := by decide +kernel
  have happended : Appended youngHistory grownStage.directory := ⟨hgrows, trivial⟩
  have hvalid : grownStage.config.validate = .ok () := by
    have hblank : ¬ grownStage.config.blockdir.isBlank = true := by decide +kernel
    unfold Config.validate
    rw [if_neg hblank]
    rfl
  have hconsistent : Consistent
      (grownStage.directory.records grownStage.config.network.magic) := by decide +kernel
  have hlimit : 3 ≤ maxHeight := by
    unfold maxHeight
    omega
  have hend : grownStage.config.endHeight = some 3 := rfl
  exact ⟨happended, hvalid, hend, hlimit, hconsistent,
    unreachable_iff youngHistory grownStage 3 happended hvalid hend hlimit hconsistent⟩

end BlockIndex
