import BlockIndex.Proofs.Run.Agreement
import BlockIndex.Proofs.Run.Current
import BlockIndex.Proofs.Run.Growth
import BlockIndex.Proofs.Run.Persistence

/-!
# Running again

A run with a cache that is made again at once reads nothing, finds the same chain and range, and
leaves the cache as it is, whether the run before it read the whole directory, stopped at its last
height or read nothing.  A run without a cache keeps nothing, and reads everything again.

* `Stage.Vouches`      a past run found a record where it says, in a file of a length and time;
* `Snapshot.Vouched`   each fingerprint of a snapshot vouches for what is kept of its file;
* `Follows.current`    what a run stores needs no check against the directory of the run;
* `Follows.restored`   a run that starts from it stores it again;
* `rerun_idempotent`   a run that is made again at once.

A run checks of a file that looks as it did no more than the first and the last entry, and none of
its orphans.  That the others stand there still is known from the run that made the fingerprint,
however many runs ago.
-/

namespace BlockIndex

/-- A record stood at its position when a run was made, in a file as long and as old as the
fingerprint says. -/
def Stage.Vouches (old : Stage) (magic : UInt32) (r : Record) (fp : Fingerprint) : Prop :=
  old.directory.Stands magic r ∧ ∃ file, old.directory.files.get? r.fileId = some file ∧
    file.len = fp.len ∧ file.modified = fp.modified

/-- What is known of a snapshot that past runs left. -/
structure Snapshot.Vouched (past : List Stage) (magic : UInt32) (s : Snapshot) : Prop where
  lasting : s.Lasting
  copies : ∀ r ∈ s.copies, ∀ fp, s.files.get? r.fileId = some fp →
    ∃ old ∈ past, old.Vouches magic r fp
  scanned : ∀ id fp, s.files.get? id = some fp → fp.scannedTo ≤ fp.len

theorem Snapshot.Vouched.empty (past : List Stage) (magic : UInt32) :
    Snapshot.empty.Vouched past magic where
  lasting := Snapshot.Lasting.empty
  copies := by simp [Snapshot.copies, Snapshot.empty]
  scanned := by simp [Snapshot.empty]

theorem Snapshot.Vouched.later {past : List Stage} {magic : UInt32} {s : Snapshot}
    (h : s.Vouched past magic) (stage : Stage) : s.Vouched (stage :: past) magic where
  lasting := h.lasting
  copies := by
    intro r hr fp hfp
    obtain ⟨old, hold, hvouches⟩ := h.copies r hr fp hfp
    exact ⟨old, List.mem_cons_of_mem stage hold, hvouches⟩
  scanned := h.scanned

variable {config : Config} {d : Directory} {s : Snapshot} {c : Course} {past : List Stage}

namespace Follows

/-! ## What is kept of files -/

/-- Nothing was read in a file that was not scanned. -/
theorem kept_of_unscanned (h : Follows config d s c) {r : Record}
    (hr : r ∈ (c.stored d).copies) (hn : c.outcome.scanned.get? r.fileId = none) :
    r ∈ s.copies ∧ ¬ s.Suspect d config.network.magic r := by
  refine (h.held_cases (h.mem_records_of_stored hr)).resolve_left fun hfed => ?_
  have hread := (h.sweep.read r hfed).1
  rw [hn] at hread
  simp at hread

/-- A run keeps what its fingerprints vouch for. -/
theorem vouched (h : Follows config d s c) (hfits : s.Fits)
    (hs : s.Vouched past config.network.magic) :
    (c.stored d).Vouched (⟨config, d⟩ :: past) config.network.magic where
  lasting := h.lasting hfits hs.lasting
  copies := by
    intro r hr fp hfp
    obtain ⟨file, hfile, hcases⟩ := h.fingerprint_cases hfp
    have hpast : ∀ old ∈ past, old.Vouches config.network.magic r fp →
        ∃ old ∈ Stage.mk config d :: past, old.Vouches config.network.magic r fp :=
      fun old hold hvouches => ⟨old, List.mem_cons_of_mem _ hold, hvouches⟩
    rcases hcases with ⟨n, hn, rfl⟩ | ⟨hn, hold⟩
    · -- the file was scanned: this run vouches for what stands there, a past one for the rest
      have hthis : d.Stands config.network.magic r → ∃ old ∈ Stage.mk config d :: past,
          old.Vouches config.network.magic r (file.fingerprint n) := fun hstands =>
        ⟨⟨config, d⟩, List.mem_cons_self, hstands, file, hfile, rfl, rfl⟩
      rcases h.held_cases (h.mem_records_of_stored hr) with hfed | ⟨hkept, hpassed⟩
      · exact hthis (h.lies_fed hfed).stands
      · rcases Snapshot.not_suspect_cases hpassed with hstands | hsame
        · exact hthis hstands
        · obtain ⟨file', fp, hfile', hfp, hmatches⟩ :=
            Snapshot.condition_eq_unchanged_iff.1 hsame
          obtain ⟨hlen, hmodified, _⟩ := Fingerprint.matchesFile_iff.1 hmatches
          rw [hfile] at hfile'
          obtain rfl := Option.some.inj hfile'
          obtain ⟨old, hin, hstands, other, hother, hlen', hmodified'⟩ := hs.copies r hkept fp hfp
          exact hpast old hin
            ⟨hstands, other, hother, hlen'.trans hlen, hmodified'.trans hmodified⟩
    · obtain ⟨old, hin, hvouches⟩ := hs.copies r (h.kept_of_unscanned hr hn).1 fp hold
      exact hpast old hin hvouches
  scanned := by
    intro id fp hfp
    obtain ⟨file, hfile, ⟨n, hn, rfl⟩ | ⟨_, hold⟩⟩ := h.fingerprint_cases hfp
    · exact Nat.le_trans (h.within.scanned id n hn) (Nat.le_of_eq (Directory.length_bytes hfile).1)
    · exact hs.scanned id fp hold

/-- What a run stores stands in its directory, if files that keep their length and time keep their
bytes. -/
theorem stands (h : Follows config d s c) (hs : s.Vouched past config.network.magic)
    (htrusts : ∀ old ∈ past, old.directory.Trusts d) {r : Record}
    (hr : r ∈ (c.stored d).copies) : d.Stands config.network.magic r := by
  rcases h.held_cases (h.mem_records_of_stored hr) with hfed | ⟨hkept, hpassed⟩
  · exact (h.lies_fed hfed).stands
  rcases Snapshot.not_suspect_cases hpassed with hstands | hsame
  · exact hstands
  · obtain ⟨file, fp, hfile, hfp, hmatches⟩ := Snapshot.condition_eq_unchanged_iff.1 hsame
    obtain ⟨hlen, hmodified, htimed⟩ := Fingerprint.matchesFile_iff.1 hmatches
    obtain ⟨old, hin, hstands, other, hother, hlen', hmodified'⟩ := hs.copies r hkept fp hfp
    exact hstands.of_bytes (htrusts old hin _ _ _ hother hfile (hlen'.trans hlen)
      (hmodified'.trans hmodified) (by rw [hmodified']; exact htimed))

/-! ## What needs no check -/

/-- Files of which something is stored are there, and not shorter than their fingerprints say. -/
theorem present (h : Follows config d s c) {r : Record} (hr : r ∈ (c.stored d).copies) :
    (c.stored d).condition d.files r.fileId ≠ .gone := by
  have hlisted : ∃ file, d.files.get? r.fileId = some file := by
    rcases h.held_cases (h.mem_records_of_stored hr) with hfed | ⟨_, hpassed⟩
    · exact (h.lies_fed hfed).1
    · exact Snapshot.exists_file_of_not_suspect hpassed
  obtain ⟨file, hfile⟩ := hlisted
  refine Snapshot.condition_ne_gone_iff.2 ⟨file, hfile, ?_⟩
  intro fp hfp
  obtain ⟨file', hfile', hcases⟩ := h.fingerprint_cases hfp
  rw [hfile] at hfile'
  obtain rfl := Option.some.inj hfile'
  rcases hcases with ⟨n, _, rfl⟩ | ⟨hn, hold⟩
  · exact Nat.le_refl _
  · obtain ⟨file', hfile', hlong⟩ := Snapshot.condition_ne_gone_iff.1 fun hgone =>
      (h.kept_of_unscanned hr hn).2 (Or.inl hgone)
    rw [hfile] at hfile'
    obtain rfl := Option.some.inj hfile'
    exact hlong fp hold

/-- What waits after a run waited before it or was read. -/
theorem waiting_cases (h : Follows config d s c) {o : Record} (ho : o ∈ c.assembler.unresolved) :
    o ∈ c.used.orphans ∨ o ∈ c.fed := by
  have hlinking := Snapshot.linking_swept c.used c.fed
  obtain ⟨hmem, hwaits⟩ := (Assembler.mem_unresolved_iff hlinking).1 ho
  rcases h.sound.mem_swept hmem with hused | hfed
  · rcases Snapshot.mem_copies.1 hused with ⟨e, he, rfl⟩ | horphan
    · -- entries are linked
      have hlinked := (h.listed.heightOf?_iff hlinking.distinct).2
        ⟨e, List.mem_append_left _ he, rfl, rfl⟩
      rw [show c.assembler.heightOf? e.hash = none from hwaits] at hlinked
      simp at hlinked
    · exact Or.inl horphan
  · exact Or.inr hfed

/-- A scan stops where it is taken up or after it. -/
theorem forth (h : Follows config d s c) (hs : s.Vouched past config.network.magic) :
    c.used.cursor ≤ c.outcome.stop := by
  rcases h.sweep.stop with ⟨heq, _⟩ | ⟨file, hfile, hid, _, hmin⟩
  · rw [heq]
    exact Cursor.le_refl _
  · obtain ⟨hlisted, hle⟩ := listed_fromId d _ file hfile
    have hlen := (Directory.length_bytes hlisted).1
    rw [Cursor.le_iff, hid]
    by_cases heq : file.id = c.used.cursor.fileId
    · rw [if_pos heq] at hmin
      have hinside := h.usable.inside hs.scanned file (by rw [← heq]; exact hlisted)
      omega
    · omega

/-- The files that a scan did not come to lie after the place where it stopped. -/
theorem stop_le_of_unscanned (h : Follows config d s c) {file : BlockFile} {offset : Nat}
    (hfile : d.files.get? file.id = some file) (hn : c.outcome.scanned.get? file.id = none)
    (hle : c.used.cursor ≤ ⟨file.id, offset⟩) : c.outcome.stop ≤ ⟨file.id, offset⟩ := by
  rcases h.sweep.stop with ⟨heq, _⟩ | ⟨g, _, hid, hscanned, _⟩
  · rw [heq]
    exact hle
  · have hother : file.id ≠ c.outcome.stop.fileId := by
      intro heq
      rw [heq, hid, hscanned] at hn
      simp at hn
    have hin : file ∈ d.files.fromId c.used.cursor.fileId := by
      rw [Cursor.le_iff] at hle
      refine Directory.mem_fromId.2 ⟨Directory.mem_values hfile, ?_⟩
      have hle : c.used.cursor.fileId < file.id ∨ c.used.cursor.fileId = file.id ∧ _ := hle
      omega
    have hnot : ¬ file.id < c.outcome.stop.fileId := by
      intro hlt
      have hpassed := h.sweep.passed file hin hlt
      rw [hn] at hpassed
      simp at hpassed
    rw [Cursor.le_iff]
    left
    show c.outcome.stop.fileId < file.id
    omega

/-- **What a run stores** needs no check against its directory. -/
theorem current (h : Follows config d s c) (hs : s.Vouched past config.network.magic)
    (htrusts : ∀ old ∈ past, old.directory.Trusts d)
    (htimed : ∀ file ∈ d.files.values, file.modified.isSome = true) :
    (c.stored d).Current d config.network.magic where
  stands := fun _ hr => ⟨h.present hr, h.stands hs htrusts hr⟩
  below := by
    intro o ho
    rcases h.waiting_cases ho with horphan | hfed
    · exact Cursor.lt_of_lt_of_le (h.usable.below o horphan) (h.forth hs)
    · exact (h.sweep.read o hfed).2
  rescan := by
    intro file hfile offset hoffset
    have hlisted := Directory.get?_of_mem hfile
    have hfp := h.get?_stored hlisted
    cases hn : c.outcome.scanned.get? file.id with
    | some n =>
      rw [hn] at hfp
      have hnone := Snapshot.rescanFrom?_eq_none_iff.2
        ⟨_, hfp, Fingerprint.matchesFile_iff.2 ⟨rfl, rfl, htimed file hfile⟩⟩
      rw [hnone] at hoffset
      simp at hoffset
    | none =>
      rw [hn] at hfp
      have hsame : s.rescanFrom? file = some offset := by
        rw [← hoffset]
        unfold Snapshot.rescanFrom?
        rw [hfp]
      exact h.stop_le_of_unscanned hlisted hn
        (h.usable.rescan file.id file offset hlisted hsame)
  inside := by
    intro file hfile
    rcases h.within.stop with heq | ⟨_, hle⟩
    · have hfile' : d.files.get? c.outcome.stop.fileId = some file := hfile
      show c.outcome.stop.offset ≤ file.len
      rw [heq] at hfile' ⊢
      exact h.usable.inside hs.scanned file hfile'
    · exact Nat.le_trans hle (Nat.le_of_eq (Directory.length_bytes hfile).1)

/-! ## Starting from what was stored -/

/-- The assembler that starts from what was stored knows what the first one knew. -/
theorem replayed_stored (h : Follows config d s c) (hsound : (c.stored d).Sound) :
    (c.stored d).replayed.heightOf? = c.assembler.heightOf? ∧
      (c.stored d).replayed.best = c.assembler.best ∧ (c.stored d).replayed.reorgs = [] ∧
      (c.stored d).replayed.Listed c.entries :=
  h.rests.restarted (Snapshot.linking_swept c.used c.fed) h.listed_entries hsound.genuine

theorem mem_replayed_stored (h : Follows config d s c) (hsound : (c.stored d).Sound) (r : Record) :
    r ∈ c.assembler.records ↔ r ∈ (c.stored d).replayed.records := by
  have hlinking := Snapshot.linking_swept c.used c.fed
  have hrecords : (c.stored d).replayed.records
      = c.entries.map Entry.toRecord ++ c.assembler.unresolved :=
    Assembler.records_restarted hlinking h.listed_entries hsound.genuine _
  rw [hrecords]
  exact h.listed_entries.mem_records_iff hlinking

theorem unresolved_stored (h : Follows config d s c) (hsound : (c.stored d).Sound)
    (hcurrent : (c.stored d).Current d config.network.magic) :
    c.assembler.unresolved = (c.stored d).replayed.unresolved := by
  have hlinking := Snapshot.linking_swept c.used c.fed
  refine Assembler.unresolved_of_same hlinking (Snapshot.linking_swept (c.stored d) [])
    (h.mem_replayed_stored hsound) fun r hr q hq hpos => ?_
  -- one record at most stands at a position
  have hstands : ∀ o ∈ c.assembler.unresolved, d.Stands config.network.magic o := fun o ho =>
    (hcurrent.stands o (Snapshot.mem_copies.2 (Or.inr ho))).2
  exact hlinking.distinct.record_eq ((Assembler.mem_unresolved_iff hlinking).1 hr).1
    ((Assembler.mem_unresolved_iff hlinking).1 hq).1
    ((hstands r hr).hash_eq (hstands q hq) hpos)

/-- The scan that starts from what was stored reads nothing. -/
theorem unread (h : Follows config d s c) (hsound : (c.stored d).Sound)
    (hforth : c.used.cursor ≤ c.outcome.stop) {again : Course}
    (h' : Follows config d (c.stored d) again) (hused : again.used = c.stored d) :
    again.fed = [] ∧ again.outcome.stop = c.outcome.stop ∧
      ∀ id n, again.outcome.scanned.get? id = some n → c.outcome.scanned.get? id = some n := by
  have hreached : (Progress.start (c.stored d).replayed).reached config.stopHeight
      = ((Progress.start c.used.replayed).feed c.fed).reached config.stopHeight := by
    rw [Progress.feed_start, Assembler.absorbAll_snd]
    unfold Progress.reached Assembler.tipHeight?
    rw [show (Progress.start (c.stored d).replayed).assembler.best = c.assembler.best from
      (h.replayed_stored hsound).2.1]
    rfl
  obtain ⟨scanned, hscan, hsub⟩ := scanFrom_again h.sweep hforth hreached
  have hscan' := h'.scan
  rw [hused, show (c.stored d).cursor = c.outcome.stop from rfl, hscan] at hscan'
  obtain ⟨houtcome, hprogress⟩ := Prod.mk.inj hscan'
  have hlength := congrArg Progress.records hprogress
  rw [Progress.feed_start] at hlength
  rw [← Except.ok.inj houtcome]
  exact ⟨List.length_eq_zero_iff.1 hlength.symm, rfl, hsub⟩

theorem fingerprints_again (h : Follows config d s c) {again : Course}
    (h' : Follows config d (c.stored d) again)
    (hsub : ∀ id n, again.outcome.scanned.get? id = some n →
      c.outcome.scanned.get? id = some n) :
    (again.stored d).files = (c.stored d).files := by
  apply FileMap.ext_get?
  intro id
  cases hfile : d.files.get? id with
  | none =>
    have hnone : ∀ c : Course, (c.stored d).files.get? id = none := fun c => by
      show (freshFingerprints d.files c.used.files c.outcome.scanned).get? id = none
      rw [get?_freshFingerprints, hfile]
      rfl
    rw [hnone, hnone]
  | some file =>
    rw [h'.get?_stored hfile]
    cases hn : again.outcome.scanned.get? id with
    | some n => rw [h.get?_stored hfile, hsub id n hn]
    | none => rfl

/-- **Starting from what was stored**, a run reads nothing and stores it again. -/
theorem restored (h : Follows config d s c) (hsound : (c.stored d).Sound)
    (hcurrent : (c.stored d).Current d config.network.magic)
    (hforth : c.used.cursor ≤ c.outcome.stop) {again : Course}
    (h' : Follows config d (c.stored d) again) :
    again.fed = [] ∧ again.assembler = (c.stored d).replayed ∧
      again.stored d = c.stored d := by
  have hused := h'.used_of_current hcurrent hsound
  obtain ⟨hfed, hstop, hsub⟩ := h.unread hsound hforth h' hused
  have hassembler : again.assembler = (c.stored d).replayed := by
    rw [Course.assembler, hused, hfed]
    rfl
  obtain ⟨_, hbest, hreorgs, hlisted⟩ := h.replayed_stored hsound
  have hnew : again.new = [] := by
    have hlisted' := h'.listed
    rw [hassembler, hused] at hlisted'
    exact hlisted.eq_nil_of_append hlisted'
  have hfork : again.fork = none := by
    rw [h'.forks, hassembler, hreorgs]
    rfl
  have hentries : again.entries = c.entries := by
    rw [Course.entries, hfork, hused, hnew]
    exact List.append_nil _
  refine ⟨hfed, hassembler, ?_⟩
  have hfiles : freshFingerprints d.files again.used.files again.outcome.scanned
      = (c.stored d).files := h.fingerprints_again h' hsub
  have hstate : again.state d = c.state d := by
    unfold Course.state reachedState
    rw [hfiles, hassembler, hstop, hbest, ← h.unresolved_stored hsound hcurrent]
    rfl
  rw [Course.stored, hentries, hstate]
  rfl

end Follows

/-! ## The same walk -/

/-- The chain that is walked, and the heights. -/
def Walk.extent (w : Walk) : BestChain × Option Range := (w.chain, w.range)

/-- What is walked is a matter of heights, branches and the best chain. -/
theorem walkOver_extent {reader reader' : Reader} {a b : Assembler} {reused reused' : Bool}
    {records records' reorgs reorgs' : Nat} (hheights : a.heightOf? = b.heightOf?)
    (hbest : a.best = b.best) (hbranches : a.branchTo = b.branchTo) :
    (walkOver config reader a reused records reorgs).map Walk.extent
      = (walkOver config reader' b reused' records' reorgs').map Walk.extent := by
  have hchain : chainFor config a = chainFor config b := by
    unfold chainFor
    rw [hbest, hbranches]
  have hrange : Range.resolve config a = Range.resolve config b := by
    funext chain
    unfold Range.resolve Range.firstHeight Range.heightOn
    rw [hheights]
  unfold walkOver
  rw [hchain]
  cases chainFor config b with
  | error e => rfl
  | ok chain =>
    simp only [bind, Except.bind]
    rw [hrange]
    cases Range.resolve config b chain <;> rfl

/-- **The same walk.**  A run that starts from what was stored walks what the run before it walked, or
answers the same error. -/
theorem Follows.same_extent (h : Follows config d s c) (hsound : (c.stored d).Sound)
    {again : Course} (h' : Follows config d (c.stored d) again)
    (hassembler : again.assembler = (c.stored d).replayed) :
    (plan config d.volume d.files (c.stored d)).2.map Walk.extent
      = (plan config d.volume d.files s).2.map Walk.extent := by
  obtain ⟨hheights, hbest, _, _⟩ := h.replayed_stored hsound
  have hlinking := Snapshot.linking_swept c.used c.fed
  have hlinking' : again.assembler.Linking [] := Snapshot.linking_swept again.used again.fed
  rw [h.walk, h'.walk]
  refine walkOver_extent ?_ ?_ ?_
  · exact (congrArg Assembler.heightOf? hassembler).trans hheights
  · exact (congrArg Assembler.best hassembler).trans hbest
  · refine Assembler.branchTo_of_same (hlinking'.congr rfl rfl) (hlinking.congr rfl rfl)
      fun r => ?_
    show r ∈ again.assembler.records ↔ r ∈ c.assembler.records
    rw [hassembler]
    exact (h.mem_replayed_stored hsound r).symm

/-! ## Any history -/

theorem databaseAfter_vouched (history : List Stage) :
    (databaseAfter history).Left fun magic s => s.Vouched history magic :=
  databaseAfter_left (P := fun past magic s => s.Vouched past magic) Snapshot.Vouched.empty
    (fun _ stage _ _ hs => hs.later stage)
    (fun _ stage _ hfits hs => by
      obtain ⟨c, hfollows⟩ := hs.lasting.follows stage.config stage.directory
      exact ⟨c, hfollows, hfollows.vouched hfits hs⟩) history

/-- **Running again.**  Whatever runs came before, a run with a cache that is made again over the same
directory reads no record, walks the same chain and range or answers the same error, and leaves in the
cache what was there: just what the first run knew.  It is asked that files keep their bytes as long as
they keep their length and time, that the times of all files are known, and that no height takes more
than 32 bits: a cache with a greater one cannot be read. -/
theorem rerun_idempotent (before : List Stage) (stage : Stage)
    (hcache : stage.config.cachedir.isSome = true)
    (htrusts : ∀ old ∈ before, old.directory.Trusts stage.directory)
    (htimed : ∀ file ∈ stage.directory.files.values, file.modified.isSome = true)
    (hlow : ∀ e ∈ ((stage.store (databaseAfter before)).assembled stage.config
      stage.directory).linkedEntries, e.height < 0x1_0000_0000) :
    let found := databaseAfter before
    let left := stage.leaves found
    (stage.store left).scanned stage.config stage.directory = 0 ∧
      (∀ w, stage.prepared left = .ok w → w.recordsScanned = 0) ∧
      (stage.prepared left).map Walk.extent = (stage.prepared found).map Walk.extent ∧
      ∃ s, s.Persists ((stage.store found).assembled stage.config stage.directory) ∧
        stage.reloaded found = .ok s ∧ stage.reloaded left = .ok s := by
  dsimp only
  generalize hdatabase : databaseAfter before = database at hlow ⊢
  have hleft := databaseAfter_vouched before
  rw [hdatabase] at hleft
  obtain ⟨hopens, hs⟩ := hleft.opens stage (Snapshot.Vouched.empty before _)
  obtain ⟨c, h⟩ := hs.lasting.follows stage.config stage.directory
  obtain ⟨_, _, t, ht, henc⟩ := Stage.run_spec hopens h
  have hvouched := h.vouched hopens.loaded_fits hs
  have hcurrent := h.current hs htrusts htimed
  have hsound := hvouched.lasting.sound
  have hislow : (c.stored stage.directory).IsLow := by
    rw [h.assembled_eq] at hlow
    exact fun e he => hlow e
      ((h.listed_entries.perm (Snapshot.linking_swept c.used c.fed).distinct).mem_iff.1 he)
  -- what the first run leaves is what the second one loads
  have hfound : (stage.store (stage.leaves database)).Holds (c.stored stage.directory) := by
    obtain ⟨cachedir, hcachedir⟩ := Option.isSome_iff_exists.1 hcache
    unfold Stage.store Stage.leaves
    rw [hcachedir]
    dsimp only
    rw [ht]
    exact DatabaseStore.holds_of_encodes henc
  obtain ⟨hopens', hloaded⟩ := hfound.opens
  rw [if_pos hislow] at hloaded
  obtain ⟨again, h'⟩ := hvouched.lasting.follows stage.config stage.directory
  obtain ⟨hfed, hassembler, hstored⟩ := h.restored hsound hcurrent (h.forth hs) h'
  have hextent := h.same_extent hsound h' hassembler
  have hwalk := h'.walk
  rw [← hloaded] at h' hextent hwalk
  refine ⟨?_, ?_, ?_, c.stored stage.directory, ?_, ?_, ?_⟩
  · rw [h'.scanned_eq, hfed]
    rfl
  · intro w hw
    rw [Stage.prepared_eq hopens' h', hwalk, hfed] at hw
    exact (walkOver_ok hw).2
  · rw [Stage.prepared_eq hopens' h', Stage.prepared_eq hopens h, hextent]
  · rw [h.assembled_eq]
    exact h.persists hopens.loaded_fits hs.lasting
  · rw [Stage.reloaded_eq hopens h, if_pos (Or.inr hislow)]
  · rw [Stage.reloaded_eq hopens' h', hstored, if_pos (Or.inr hislow)]

/-! ### Three blocks, with a cache and without -/

/-- Runs over a directory of three blocks, for a network that does not know them and for one that
does. -/
def foreignStage : Stage := ⟨{ cachedConfig with network := .testnet }, grownDirectory⟩

def cachedStage : Stage := ⟨cachedConfig, grownDirectory⟩

/-- What the run for another network left is given up and the blocks are read; the run that is made
again does not read them. -/
theorem read_once : cachedStage.config.cachedir.isSome = true ∧
    (∀ old ∈ [foreignStage], old.directory.Trusts cachedStage.directory) ∧
    (∀ file ∈ cachedStage.directory.files.values, file.modified.isSome = true) ∧
    (cachedStage.prepared (databaseAfter [foreignStage])).toOption.map Walk.recordsScanned = some 3 ∧
    ∀ w, cachedStage.prepared (cachedStage.leaves (databaseAfter [foreignStage])) = .ok w →
      w.recordsScanned = 0 := by
  have htrusts : ∀ old ∈ [foreignStage], old.directory.Trusts cachedStage.directory := by
    decide +kernel
  have htimed : ∀ file ∈ cachedStage.directory.files.values, file.modified.isSome = true := by
    decide +kernel
  have hlow : ∀ e ∈ ((cachedStage.store (databaseAfter [foreignStage])).assembled cachedStage.config
      cachedStage.directory).linkedEntries, e.height < 0x1_0000_0000 := by
    decide +kernel
  refine ⟨rfl, htrusts, htimed, by decide +kernel, ?_⟩
  exact (rerun_idempotent [foreignStage] cachedStage rfl htrusts htimed hlow).2.1

/-- A run without a cache that is made again on the volume that the first one left reads all three
again. -/
theorem read_again_without_cache :
    let config : Config := { cachedConfig with cachedir := none }
    let once := prepare config grownDirectory.volume
    let twice := prepare config once.2
    (∀ file ∈ grownDirectory.files.values, file.modified.isSome = true) ∧
      once.1.toOption.map Walk.recordsScanned = some 3 ∧
      ¬ ∀ w, twice.1 = .ok w → w.recordsScanned = 0 := by
  intro config once twice
  have htwice : twice.1.toOption.map Walk.recordsScanned = some 3 := by decide +kernel
  refine ⟨by decide +kernel, by decide +kernel, fun hnone => ?_⟩
  obtain ⟨w, hw, hrecords⟩ := Option.map_eq_some_iff.1 htwice
  have hzero := hnone w (eq_ok_of_toOption hw)
  omega

end BlockIndex
