import BlockIndex.Proofs.BlockFile.Directory
import Mathlib.Data.List.Pairwise

/-!
# Block files of a listed directory

What is found in a directory is a matter of its members and not of the order in which they are
listed.

* `IsBlockFileName`               the names of the block file of an id;
* `DirectoryEntry.IsBlockFile`    a regular file with such a name;
* `Clashes`                       two regular files have names of one id;
* `BlockFiles.Lists`              block files are those of a directory, each as it was listed.

Main statement: `discover_any_order`.
-/

namespace BlockIndex

/-! ## Names -/

section Names

theorem digitValue?_eq (c : Char) :
    Text.digitValue? c = if c.isDigit = true then some (c.toNat - '0'.toNat) else none := by
  have hdigit : ('0' ≤ c ∧ c ≤ '9') ↔ c.isDigit = true := by
    rw [Char.isDigit, Bool.and_eq_true, decide_eq_true_eq, decide_eq_true_eq]
    exact Iff.rfl
  unfold Text.digitValue?
  by_cases h : '0' ≤ c ∧ c ≤ '9'
  · rw [if_pos h, if_pos (hdigit.1 h)]
  · rw [if_neg h, if_neg (mt hdigit.2 h)]

theorem digitsFrom?_eq_some_iff {start n : Nat} {cs : List Char} :
    Text.digitsFrom? start cs = some n ↔
      (∀ c ∈ cs, c.isDigit = true) ∧ Nat.ofDigitChars 10 cs start = n := by
  induction cs generalizing start with
  | nil => simp [Text.digitsFrom?, Nat.ofDigitChars]
  | cons c rest ih =>
    rw [Text.digitsFrom?, digitValue?_eq, List.forall_mem_cons]
    by_cases hc : c.isDigit = true
    · rw [if_pos hc, and_iff_right hc]
      exact ih
    · rw [if_neg hc]
      simp [hc]

theorem digits?_eq_some_iff {n : Nat} {cs : List Char} :
    Text.digits? cs = some n ↔
      cs ≠ [] ∧ (∀ c ∈ cs, c.isDigit = true) ∧ Nat.ofDigitChars 10 cs 0 = n := by
  cases cs with
  | nil => simp [Text.digits?]
  | cons c rest =>
    rw [Text.digits?, digitsFrom?_eq_some_iff]
    · simp
    · simp

end Names

/-- The names of the block file of an id: `blk`, digits that write the id, `.dat`. -/
def IsBlockFileName (name : String) (id : Nat) : Prop :=
  ∃ digits : List Char, name = "blk" ++ String.ofList digits ++ ".dat" ∧ digits ≠ [] ∧
    (∀ c ∈ digits, c.isDigit = true) ∧ Nat.ofDigitChars 10 digits 0 = id ∧ id < 0x1_0000_0000

theorem isBlockFileName_iff {name : String} {id : Nat} :
    IsBlockFileName name id ↔ parseFileId name = some id := by
  have hname : ∀ digits : List Char, name = "blk" ++ String.ofList digits ++ ".dat" ↔
      name.toList = ['b', 'l', 'k'] ++ digits ++ ['.', 'd', 'a', 't'] := by
    intro digits
    rw [← String.toList_inj, String.toList_append, String.toList_append,
      String.toList_ofList (l := digits)]
    exact Iff.rfl
  rw [parseFileId_eq_some_iff]
  refine exists_congr fun digits => ?_
  rw [hname, digits?_eq_some_iff, and_assoc, and_assoc]
  exact Iff.rfl

/-! ## Members of a directory -/

/-- A regular file that has a name of the block file of an id. -/
structure DirectoryEntry.IsBlockFile (e : DirectoryEntry) (id : Nat) : Prop where
  regular : e.isFile = true
  named : IsBlockFileName e.name id

/-- A member of a directory as the block file of an id. -/
def DirectoryEntry.blockFile (e : DirectoryEntry) (dir : Path) (id : Nat) : BlockFile :=
  ⟨id, dir.join e.name, e.len, e.modified⟩

/-- Two regular files have names of one id. -/
def Clashes (entries : List DirectoryEntry) : Prop :=
  ∃ e ∈ entries, ∃ f ∈ entries, e ≠ f ∧ ∃ id, e.IsBlockFile id ∧ f.IsBlockFile id

/-- Block files are those of a directory: one for each regular file with the name of a block file,
under its id and as it was listed, in ascending order. -/
structure BlockFiles.Lists (files : BlockFiles) (dir : Path) (entries : List DirectoryEntry) :
    Prop where
  held : ∀ id file, files.get? id = some file ↔
    ∃ e ∈ entries, e.IsBlockFile id ∧ file = e.blockFile dir id
  /-- What is iterated over is what is held. -/
  iterated : ∀ file, file ∈ files.values ↔
    ∃ e ∈ entries, e.IsBlockFile file.id ∧ file = e.blockFile dir file.id
  ascending : files.values.Pairwise fun f g => f.id < g.id

section Members

variable {dir : Path} {e f : DirectoryEntry} {entries listed : List DirectoryEntry} {id : Nat}
  {file : BlockFile}

theorem DirectoryEntry.isBlockFile_iff :
    e.IsBlockFile id ↔ e.isFile = true ∧ parseFileId e.name = some id :=
  ⟨fun h => ⟨h.regular, isBlockFileName_iff.1 h.named⟩,
    fun h => ⟨h.1, isBlockFileName_iff.2 h.2⟩⟩

theorem ofMember?_eq_some_iff :
    BlockFiles.ofMember? dir e = some file ↔
      e.IsBlockFile file.id ∧ file = e.blockFile dir file.id := by
  rw [DirectoryEntry.isBlockFile_iff]
  unfold BlockFiles.ofMember? DirectoryEntry.blockFile
  cases hname : parseFileId e.name with
  | none => simp
  | some id =>
    by_cases hfile : e.isFile = true
    · rw [hfile]
      dsimp only
      rw [if_pos rfl, Option.some.injEq, Option.some.injEq]
      constructor
      · rintro rfl
        exact ⟨⟨rfl, rfl⟩, rfl⟩
      · rintro ⟨⟨_, rfl⟩, heq⟩
        exact heq.symm
    · dsimp only
      rw [if_neg hfile]
      simp [hfile]

theorem ofMember?_blockFile (h : e.IsBlockFile id) :
    BlockFiles.ofMember? dir e = some (e.blockFile dir id) :=
  ofMember?_eq_some_iff.2 ⟨h, rfl⟩

instance (entries : List DirectoryEntry) : Decidable (Clashes entries) :=
  decidable_of_iff' (∃ e ∈ entries, ∃ f ∈ entries, e ≠ f ∧ e.isFile = true ∧ f.isFile = true ∧
      (parseFileId e.name).isSome = true ∧ parseFileId e.name = parseFileId f.name) <| by
    refine exists_congr fun e => and_congr_right fun _ => exists_congr fun f =>
      and_congr_right fun _ => and_congr_right fun _ => ?_
    simp only [DirectoryEntry.isBlockFile_iff, Option.isSome_iff_exists]
    constructor
    · rintro ⟨id, ⟨he, hid⟩, hf, hid'⟩
      exact ⟨he, hf, ⟨id, hid⟩, hid.trans hid'.symm⟩
    · rintro ⟨he, hf, ⟨id, hid⟩, hsame⟩
      exact ⟨id, ⟨he, hid⟩, hf, hsame ▸ hid⟩

theorem Clashes.perm (h : Clashes entries) (hperm : listed.Perm entries) : Clashes listed := by
  obtain ⟨e, he, f, hf, hclash⟩ := h
  exact ⟨e, hperm.mem_iff.2 he, f, hperm.mem_iff.2 hf, hclash⟩

/-- Among members of different names no two are block files of one id, unless there is a clash. -/
theorem nodup_ids_iff (dir : Path) (hdistinct : (listed.map DirectoryEntry.name).Nodup) :
    ((listed.filterMap (BlockFiles.ofMember? dir)).map BlockFile.id).Nodup ↔ ¬ Clashes listed := by
  rw [List.Nodup, List.pairwise_map, List.pairwise_filterMap]
  constructor
  · rintro hapart ⟨e, he, f, hf, hne, id, hid, hid'⟩
    -- the two stand in some order, and in either their ids differ
    have hsymm : Std.Symm fun x y : DirectoryEntry => ∀ b, BlockFiles.ofMember? dir x = some b →
        ∀ c, BlockFiles.ofMember? dir y = some c → b.id ≠ c.id :=
      ⟨fun x y h b hb c hc => (h c hc b hb).symm⟩
    exact hapart.forall he hf hne _ (ofMember?_blockFile hid) _ (ofMember?_blockFile hid') rfl
  · intro hnone
    refine (List.pairwise_map.1 hdistinct).imp_of_mem ?_
    intro e f he hf hname b hb c hc hid
    have hne : e ≠ f := fun heq => hname (congrArg DirectoryEntry.name heq)
    obtain ⟨hb, _⟩ := ofMember?_eq_some_iff.1 hb
    obtain ⟨hc, _⟩ := ofMember?_eq_some_iff.1 hc
    exact hnone ⟨e, he, f, hf, hne, b.id, hb, hid ▸ hc⟩

end Members

/-! ## Collecting -/

namespace BlockFiles

variable {found files : BlockFiles} {l : List BlockFile}

/-- Files of different ids are collected, and what was found before stays. -/
theorem collect_of_nodup (found : BlockFiles) (hnodup : (l.map BlockFile.id).Nodup)
    (hfresh : ∀ file ∈ l, found.get? file.id = none) :
    ∃ files, collect found l = .ok files ∧
      (∀ id file, found.get? id = some file → files.get? id = some file) ∧
      ∀ file ∈ l, files.get? file.id = some file := by
  induction l generalizing found with
  | nil => exact ⟨found, rfl, fun _ _ h => h, by simp⟩
  | cons file rest ih =>
    obtain ⟨hnew, hnodup⟩ := List.nodup_cons.1 hnodup
    obtain ⟨hfile, hrest⟩ := List.forall_mem_cons.1 hfresh
    have hother : ∀ other ∈ rest, other.id ≠ file.id :=
      fun other hmem heq => hnew (heq ▸ List.mem_map_of_mem hmem)
    obtain ⟨files, hcollect, hkept, hall⟩ := ih (found.insert file.id file) hnodup (by
      intro other hmem
      rw [FileMap.get?_insert, if_neg (hother other hmem)]
      exact hrest other hmem)
    refine ⟨files, ?_, ?_, List.forall_mem_cons.2 ⟨?_, hall⟩⟩
    · rw [collect, hfile]
      exact hcollect
    · intro id old hold
      refine hkept id old ?_
      rw [FileMap.get?_insert, if_neg]
      · exact hold
      · rintro rfl
        rw [hfile] at hold
        cases hold
    · exact hkept file.id file (by rw [FileMap.get?_insert, if_pos rfl])

/-- What cannot be collected has the id of something before it. -/
theorem collect_eq_error {e : Error} (h : collect found l = .error e) :
    ∃ first second, e = .duplicateBlockFile second.id first.path second.path ∧
      ((found.get? second.id = some first ∧ second ∈ l) ∨
        ([first, second].Sublist l ∧ first.id = second.id)) := by
  induction l generalizing found with
  | nil => cases h
  | cons file rest ih =>
    rw [collect] at h
    cases hfile : found.get? file.id with
    | some first =>
      rw [hfile] at h
      exact ⟨first, file, (Except.error.inj h).symm, Or.inl ⟨hfile, List.mem_cons_self⟩⟩
    | none =>
      rw [hfile] at h
      obtain ⟨first, second, heq, hcase⟩ := ih h
      refine ⟨first, second, heq, ?_⟩
      rcases hcase with ⟨hfound, hmem⟩ | ⟨hsub, hid⟩
      · rcases FileMap.get?_insert_eq_some_iff.1 hfound with ⟨hsame, rfl⟩ | ⟨_, hold⟩
        · -- it was the file before it that was found
          exact Or.inr ⟨(List.singleton_sublist.2 hmem).cons_cons file, hsame.symm⟩
        · exact Or.inl ⟨hold, List.mem_cons_of_mem file hmem⟩
      · exact Or.inr ⟨hsub.cons file, hid⟩

/-- What was collected had different ids, none of them there before. -/
theorem nodup_of_collect (h : collect found l = .ok files) :
    (l.map BlockFile.id).Nodup ∧ ∀ file ∈ l, found.get? file.id = none := by
  induction l generalizing found with
  | nil => simp
  | cons file rest ih =>
    rw [collect] at h
    cases hfile : found.get? file.id with
    | some first =>
      rw [hfile] at h
      cases h
    | none =>
      rw [hfile] at h
      obtain ⟨hnodup, hfresh⟩ := ih h
      have hother : ∀ other ∈ rest, other.id ≠ file.id ∧ found.get? other.id = none := by
        intro other hmem
        have hnone := hfresh other hmem
        rw [FileMap.get?_insert] at hnone
        split at hnone
        · cases hnone
        · next hne => exact ⟨hne, hnone⟩
      refine ⟨List.nodup_cons.2 ⟨?_, hnodup⟩, List.forall_mem_cons.2 ⟨hfile, ?_⟩⟩
      · intro hmem
        obtain ⟨other, hother', heq⟩ := List.mem_map.1 hmem
        exact (hother other hother').1 heq
      · exact fun other hmem => (hother other hmem).2

variable {dir : Path} {entries listed : List DirectoryEntry}

/-- Without a clash the block files are found, each as it was listed. -/
theorem ofEntries_lists (dir : Path) (hdistinct : (listed.map DirectoryEntry.name).Nodup)
    (hnone : ¬ Clashes listed) :
    ∃ files, ofEntries dir listed = .ok files ∧ files.Lists dir listed := by
  obtain ⟨files, hfiles, _, hall⟩ := collect_of_nodup FileMap.empty
    ((nodup_ids_iff dir hdistinct).2 hnone) fun file _ => FileMap.get?_empty file.id
  have hheld : ∀ id file, files.get? id = some file ↔
      ∃ e ∈ listed, e.IsBlockFile id ∧ file = e.blockFile dir id := by
    intro id file
    constructor
    · intro hget
      rcases collect_eq_ok hfiles hget with hempty | ⟨hmem, rfl⟩
      · cases hempty
      · obtain ⟨e, he, hof⟩ := List.mem_filterMap.1 hmem
        exact ⟨e, he, ofMember?_eq_some_iff.1 hof⟩
    · rintro ⟨e, he, hid, rfl⟩
      exact hall _ (List.mem_filterMap.2 ⟨e, he, ofMember?_blockFile hid⟩)
  have hkey : ∀ {id file}, files.get? id = some file → file.id = id := by
    intro id file hget
    obtain ⟨e, _, _, rfl⟩ := (hheld id file).1 hget
    rfl
  refine ⟨files, hfiles, hheld, ?_, ?_⟩
  · intro file
    rw [← hheld, FileMap.mem_values_iff]
    constructor
    · rintro ⟨id, hget⟩
      rw [hkey hget]
      exact hget
    · exact fun hget => ⟨file.id, hget⟩
  · rw [FileMap.values, List.pairwise_map]
    refine files.sorted.imp_of_mem ?_
    intro p q hp hq hlt
    rw [hkey (FileMap.get?_eq_some_iff.2 hp), hkey (FileMap.get?_eq_some_iff.2 hq)]
    exact hlt

/-- What is listed is a matter of the members alone. -/
theorem Lists.unique {files others : BlockFiles} (h : files.Lists dir listed)
    (h' : others.Lists dir entries) (hperm : listed.Perm entries) : files = others := by
  refine FileMap.ext_get? fun id => Option.ext fun file => ?_
  rw [h.held, h'.held]
  simp only [hperm.mem_iff]

/-- A clash is an error that names two members, in the order in which they are listed. -/
theorem ofEntries_clash (hdistinct : (listed.map DirectoryEntry.name).Nodup)
    (h : Clashes listed) : ∃ e f id, [e, f].Sublist listed ∧ e.IsBlockFile id ∧ f.IsBlockFile id ∧
      ofEntries dir listed
        = .error (.duplicateBlockFile id (dir.join e.name) (dir.join f.name)) := by
  cases hfound : ofEntries dir listed with
  | ok files =>
    exact absurd h ((nodup_ids_iff dir hdistinct).1 (nodup_of_collect hfound).1)
  | error problem =>
    obtain ⟨first, second, rfl, hcase⟩ := collect_eq_error hfound
    rcases hcase with ⟨hempty, _⟩ | ⟨hsub, hid⟩
    · cases hempty
    · obtain ⟨members, hmembers, hboth⟩ := List.sublist_filterMap_iff.1 hsub
      obtain ⟨before, e, after, rfl, _, he, hafter⟩ := List.filterMap_eq_cons_iff.1 hboth.symm
      obtain ⟨between, f, rest, rfl, _, hf, _⟩ := List.filterMap_eq_cons_iff.1 hafter
      obtain ⟨he, hfirst⟩ := ofMember?_eq_some_iff.1 he
      obtain ⟨hf, hsecond⟩ := ofMember?_eq_some_iff.1 hf
      have hlater : [f].Sublist (between ++ f :: rest) := List.singleton_sublist.2 (by simp)
      have hpair := (hlater.cons_cons e).trans (List.sublist_append_right before _)
      refine ⟨e, f, second.id, hpair.trans hmembers, hid ▸ he, hf, ?_⟩
      rw [show first.path = dir.join e.name from congrArg BlockFile.path hfirst,
        show second.path = dir.join f.name from congrArg BlockFile.path hsecond]

theorem discover_of_list {v : Volume} (h : v.list dir = .ok listed) :
    discover v dir = ofEntries dir listed := by
  unfold discover
  rw [h]

end BlockFiles

/-- **In whatever order a directory is listed**, its block files are found or not.  Its members have
different names.  If two regular files among them have names of one id, these are an error; otherwise
the block files are the regular files with such names, whatever else there is. -/
theorem discover_any_order (dir : Path) (entries : List DirectoryEntry)
    (hdistinct : (entries.map DirectoryEntry.name).Nodup) :
    (Clashes entries → ∀ (v : Volume) (listed : List DirectoryEntry), v.list dir = .ok listed →
      listed.Perm entries → ∃ e f id, [e, f].Sublist listed ∧ e.IsBlockFile id ∧
        f.IsBlockFile id ∧ BlockFiles.discover v dir
          = .error (.duplicateBlockFile id (dir.join e.name) (dir.join f.name))) ∧
    (¬ Clashes entries → ∃ files : BlockFiles, files.Lists dir entries ∧
      ∀ (v : Volume) (listed : List DirectoryEntry), v.list dir = .ok listed →
        listed.Perm entries → BlockFiles.discover v dir = .ok files) := by
  have hnames : ∀ {listed : List DirectoryEntry}, listed.Perm entries →
      (listed.map DirectoryEntry.name).Nodup :=
    fun hperm => ((hperm.map DirectoryEntry.name).nodup_iff).2 hdistinct
  constructor
  · intro hclash v listed hlist hperm
    rw [BlockFiles.discover_of_list hlist]
    exact BlockFiles.ofEntries_clash (hnames hperm) (hclash.perm hperm)
  · intro hnone
    obtain ⟨files, _, hfiles⟩ := BlockFiles.ofEntries_lists dir hdistinct hnone
    refine ⟨files, hfiles, ?_⟩
    intro v listed hlist hperm
    obtain ⟨others, hothers, hlists⟩ := BlockFiles.ofEntries_lists dir (hnames hperm)
      fun hclash => hnone (hclash.perm hperm.symm)
    rw [BlockFiles.discover_of_list hlist, hothers, hlists.unique hfiles hperm]

/-! ### A directory with all kinds of members -/

/-- A volume whose directory `blocks` holds some nodes under names. -/
def Volume.ofMembers (members : List (String × FileNode)) : Volume where
  nodes := (.directory root [("blocks", 1)] ::
    .directory root ((members.map Prod.fst).zipIdx 2) :: members.map Prod.snd).toArray

/-- Two block files; a directory and a link with other names of the same ids; a file of another
kind. -/
def mixedMembers : List (String × FileNode) :=
  [("blk00002.dat", .file ⟨.bytes [7], 5⟩), ("blk1.dat", .file ⟨.bytes [], 6⟩),
    ("blk2.dat", .directory 1 []), ("blk00001.dat", .link ["blocks", "blk1.dat"]),
    ("rev00002.dat", .file ⟨.bytes [], 5⟩)]

/-- These members as a listing shows them. -/
def mixedEntries : List DirectoryEntry :=
  [⟨"blk00002.dat", true, 1, some 5⟩, ⟨"blk1.dat", true, 0, some 6⟩, ⟨"blk2.dat", false, 0, none⟩,
    ⟨"blk00001.dat", false, 0, none⟩, ⟨"rev00002.dat", true, 0, some 5⟩]

/-- The two block files are found, listed forth or back. -/
theorem discover_mixed : (mixedEntries.map DirectoryEntry.name).Nodup ∧ ¬ Clashes mixedEntries ∧
    ∃ files : BlockFiles, files.Lists ["blocks"] mixedEntries ∧ files.ids = [1, 2] ∧
      BlockFiles.discover (.ofMembers mixedMembers) ["blocks"] = .ok files ∧
      BlockFiles.discover (.ofMembers mixedMembers.reverse) ["blocks"] = .ok files := by
  have hdistinct : (mixedEntries.map DirectoryEntry.name).Nodup := by decide +kernel
  have hnone : ¬ Clashes mixedEntries := by decide +kernel
  obtain ⟨files, hlists, hfound⟩ := (discover_any_order ["blocks"] mixedEntries hdistinct).2 hnone
  have hforth := hfound (.ofMembers mixedMembers) mixedEntries (by decide +kernel) (.refl _)
  have hback := hfound (.ofMembers mixedMembers.reverse) mixedEntries.reverse (by decide +kernel)
    (List.reverse_perm mixedEntries)
  have hids : (BlockFiles.discover (.ofMembers mixedMembers) ["blocks"]).toOption.map FileMap.ids
      = some [1, 2] := by
    decide +kernel
  rw [hforth] at hids
  exact ⟨hdistinct, hnone, files, hlists, Option.some.inj hids, hforth, hback⟩

end BlockIndex
