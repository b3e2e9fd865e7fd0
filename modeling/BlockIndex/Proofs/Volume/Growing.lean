import BlockIndex.Proofs.BlockFile.Directory
import BlockIndex.Proofs.Volume.Descent

/-!
# Volumes that grow

A volume to which directories are added, and files whose names are not those of block files, lists
the same block files in every directory, with the same bytes.

* `Volume.Grows`     nothing is lost, and no block file is added;
* `Directory.onto`   a block directory in the volume that has grown.

Main statements: `Volume.grows_makeDirectories`, `Directory.bytes_onto`.
-/

namespace BlockIndex

theorem FileNode.Like.trans {node next last : FileNode} (h : node.Like next)
    (h' : next.Like last) : node.Like last := by
  cases h <;> cases h' <;> constructor

/-- A member of a directory that is not listed as a block file. -/
def DirectoryEntry.IsOther (entry : DirectoryEntry) : Prop :=
  parseFileId entry.name = none ∨ entry.isFile = false

namespace Volume

variable {v w x : Volume} {id : NodeNumber} {place : Place} {node : FileNode} {path : Path}

/-- A volume in which everything is as it was, but for what has been added.  That is no block
file. -/
structure Grows (v w : Volume) : Prop where
  closed : w.Closed
  keeps : Keeps (fun _ => True) v w
  files : ∀ id file, v.file? id = some file → w.file? id = some file
  lists : ∀ id, ∃ added, w.entries id = v.entries id ++ added ∧
    ∀ entry ∈ added, entry.IsOther

theorem Grows.refl (h : v.Closed) : v.Grows v where
  closed := h
  keeps := ⟨fun _ node hnode => ⟨node, hnode, .refl node⟩, fun _ _ hid _ => hid⟩
  files := fun _ _ hfile => hfile
  lists := fun _ => ⟨[], (List.append_nil _).symm, nofun⟩

theorem Grows.trans (h : v.Grows w) (h' : w.Grows x) : v.Grows x where
  closed := h'.closed
  keeps := by
    refine ⟨fun id node hnode => ?_, fun place id hid hnamed =>
      h'.keeps.name place id (h.keeps.name place id hid hnamed) hnamed⟩
    obtain ⟨next, hnext, hlike⟩ := h.keeps.node id node hnode
    obtain ⟨last, hlast, hlike'⟩ := h'.keeps.node id next hnext
    exact ⟨last, hlast, hlike.trans hlike'⟩
  files := fun id file hfile => h'.files id file (h.files id file hfile)
  lists := by
    intro id
    obtain ⟨added, hadded, hother⟩ := h.lists id
    obtain ⟨more, hmore, hother'⟩ := h'.lists id
    refine ⟨added ++ more, by rw [hmore, hadded, List.append_assoc], fun entry hentry => ?_⟩
    rcases List.mem_append.1 hentry with hentry | hentry
    · exact hother entry hentry
    · exact hother' entry hentry

/-! ## What is added -/

theorem grows_addNode (hclosed : v.Closed) (hdirectory : v.isDirectory place.directory)
    (hfree : v.occupant? place = none) (hbare : node.IsBare)
    (habove : ∀ above members, node = .directory above members → v.isDirectory above)
    (hother : parseFileId place.name = none ∨ ∀ file, node ≠ .file file) :
    v.Grows (v.addNode place node) := by
  obtain ⟨above, members, hdir⟩ := isDirectory_iff.1 hdirectory
  have hfiles : ∀ id node', v.node? id = some node' →
      (v.addNode place node).file? id = v.file? id := by
    intro id old hold
    unfold file?
    rw [node?_addNode hdirectory, if_neg (ne_freshId hold)]
    by_cases heq : id = place.directory
    · rw [if_pos heq, heq, hdir]
    · rw [if_neg heq]
  refine ⟨hclosed.addNode hdirectory hbare habove, .addNode hdirectory hbare hfree,
    fun id file hfile => (hfiles id _ (file?_eq_some_iff.1 hfile)).trans hfile, fun id => ?_⟩
  -- what was listed is listed as before, since every name is that of a node
  have hold : (v.members id).map (fun member => (v.addNode place node).entryOf member.1 member.2)
      = v.entries id := by
    refine List.map_congr_left fun member hmember => ?_
    obtain ⟨old, hnode⟩ := Option.isSome_iff_exists.1 (hclosed.named id member hmember)
    unfold entryOf
    rw [hfiles _ old hnode]
  have hentries : (v.addNode place node).entries id
      = ((v.addNode place node).members id).map fun member =>
        (v.addNode place node).entryOf member.1 member.2 := rfl
  rw [hentries, members_addNode hdirectory hbare]
  split
  · refine ⟨[(v.addNode place node).entryOf place.name v.freshId], ?_, fun entry hentry => ?_⟩
    · rw [List.map_append, hold]
      rfl
    · obtain rfl := List.mem_singleton.1 hentry
      have hnew : (v.addNode place node).node? v.freshId = some node := by
        rw [node?_addNode hdirectory, if_neg (ne_freshId hdir).symm, if_pos rfl]
      unfold entryOf file?
      rw [hnew]
      cases node with
      | file file => exact .inl (hother.resolve_right fun h => h file rfl)
      | directory above members => exact .inr rfl
      | link target => exact .inr rfl
  · exact ⟨[], by rw [hold, List.append_nil], nofun⟩

theorem isDirectory_of_placeOf (h : v.placeOf path = .ok place) :
    v.isDirectory place.directory := by
  unfold placeOf at h
  split at h
  · cases h
  split at h
  · cases h
  split at h
  · cases h
  next dir hdir =>
  split at h
  · cases h
  split at h
  · cases h
  obtain rfl := Except.ok.inj h
  unfold directoryOf at hdir
  split at hdir
  · cases hdir
  · cases hdir
  split at hdir
  · next hkind =>
    obtain rfl := Except.ok.inj hdir
    exact hkind
  · cases hdir

theorem grows_makeDirectory (hclosed : v.Closed) (h : v.makeDirectory path = .ok w) :
    v.Grows w := by
  unfold makeDirectory at h
  split at h
  · cases h
  dsimp only at h
  split at h
  · split at h <;> cases h
  unfold makeNode at h
  split at h
  · cases h
  next place hplace =>
  split at h
  · cases h
  next hfree =>
  obtain rfl := Except.ok.inj h
  have hdirectory := isDirectory_of_placeOf hplace
  refine grows_addNode hclosed hdirectory hfree ?_ ?_ (.inr fun _ => nofun)
  · rintro _ _ ⟨⟩
    rfl
  · rintro _ _ ⟨⟩
    exact hdirectory

theorem grows_ensureDirectory (hclosed : v.Closed) (h : v.ensureDirectory path = .ok w) :
    v.Grows w := by
  unfold ensureDirectory at h
  split at h
  · next made hmade =>
    obtain rfl := Except.ok.inj h
    exact grows_makeDirectory hclosed hmade
  · split at h
    · obtain rfl := Except.ok.inj h
      exact .refl hclosed
    · cases h

theorem grows_makeAlong (hclosed : v.Closed) (paths : List Path) :
    v.Grows (v.makeAlong paths).2 := by
  induction paths with
  | nil => exact .refl hclosed
  | cons path above ih =>
    unfold makeAlong
    extract_lets way
    have hway : v.Grows way.2 := by
      unfold way
      split
      · exact ih
      · exact .refl hclosed
    clear_value way
    obtain ⟨problem | _, made⟩ := way
    · exact hway
    · dsimp only
      split
      · next last hlast => exact hway.trans (grows_ensureDirectory hway.closed hlast)
      · exact hway

/-- Making directories adds no block file. -/
theorem grows_makeDirectories (hclosed : v.Closed) (path : Path) :
    v.Grows (v.makeDirectories path).2 := grows_makeAlong hclosed _

/-! ## What is listed -/

theorem Grows.find (h : v.Grows w) (hclosed : v.Closed) (hid : v.find path = .ok id) :
    w.find path = .ok id := h.keeps.find hclosed (fun _ _ => trivial) trivial hid

theorem Grows.discover {files : BlockFiles} (h : v.Grows w) (hclosed : v.Closed)
    (hfiles : BlockFiles.discover v path = .ok files) :
    BlockFiles.discover w path = .ok files := by
  unfold BlockFiles.discover list at hfiles ⊢
  cases hfind : v.find path with
  | error problem =>
    rw [hfind] at hfiles
    cases hfiles
  | ok id =>
    rw [hfind] at hfiles
    rw [h.find hclosed hfind]
    dsimp only at hfiles ⊢
    cases hdir : v.isDirectory id with
    | false =>
      rw [hdir] at hfiles
      cases hfiles
    | true =>
      rw [hdir, if_pos rfl] at hfiles
      rw [(h.keeps.isDirectory hdir).1, if_pos rfl]
      obtain ⟨added, hadded, hother⟩ := h.lists id
      have hnone : added.filterMap (BlockFiles.ofMember? path) = [] := by
        refine List.filterMap_eq_nil_iff.2 fun entry hentry => ?_
        unfold BlockFiles.ofMember?
        rcases hother entry hentry with hname | hkind
        · rw [hname]
        · rw [hkind]
          split <;> rfl
      dsimp only at hfiles ⊢
      unfold BlockFiles.ofEntries at hfiles ⊢
      rw [hadded, List.filterMap_append, hnone, List.append_nil]
      exact hfiles

end Volume

namespace Directory

variable {d : Directory} {w : Volume}

/-- The directory in the volume that its own has grown to. -/
def onto (d : Directory) (hclosed : d.volume.Closed) (h : d.volume.Grows w) : Directory where
  volume := w
  path := d.path
  files := d.files
  found := h.discover hclosed d.found
  readable := by
    intro file hfile
    obtain ⟨id, stored, hfind, hstored, hlen⟩ := d.readable file hfile
    exact ⟨id, stored, h.find hclosed hfind, h.files id stored hstored, hlen⟩

/-- Its files have their bytes. -/
theorem bytes_onto (hclosed : d.volume.Closed) (h : d.volume.Grows w) (id : Nat) :
    (d.onto hclosed h).bytes id = d.bytes id := by
  cases hfile : d.files.get? id with
  | none =>
    unfold bytes
    rw [hfile, show (d.onto hclosed h).files.get? id = none from hfile]
  | some file =>
    obtain ⟨node, hfind, _, _, hbytes, _⟩ := d.opens hfile
    have hfile' : (d.onto hclosed h).files.get? id = some file := hfile
    obtain ⟨node', hfind', _, _, hbytes', _⟩ := (d.onto hclosed h).opens hfile'
    obtain rfl : node = node' := Except.ok.inj ((h.find hclosed hfind).symm.trans hfind')
    obtain ⟨other, stored, hother, hstored, _⟩ := d.readable file (mem_values hfile)
    obtain rfl : other = node := Except.ok.inj (hother.symm.trans hfind)
    rw [← hbytes, ← hbytes']
    unfold Volume.bytesOf
    rw [show (d.onto hclosed h).volume.file? other = some stored from h.files _ _ hstored, hstored]

end Directory

end BlockIndex
