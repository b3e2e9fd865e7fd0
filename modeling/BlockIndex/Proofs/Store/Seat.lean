import BlockIndex.Proofs.Store.Opening
import BlockIndex.Proofs.Volume.Descent
import Mathlib.Data.List.DropRight

/-!
# The seat of a database

A cache directory that is reached through directories alone, with nothing but files under the names
of its database and of the companions: opening the database, getting it ready and deleting it are
then about one name each, and none of them fails.

* `CachePath`       a path that a cache directory can have;
* `Place.Serves`    the names of a database and of its companions;
* `Volume.Seat`     a cache directory in whose place for a database there are only files;
* `Volume.Houses`   a seat, and the file of the database.

Main statements: `Seat.makeDirectories`, `Seat.openDatabase`, `Seat.deleteAll`, `Houses.ready`.
-/

namespace BlockIndex

/-- The parts of a path that are not idle. -/
def Path.names (path : Path) : List String := path.filter fun part => !isIdle part

theorem Path.names_cons_of_idle {part : String} (hidle : isIdle part = true) (rest : Path) :
    names (part :: rest) = names rest := List.filter_cons_of_neg (by simp [hidle])

theorem Path.names_cons {part : String} (hidle : isIdle part = false) (rest : Path) :
    names (part :: rest) = part :: names rest := List.filter_cons_of_pos (by simp [hidle])

/-- The names under which the database of a cache directory lies. -/
def cacheNames (cachedir : Path) : List String := cachedir.names ++ [databaseName]

/-- A path that a cache directory can have: it goes up nowhere, and neither it nor a path of what
lies in it is too long. -/
structure CachePath (cachedir : Path) : Prop where
  plain : ".." ∉ cachedir
  allowed : ∀ path ∈ cachedir :: cacheNames cachedir :: databaseFiles cachedir,
    Volume.allow path = .ok ()
  short : Volume.fullSize (cacheNames cachedir) ≤ Volume.databasePathLimit

/-- The place of the database in a cache directory. -/
def databasePlace (dir : NodeNumber) : Place := ⟨dir, databaseName⟩

/-- The names of a database and of its companions. -/
inductive Place.Serves (database : Place) : Place → Prop where
  | database : Serves database database
  | companion (c : Companion) : Serves database (database.companion c)

theorem Place.companion_ne {database : Place} (c : Companion) :
    database ≠ database.companion c := by
  intro h
  have hname : database.name.length = (database.name ++ c.ending).length :=
    congrArg String.length (congrArg Place.name h)
  have hending : 0 < c.ending.length := by cases c <;> decide
  rw [String.length_append] at hname
  omega

theorem isName_databaseName : Volume.IsName databaseName :=
  ⟨by decide +kernel, by decide +kernel, by decide +kernel⟩

theorem isName_companion (c : Companion) : Volume.IsName (databaseName ++ c.ending) := by
  cases c <;> exact ⟨by decide +kernel, by decide +kernel, by decide +kernel⟩

namespace Place.Serves

variable {dir : NodeNumber} {place : Place}

theorem directory (h : (databasePlace dir).Serves place) : place.directory = dir := by
  cases h <;> rfl

theorem isName (h : (databasePlace dir).Serves place) : Volume.IsName place.name := by
  cases h with
  | database => exact isName_databaseName
  | companion c => exact isName_companion c

end Place.Serves

namespace Volume

theorem le_fullSize_append (front back : List String) :
    fullSize front ≤ fullSize (front ++ back) := by
  unfold fullSize
  rw [List.foldl_append]
  generalize front.foldl (fun size name => size + 1 + name.utf8ByteSize) (rootSize - 1) = size
  induction back generalizing size with
  | nil => exact Nat.le_refl size
  | cons name rest ih =>
    have hrest := ih (size + 1 + name.utf8ByteSize)
    rw [List.foldl_cons]
    omega

variable {v w : Volume} {cachedir : Path} {dir id : NodeNumber} {place : Place}
  {old new file : StoredFile}

/-! ## Seats -/

/-- A cache directory, reached through directories alone, in which nothing but files have the names
of a database and its companions. -/
structure Seat (v : Volume) (cachedir : Path) (dir : NodeNumber) : Prop where
  closed : v.Closed
  way : v.descend root cachedir = .ok (.arrived (.node dir))
  directory : v.isDirectory dir
  files : ∀ place, (databasePlace dir).Serves place → ∀ id, v.occupant? place = some id →
    ∃ file, v.file? id = some file

namespace Seat

theorem isDirectory (h : v.Seat cachedir dir) (hserves : (databasePlace dir).Serves place) :
    v.isDirectory place.directory := hserves.directory ▸ h.directory

/-- A change that leaves the names of directories and links leaves the seat. -/
theorem keep (h : v.Seat cachedir dir) (hkeeps : Keeps (fun id => v.file? id = none) v w)
    (hclosed : w.Closed) (hfiles : ∀ place, (databasePlace dir).Serves place →
      ∀ id, w.occupant? place = some id → ∃ file, w.file? id = some file) :
    w.Seat cachedir dir where
  closed := hclosed
  way := hkeeps.descend h.closed (fun _ hid => hid) h.closed.root h.way
    (.node (file?_of_isDirectory h.directory))
  directory := (hkeeps.isDirectory h.directory).1
  files := hfiles

theorem setFile (h : v.Seat cachedir dir) (hfile : v.file? id = some old) (new : StoredFile) :
    (v.setFile id new).Seat cachedir dir := by
  have hkeeps : Keeps (fun id => v.file? id = none) v (v.setFile id new) := .setFile hfile new
  refine h.keep hkeeps (h.closed.setFile hfile new) fun place hserves other hother => ?_
  rw [occupant?_setFile hfile] at hother
  obtain ⟨found, hfound⟩ := h.files place hserves other hother
  exact hkeeps.file? hfound

theorem addFile (h : v.Seat cachedir dir) (hserves : (databasePlace dir).Serves place)
    (hfree : v.occupant? place = none) (new : StoredFile) :
    (v.addNode place (.file new)).Seat cachedir dir := by
  have hdir := h.isDirectory hserves
  have hbare : (FileNode.file new).IsBare := nofun
  have hkeeps : Keeps (fun id => v.file? id = none) v (v.addNode place (.file new)) :=
    .addNode hdir hbare hfree
  refine h.keep hkeeps (h.closed.addNode hdir hbare nofun) fun other hother id hid => ?_
  rw [occupant?_addNode hdir hbare hfree] at hid
  split at hid
  · obtain rfl := Option.some.inj hid
    refine ⟨new, file?_eq_some_iff.2 ?_⟩
    obtain ⟨above, members, hnode⟩ := isDirectory_iff.1 hdir
    rw [node?_addNode hdir, if_neg (ne_freshId hnode).symm, if_pos rfl]
  · obtain ⟨found, hfound⟩ := h.files other hother id hid
    exact hkeeps.file? hfound

theorem removeName (h : v.Seat cachedir dir) (hserves : (databasePlace dir).Serves place) :
    (v.removeName place).Seat cachedir dir := by
  have hdir := h.isDirectory hserves
  have hkeeps : Keeps (fun id => v.file? id = none) v (v.removeName place) :=
    .removeName hdir fun id hid hnone => by
      obtain ⟨found, hfound⟩ := h.files place hserves id hid
      rw [hfound] at hnone
      cases hnone
  refine h.keep hkeeps (h.closed.removeName hdir) fun other hother id hid => ?_
  rw [occupant?_removeName hdir] at hid
  split at hid
  · cases hid
  · obtain ⟨found, hfound⟩ := h.files other hother id hid
    exact hkeeps.file? hfound

/-- A name for a file has one, or gets a new one. -/
theorem fileAt (h : v.Seat cachedir dir) (hserves : (databasePlace dir).Serves place) :
    (∃ id file, v.occupant? place = some id ∧ v.file? id = some file ∧
      v.fileAt place = .ok (id, v)) ∨
    (v.occupant? place = none ∧
      v.fileAt place = .ok (v.freshId, v.addNode place (.file ⟨.bytes [], defaultTime⟩))) := by
  unfold Volume.fileAt
  rw [if_neg (by simp [hserves.isName.short])]
  cases hoccupant : v.occupant? place with
  | none => exact .inr ⟨rfl, rfl⟩
  | some id =>
    obtain ⟨file, hfile⟩ := h.files place hserves id hoccupant
    refine .inl ⟨id, file, rfl, hfile, ?_⟩
    dsimp only
    rw [file?_eq_some_iff.1 hfile]

/-! ## Finding the database -/

theorem makeDirectory (h : v.Seat cachedir dir) (hallow : allow cachedir = .ok ()) :
    v.makeDirectory cachedir = .error .alreadyExists := by
  unfold Volume.makeDirectory
  rw [hallow]
  dsimp only
  -- slashes at the end do not count
  rw [show (cachedir.reverse.dropWhile fun part => part = "").reverse
    = cachedir.rdropWhile fun part => part = "" from rfl]
  obtain ⟨blanks, hblanks⟩ := List.rdropWhile_prefix (fun part => part = "") cachedir
  have hlast := List.rdropWhile_last_not (fun part => part = "") cachedir
  generalize cachedir.rdropWhile (fun part => part = "") = trimmed at hblanks hlast ⊢
  have hway := h.way
  rw [← hblanks] at hway
  rcases List.eq_nil_or_concat trimmed with rfl | ⟨front, name, rfl⟩
  · have hroot : v.descend root (List.dropLast []) = .ok (.arrived (.node root)) := rfl
    rw [show endsInNoName [] = true from rfl, if_pos rfl,
      directoryOf_of_descend hroot h.closed.root]
  rw [List.concat_eq_append] at hway hblanks hlast ⊢
  rw [List.append_assoc] at hway
  obtain ⟨mid, hmid, hfront, hback⟩ := descend_front h.closed h.closed.root hway h.directory
  split
  · rw [List.dropLast_concat, directoryOf_of_descend hfront hmid]
  next hends =>
  have hends : name ≠ "." ∧ name ≠ ".." := by
    simpa [endsInNoName, not_or] using hends
  have hidle : Path.isIdle name = false := by
    have hblank := hlast (List.append_ne_nil_of_right_ne_nil _ (List.cons_ne_nil _ _))
    rw [List.getLast_concat, decide_eq_true_iff] at hblank
    simp [Path.isIdle, hblank, hends.1]
  obtain ⟨next, hleads, _⟩ := exists_leads hback h.directory
  cases hleads with
  | idle hnidle =>
    rw [hidle] at hnidle
    cases hnidle
  | up _ hup => exact absurd hup hends.2
  | name hname hoccupant _ =>
    have hplace : v.placeOf (front ++ [name]) = .ok ⟨mid, name⟩ :=
      placeOf_append hname (allow_front ⟨blanks, hblanks⟩ hallow) hfront hmid
    unfold makeNode
    rw [hplace]
    dsimp only
    rw [hoccupant]

/-- There is no directory to make. -/
theorem makeDirectories (h : v.Seat cachedir dir) (hpath : CachePath cachedir) :
    v.makeDirectories cachedir = (.ok (), v) := by
  have hallow := hpath.allowed cachedir List.mem_cons_self
  have hexists := h.makeDirectory hallow
  have hholds : v.holdsDirectory cachedir = true := by
    have hfind : v.find cachedir = .ok dir := by
      unfold find reach
      rw [hallow]
      dsimp only
      rw [follow_of_descend h.way]
    unfold holdsDirectory
    rw [hfind]
    exact h.directory
  unfold Volume.makeDirectories makeAlong
  rw [hexists]
  dsimp only
  unfold ensureDirectory
  rw [hexists]
  dsimp only
  rw [if_pos hholds]

/-- What lies in the cache directory is reached through the parts of its path, but for an empty one
at the end, which leads nowhere. -/
theorem exists_join (h : v.Seat cachedir dir) (name : String) :
    ∃ front : Path, cachedir.join name = front ++ [name] ∧ front <+: cachedir ∧
      v.descend root front = .ok (.arrived (.node dir)) ∧ front.names = cachedir.names := by
  unfold Path.join
  split
  · next hlast =>
    obtain ⟨front, rfl⟩ := List.getLast?_eq_some_iff.1 hlast
    obtain ⟨mid, hmid, hfront, hback⟩ :=
      descend_front h.closed h.closed.root h.way h.directory
    obtain rfl : mid = dir := by
      cases hback
      rfl
    refine ⟨front, by rw [List.dropLast_concat], List.prefix_append _ _, hfront, ?_⟩
    rw [Path.names, Path.names, List.filter_append]
    exact (List.append_nil _).symm
  · exact ⟨cachedir, rfl, List.prefix_rfl, h.way, rfl⟩

theorem placeOf_join (h : v.Seat cachedir dir) {name : String} (hname : IsName name)
    (hallow : allow (cachedir.join name) = .ok ()) :
    v.placeOf (cachedir.join name) = .ok ⟨dir, name⟩ := by
  obtain ⟨front, hjoin, _, hfront, _⟩ := h.exists_join name
  rw [hjoin] at hallow ⊢
  exact placeOf_append hname hallow hfront h.directory

/-- What is no link when it is looked at. -/
theorem sight?_of_placeOf {names : List String} (hplace : v.placeOf names = .ok place)
    (hlink : ∀ id, v.occupant? place = some id → ∀ target, v.node? id ≠ some (.link target)) :
    v.sight? names = some .other := by
  unfold sight?
  rw [hplace]
  dsimp only
  cases hoccupant : v.occupant? place with
  | none => rfl
  | some id =>
    rw [Option.bind_some]
    split
    · next target hnode => exact absurd hnode (hlink id hoccupant target)
    · rfl

/-- On a way without links a database is looked for under the names of the directories. -/
theorem trace_append {names : List String} {here : NodeNumber} {path : Path}
    (hnames : v.descend root names = .ok (.arrived (.node here))) (hhere : v.isDirectory here)
    (hpath : v.descend here path = .ok (.arrived (.node dir))) (hdir : v.isDirectory dir)
    (hplain : ".." ∉ path) (hallow : allow (names ++ path.names) = .ok ())
    (hsize : fullSize (names ++ path.names) < traceLimit) (last : Path) :
    v.trace names (path ++ last) = v.trace (names ++ path.names) last ∧
      v.descend root (names ++ path.names) = .ok (.arrived (.node dir)) := by
  induction path generalizing names here with
  | nil =>
    cases hpath
    rw [show Path.names [] = [] from rfl, List.append_nil]
    exact ⟨rfl, hnames⟩
  | cons part rest ih =>
    have hplain' : ".." ∉ rest := fun h => hplain (List.mem_cons_of_mem part h)
    obtain ⟨next, hleads, hrest⟩ := exists_leads hpath hdir
    rw [List.cons_append, trace]
    cases hleads with
    | idle hidle =>
      rw [if_pos hidle]
      rw [Path.names_cons_of_idle hidle] at hallow hsize ⊢
      exact ih hnames hhere hrest hplain' hallow hsize
    | up _ hup => exact absurd (hup ▸ List.mem_cons_self) hplain
    | name hname hoccupant hnext =>
      rw [Path.names_cons hname.idle, List.append_cons names part (Path.names rest)]
        at hallow hsize ⊢
      have hthere : allow (names ++ [part]) = .ok () :=
        allow_front (List.prefix_append _ _) hallow
      have hsight : v.sight? (names ++ [part]) = some .other := by
        refine sight?_of_placeOf (placeOf_append hname hthere hnames hhere) ?_
        intro id hid target hnode
        rw [hoccupant] at hid
        obtain rfl := Option.some.inj hid
        obtain ⟨above, members, hdirectory⟩ := isDirectory_iff.1 hnext
        rw [hdirectory] at hnode
        cases hnode
      have hlong : ¬ traceLimit ≤ fullSize (names ++ [part]) := by
        have := le_fullSize_append (names ++ [part]) (Path.names rest)
        omega
      have hstep : v.descend root (names ++ [part]) = .ok (.arrived (.node next)) := by
        rw [descend_append hnames hhere]
        exact Leads.descend (.name hname hoccupant hnext) []
      rw [if_neg (by simp [hname.idle]), if_neg hname.up]
      dsimp only
      rw [if_neg hlong, hsight]
      exact ih hstep hnext hrest hplain' hallow hsize

/-- The database is looked for in the directory itself. -/
theorem locate (h : v.Seat cachedir dir) (hpath : CachePath cachedir) :
    v.locate (databasePath cachedir) = some (cacheNames cachedir) ∧
      v.placeOf (cacheNames cachedir) = .ok (databasePlace dir) := by
  obtain ⟨front, hjoin, hpart, hfront, hsame⟩ := h.exists_join databaseName
  have hallow : allow (cacheNames cachedir) = .ok () :=
    hpath.allowed _ (List.mem_cons_of_mem _ List.mem_cons_self)
  have hshort := hpath.short
  have hlimit : databasePathLimit < traceLimit := by decide
  have hsize : fullSize front.names ≤ fullSize (cacheNames cachedir) :=
    hsame ▸ le_fullSize_append cachedir.names [databaseName]
  have hnames : allow front.names = .ok () :=
    hsame ▸ allow_front (List.prefix_append _ _) hallow
  have hroot : v.descend root ([] : List String) = .ok (.arrived (.node root)) := rfl
  obtain ⟨htrace, hway⟩ := trace_append hroot h.closed.root hfront h.directory
    (fun hup => hpath.plain (hpart.subset hup)) hnames
    (by rw [List.nil_append]; omega) [databaseName]
  rw [List.nil_append, hsame] at htrace hway
  have hname : IsName databaseName := isName_databaseName
  have hplace : v.placeOf (cacheNames cachedir) = .ok (databasePlace dir) :=
    placeOf_append hname hallow hway h.directory
  have hsight : v.sight? (cacheNames cachedir) = some .other := by
    refine sight?_of_placeOf hplace fun id hid target hnode => ?_
    obtain ⟨file, hfile⟩ := h.files _ .database id hid
    rw [file?_eq_some_iff.1 hfile] at hnode
    cases hnode
  have hends : v.trace cachedir.names [databaseName] = some (.ended (cacheNames cachedir)) := by
    rw [trace, if_neg (by simp [hname.idle]), if_neg hname.up]
    dsimp only
    rw [show cachedir.names ++ [databaseName] = cacheNames cachedir from rfl,
      if_neg (by omega), hsight]
    rfl
  refine ⟨?_, hplace⟩
  rw [Volume.locate, maxDatabaseLinks, locateFrom, databasePath, hjoin, htrace, hends]
  dsimp only
  rw [if_pos hshort]

/-- Opening the database takes its file, or makes an empty one. -/
theorem openDatabase (h : v.Seat cachedir dir) (hpath : CachePath cachedir) :
    v.openDatabase (databasePath cachedir) =
      match v.fileAt (databasePlace dir) with
      | .error _ => none
      | .ok (id, w) => some (databasePlace dir, id, w) := by
  obtain ⟨hlocate, hplace⟩ := h.locate hpath
  cases hat : v.fileAt (databasePlace dir) with
  | error e => simp only [Volume.openDatabase, hlocate, hplace, hat]
  | ok found => simp only [Volume.openDatabase, hlocate, hplace, hat]

/-! ## Deleting the database -/

/-- A name of the database can be taken away whether or not it is free. -/
theorem remove (h : v.Seat cachedir dir) (hserves : (databasePlace dir).Serves place)
    (hallow : allow (cachedir.join place.name) = .ok ()) :
    (v.occupant? place = none ∧ v.remove (cachedir.join place.name) = .error .notFound) ∨
      v.remove (cachedir.join place.name) = .ok (v.removeName place) := by
  have hplace : v.placeOf (cachedir.join place.name) = .ok place := by
    rw [h.placeOf_join hserves.isName hallow]
    exact congrArg Except.ok (Place.eq_of_parts hserves.directory.symm rfl)
  unfold Volume.remove
  rw [hplace]
  dsimp only
  cases hoccupant : v.occupant? place with
  | none => exact .inl ⟨rfl, rfl⟩
  | some id =>
    obtain ⟨file, hfile⟩ := h.files place hserves id hoccupant
    dsimp only
    rw [isDirectory_of_file hfile]
    exact .inr rfl

end Seat

end Volume

/-- Deleting one file of a database after the other leaves the seat, and frees their names. -/
theorem FileStore.deleteAll_cons {v : Volume} {cachedir : Path} {dir : NodeNumber} {place : Place}
    (h : v.Seat cachedir dir) (hserves : (databasePlace dir).Serves place)
    (hallow : Volume.allow (cachedir.join place.name) = .ok ()) (rest : List Path) :
    ∃ w : Volume, w.Seat cachedir dir ∧ w.occupant? place = none ∧
      (∀ other, v.occupant? other = none → w.occupant? other = none) ∧
      deleteAll v (cachedir.join place.name :: rest) = deleteAll w rest := by
  rw [deleteAll]
  rcases h.remove hserves hallow with ⟨hfree, hmissing⟩ | hremoved
  · exact ⟨v, h, hfree, fun _ hother => hother, by rw [hmissing]⟩
  · have hdir := h.isDirectory hserves
    refine ⟨v.removeName place, h.removeName hserves, ?_, fun other hother => ?_, by rw [hremoved]⟩
    · rw [Volume.occupant?_removeName hdir, if_pos rfl]
    · rw [Volume.occupant?_removeName hdir]
      split
      · rfl
      · exact hother

/-- The database and its log are deleted. -/
theorem Volume.Seat.deleteAll {v : Volume} {cachedir : Path} {dir : NodeNumber}
    (h : v.Seat cachedir dir) (hpath : CachePath cachedir) :
    ∃ w : Volume, FileStore.deleteAll v (databaseFiles cachedir) = (.ok (), w) ∧
      w.Seat cachedir dir ∧ w.occupant? (databasePlace dir) = none := by
  have hallow : ∀ path ∈ databaseFiles cachedir, Volume.allow path = .ok () := fun path hfile =>
    hpath.allowed path (List.mem_cons_of_mem _ (List.mem_cons_of_mem _ hfile))
  obtain ⟨w₁, h₁, hfree₁, _, heq₁⟩ := FileStore.deleteAll_cons h .database
    (hallow _ (by simp [databaseFiles, databasePath, databasePlace]))
    [companionPath cachedir .log, companionPath cachedir .logIndex]
  obtain ⟨w₂, h₂, _, hkept₂, heq₂⟩ := FileStore.deleteAll_cons h₁ (.companion .log)
    (hallow _ (by simp [databaseFiles, companionPath, Place.companion, databasePlace]))
    [companionPath cachedir .logIndex]
  obtain ⟨w₃, h₃, _, hkept₃, heq₃⟩ := FileStore.deleteAll_cons h₂ (.companion .logIndex)
    (hallow _ (by simp [databaseFiles, companionPath, Place.companion, databasePlace])) []
  refine ⟨w₃, ?_, h₃, hkept₃ _ (hkept₂ _ hfree₁)⟩
  exact ((heq₁.trans heq₂).trans heq₃)

namespace Volume

variable {v w : Volume} {cachedir : Path} {dir id : NodeNumber} {place : Place}
  {old new file : StoredFile}

/-! ## Getting the database ready -/

/-- A seat whose database has a file. -/
structure Houses (v : Volume) (cachedir : Path) (dir id : NodeNumber) (file : StoredFile) :
    Prop where
  seat : v.Seat cachedir dir
  occupied : v.occupant? (databasePlace dir) = some id
  file : v.file? id = some file

theorem Houses.setFile (h : v.Houses cachedir dir id file) (new : StoredFile) :
    (v.setFile id new).Houses cachedir dir id new where
  seat := h.seat.setFile h.file new
  occupied := by rw [occupant?_setFile h.file, h.occupied]
  file := by rw [file?_eq_some_iff, node?_setFile h.file, if_pos rfl]

/-- Its file is the one that is found, or the empty one that is made. -/
theorem Seat.houses_fileAt (h : v.Seat cachedir dir) :
    ∃ id file w, v.fileAt (databasePlace dir) = .ok (id, w) ∧ w.Houses cachedir dir id file ∧
      (v.occupant? (databasePlace dir) = some id ∧ v.file? id = some file ∧ w = v ∨
        v.occupant? (databasePlace dir) = none ∧ file = ⟨.bytes [], defaultTime⟩ ∧
          w = v.addNode (databasePlace dir) (.file file)) := by
  rcases h.fileAt .database with ⟨id, file, hoccupant, hfile, hat⟩ | ⟨hfree, hat⟩
  · exact ⟨id, file, v, hat, ⟨h, hoccupant, hfile⟩, .inl ⟨hoccupant, hfile, rfl⟩⟩
  · have hbare : (FileNode.file ⟨.bytes [], defaultTime⟩).IsBare := nofun
    have hdir : v.isDirectory (databasePlace dir).directory := h.directory
    refine ⟨_, _, _, hat, ⟨h.addFile .database hfree _, ?_, ?_⟩, .inr ⟨hfree, rfl, rfl⟩⟩
    · rw [occupant?_addNode hdir hbare hfree, if_pos rfl]
    · obtain ⟨above, members, hnode⟩ := isDirectory_iff.1 hdir
      rw [file?_eq_some_iff, node?_addNode hdir, if_neg (ne_freshId hnode).symm, if_pos rfl]

namespace Houses

theorem beside (h : v.Houses cachedir dir id file) : v.Beside id file dir :=
  ⟨h.file, h.seat.directory⟩

theorem removeName (h : v.Houses cachedir dir id file) (c : Companion) :
    (v.removeName ((databasePlace dir).companion c)).Houses cachedir dir id file where
  seat := h.seat.removeName (.companion c)
  occupied := by
    have hdir : v.isDirectory ((databasePlace dir).companion c).directory := h.seat.directory
    rw [occupant?_removeName hdir, if_neg (Place.companion_ne c), h.occupied]
  file := by
    have hbeside : v.Beside id file ((databasePlace dir).companion c).directory := h.beside
    exact hbeside.removeName.file

theorem fileAt (h : v.Houses cachedir dir id file) (c : Companion) :
    ∃ made w, v.fileAt ((databasePlace dir).companion c) = .ok (made, w) ∧
      w.Houses cachedir dir id file := by
  rcases h.seat.fileAt (.companion c) with ⟨made, found, _, _, hat⟩ | ⟨hfree, hat⟩
  · exact ⟨made, v, hat, h⟩
  · have hdir : v.isDirectory ((databasePlace dir).companion c).directory := h.seat.directory
    have hbare : (FileNode.file ⟨.bytes [], defaultTime⟩).IsBare := nofun
    refine ⟨_, _, hat, h.seat.addFile (.companion c) hfree _, ?_, ?_⟩
    · rw [occupant?_addNode hdir hbare hfree, if_neg (Place.companion_ne c), h.occupied]
    · have hbeside : v.Beside id file ((databasePlace dir).companion c).directory := h.beside
      exact (hbeside.addNode _).file

/-- What stands in the place of a companion is a file. -/
theorem ownFile?_of_stands (h : v.Houses cachedir dir id file) {c : Companion}
    (hstands : v.stands ((databasePlace dir).companion c) = true) :
    ∃ found, v.ownFile? ((databasePlace dir).companion c) = some found := by
  have hname := isName_companion c
  unfold ownFile?
  cases hoccupant : v.occupant? ((databasePlace dir).companion c) with
  | none =>
    have hreach : v.follow maxLinks dir [databaseName ++ c.ending]
        = .ok (.free ((databasePlace dir).companion c)) := by
      refine follow_of_descend ?_ maxLinks
      rw [descend, if_neg (by simp [hname.idle]), if_neg hname.up, if_neg (by simp [hname.short]),
        show v.occupant? ⟨dir, databaseName ++ c.ending⟩ = none from hoccupant]
      rfl
    unfold stands at hstands
    rw [show v.follow maxLinks ((databasePlace dir).companion c).directory
      [((databasePlace dir).companion c).name] = _ from hreach] at hstands
    cases hstands
  | some other =>
    obtain ⟨found, hfound⟩ := h.seat.files _ (.companion c) other hoccupant
    exact ⟨found, hfound⟩

theorem not_namesDirectory (h : v.Houses cachedir dir id file) (c : Companion) :
    v.namesDirectory ((databasePlace dir).companion c) = false := by
  unfold namesDirectory
  split
  · next other hoccupant =>
    obtain ⟨found, hfound⟩ := h.seat.files _ (.companion c) other hoccupant
    exact isDirectory_of_file hfound
  · rfl

theorem settleJournal (h : v.Houses cachedir dir id file) :
    ∃ w, v.settleJournal (databasePlace dir) = (true, w) ∧ w.Houses cachedir dir id file := by
  unfold Volume.settleJournal
  dsimp only
  split
  · next hstands =>
    obtain ⟨found, hfound⟩ := h.ownFile?_of_stands hstands
    rw [hfound]
    refine ⟨_, rfl, ?_⟩
    split
    · exact h
    · exact h.removeName .journal
  · exact ⟨v, rfl, h⟩

theorem takeLog (h : v.Houses cachedir dir id file) :
    ∃ w, v.takeLog (databasePlace dir) = (true, w) ∧ w.Houses cachedir dir id file := by
  obtain ⟨_, w₁, hlog, h₁⟩ := h.fileAt .log
  obtain ⟨_, w₂, hindex, h₂⟩ := h₁.fileAt .logIndex
  unfold Volume.takeLog
  rw [hlog]
  dsimp only
  rw [hindex]
  exact ⟨_, rfl, (h₂.removeName .log).removeName .logIndex⟩

theorem format (h : v.Houses cachedir dir id file) :
    ∃ w, v.format (databasePlace dir) id = (true, w) ∧
      w.Houses cachedir dir id ⟨.database .blank, defaultTime⟩ := by
  unfold Volume.format
  dsimp only
  generalize hsettled : (if v.stands ((databasePlace dir).companion .journal)
      && !v.namesDirectory ((databasePlace dir).companion .journal)
    then v.removeName ((databasePlace dir).companion .journal) else v) = settled
  have h₁ : settled.Houses cachedir dir id file := by
    rw [← hsettled]
    split
    · exact h.removeName .journal
    · exact h
  rw [h₁.not_namesDirectory .log, Bool.and_false, if_neg Bool.false_ne_true]
  generalize hcleared : (if settled.stands ((databasePlace dir).companion .log)
    then settled.removeName ((databasePlace dir).companion .log) else settled) = cleared
  have h₂ : cleared.Houses cachedir dir id file := by
    rw [← hcleared]
    split
    · exact h₁.removeName .log
    · exact h₁
  obtain ⟨_, w, hjournal, hw⟩ := h₂.fileAt .journal
  rw [hjournal]
  exact ⟨_, rfl, (hw.removeName .journal).setFile _⟩

/-- **Getting ready.**  The database stays what it is, and work can begin unless it cannot be
read. -/
theorem ready (h : v.Houses cachedir dir id file) :
    ∃ begun w now, v.ready (databasePlace dir) id = (begun, w) ∧ w.Houses cachedir dir id now ∧
      now.content.asDatabase = file.content.asDatabase ∧
      (begun = false → file.content.asDatabase = .unreadable) := by
  obtain ⟨content, modified⟩ := file
  obtain ⟨settled, hsettled, h₁⟩ := h.settleJournal
  obtain ⟨taken, htaken, h₂⟩ := h₁.takeLog
  unfold Volume.ready
  rw [h.file, Option.map_some]
  cases content with
  | database held =>
    dsimp only
    rw [hsettled]
    exact ⟨true, taken, _, htaken, h₂, rfl, nofun⟩
  | bytes data =>
    dsimp only
    split
    · next hblank =>
      obtain ⟨made, hmade, h₃⟩ := h.format
      obtain ⟨logged, hlogged, h₄⟩ := h₃.takeLog
      rw [hmade]
      exact ⟨true, logged, _, hlogged, h₄, hblank.symm, nofun⟩
    · next hblank =>
      have hunreadable : (Content.bytes data).asDatabase = .unreadable := by
        match data with
        | [] => exact absurd rfl hblank
        | [_] => exact absurd rfl hblank
        | _ :: _ :: _ => rfl
      rw [hsettled]
      dsimp only
      refine ⟨false, _, ⟨.bytes data, modified⟩, rfl, ?_, rfl, fun _ => hunreadable⟩
      split
      · rw [htaken]
        exact h₂
      · exact h₁

end Houses

end Volume

end BlockIndex
