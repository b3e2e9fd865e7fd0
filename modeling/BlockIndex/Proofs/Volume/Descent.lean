import BlockIndex.Proofs.Volume.Naming

/-!
# Walks through a volume

A walk takes a path part by part.  A part leads on to a directory, or the walk ends at it: at a free
name, at a file or at a link.  A way without links can thus be cut anywhere, and a walk comes as far
as before in a volume where nothing but files have lost their names.

* `Volume.Leads`   one part of a path, from a directory to a directory;
* `Volume.Ends`    one part of a path at which the walk ends.

Main statements: `Volume.descend_cons_eq_ok_iff`, `Volume.descend_front`, `Volume.Keeps.descend`,
`Volume.Keeps.find`.
-/

namespace BlockIndex

/-! ## Texts of paths -/

theorem Path.joinSlash_front (front back : List (List Char)) :
    joinSlash front <+: joinSlash (front ++ back) := by
  induction front with
  | nil => exact List.nil_prefix
  | cons part rest ih =>
    cases rest with
    | nil =>
      cases back with
      | nil => exact List.prefix_rfl
      | cons next more => exact List.prefix_append part _
    | cons next more =>
      exact (List.prefix_append_right_inj part).2 (List.cons_prefix_cons.2 ⟨rfl, ih⟩)

namespace Volume

theorem allow_eq_ok_iff {path : Path} : allow path = .ok () ↔
    Char.ofNat 0 ∉ path.text.toList ∧ rootSize + path.text.utf8ByteSize < pathLimit := by
  unfold allow
  split
  · next hzero => simpa using fun h => absurd (List.contains_iff_mem.1 hzero) h
  · next hzero =>
    have hzero' : Char.ofNat 0 ∉ path.text.toList := fun h =>
      hzero (List.contains_iff_mem.2 h)
    split
    · next hlong => simp only [reduceCtorEq, false_iff, not_and]; omega
    · next hshort => simp only [true_iff]; exact ⟨hzero', by omega⟩

/-- A path can be asked for if a longer one can. -/
theorem allow_front {front path : Path} (h : front <+: path) (hpath : allow path = .ok ()) :
    allow front = .ok () := by
  obtain ⟨back, rfl⟩ := h
  obtain ⟨more, hmore⟩ := Path.joinSlash_front (front.map String.toList) (back.map String.toList)
  have htext : Path.text (front ++ back) = front.text ++ String.ofList more := by
    rw [Path.text, Path.text, List.map_append, ← hmore, String.ofList_append]
  rw [allow_eq_ok_iff, htext, String.toList_append, String.utf8ByteSize_append] at hpath
  exact allow_eq_ok_iff.2 ⟨fun hzero => hpath.1 (List.mem_append_left _ hzero), by omega⟩

variable {v : Volume} {here mid dir : NodeNumber} {part : String} {front back path : Path}

/-! ## One part of a path -/

/-- A name as a directory gives it. -/
structure IsName (name : String) : Prop where
  idle : Path.isIdle name = false
  up : name ≠ ".."
  short : isTooLong name = false

/-- One part of a path leads from a directory to a directory. -/
inductive Leads (v : Volume) (here : NodeNumber) (part : String) : NodeNumber → Prop where
  | idle (hidle : Path.isIdle part = true) : Leads v here part here
  | up (hidle : Path.isIdle part = false) (hup : part = "..") : Leads v here part (v.above here)
  | name {next : NodeNumber} (hname : IsName part)
    (hoccupant : v.occupant? ⟨here, part⟩ = some next) (hnext : v.isDirectory next) : Leads v here part next

/-- One part of a path, with the parts after it, leads to no directory, and the walk ends there. -/
inductive Ends (v : Volume) (here : NodeNumber) (part : String) : Path → Descent → Prop where
  | free (hname : IsName part) (hfree : v.occupant? ⟨here, part⟩ = none) :
    Ends v here part [] (.arrived (.free ⟨here, part⟩))
  | file {id : NodeNumber} {file : StoredFile} (hname : IsName part)
    (hoccupant : v.occupant? ⟨here, part⟩ = some id) (hfile : v.file? id = some file) :
    Ends v here part [] (.arrived (.node id))
  | link {id : NodeNumber} {target : Path} (hname : IsName part)
    (hoccupant : v.occupant? ⟨here, part⟩ = some id) (hlink : v.node? id = some (.link target))
    (rest : Path) : Ends v here part rest (.link (target ++ rest))

theorem Leads.isDirectory {next : NodeNumber} (h : v.Leads here part next) (hclosed : v.Closed)
    (hhere : v.isDirectory here) : v.isDirectory next := by
  cases h with
  | idle _ => exact hhere
  | up _ _ => exact hclosed.above here hhere
  | name _ _ hnext => exact hnext

theorem Leads.descend {next : NodeNumber} (h : v.Leads here part next) (path : Path) :
    v.descend here (part :: path) = v.descend next path := by
  rw [Volume.descend]
  cases h with
  | idle hidle => rw [if_pos hidle]
  | up hidle hup => rw [if_neg (by simp [hidle]), if_pos hup]
  | name hname hoccupant hnext =>
    obtain ⟨above, members, hnode⟩ := isDirectory_iff.1 hnext
    rw [if_neg (by simp [hname.idle]), if_neg hname.up, if_neg (by simp [hname.short]), hoccupant]
    dsimp only
    rw [hnode]

theorem Ends.descend {reached : Descent} (h : v.Ends here part path reached) :
    v.descend here (part :: path) = .ok reached := by
  rw [Volume.descend]
  cases h with
  | free hname hfree =>
    rw [if_neg (by simp [hname.idle]), if_neg hname.up, if_neg (by simp [hname.short]), hfree]
    rfl
  | file hname hoccupant hfile =>
    rw [if_neg (by simp [hname.idle]), if_neg hname.up, if_neg (by simp [hname.short]), hoccupant]
    dsimp only
    rw [file?_eq_some_iff.1 hfile]
    rfl
  | link hname hoccupant hlink =>
    rw [if_neg (by simp [hname.idle]), if_neg hname.up, if_neg (by simp [hname.short]), hoccupant]
    dsimp only
    rw [hlink]

/-- **How a walk takes the first part of a path.** -/
theorem descend_cons_eq_ok_iff {reached : Descent} :
    v.descend here (part :: path) = .ok reached ↔
      (∃ next, v.Leads here part next ∧ v.descend next path = .ok reached) ∨
        v.Ends here part path reached := by
  constructor
  · intro h
    rw [Volume.descend] at h
    split at h
    · next hidle => exact .inl ⟨here, .idle hidle, h⟩
    next hidle =>
    have hidle := Bool.eq_false_iff.2 hidle
    split at h
    · next hup => exact .inl ⟨_, .up hidle hup, h⟩
    next hup =>
    split at h
    · cases h
    next hshort =>
    have hname : IsName part := ⟨hidle, hup, Bool.eq_false_iff.2 hshort⟩
    split at h
    · next hfree =>
      split at h
      · next hlast =>
        obtain rfl := List.isEmpty_iff.1 hlast
        cases h
        exact .inr (.free hname hfree)
      · cases h
    next id hoccupant =>
    split at h
    · next above members hnode =>
      exact .inl ⟨id, .name hname hoccupant (isDirectory_iff.2 ⟨_, _, hnode⟩), h⟩
    · next file hnode =>
      split at h
      · next hlast =>
        obtain rfl := List.isEmpty_iff.1 hlast
        cases h
        exact .inr (.file hname hoccupant (file?_eq_some_iff.2 hnode))
      · cases h
    · next target hnode =>
      cases h
      exact .inr (.link hname hoccupant hnode path)
    · cases h
  · rintro (⟨next, hleads, h⟩ | hends)
    · rw [hleads.descend, h]
    · exact hends.descend

/-! ## Ways without links -/

/-- The first part of a way without links to a directory. -/
theorem exists_leads (h : v.descend here (part :: path) = .ok (.arrived (.node dir)))
    (hdir : v.isDirectory dir) :
    ∃ next, v.Leads here part next ∧ v.descend next path = .ok (.arrived (.node dir)) := by
  rcases descend_cons_eq_ok_iff.1 h with hleads | hends
  · exact hleads
  · cases hends with
    | file _ _ hfile =>
      -- a file is not the directory that is reached
      rw [isDirectory_of_file hfile] at hdir
      cases hdir

theorem descend_append (h : v.descend here front = .ok (.arrived (.node mid)))
    (hmid : v.isDirectory mid) (back : Path) :
    v.descend here (front ++ back) = v.descend mid back := by
  induction front generalizing here with
  | nil =>
    cases h
    rfl
  | cons part rest ih =>
    obtain ⟨next, hleads, hrest⟩ := exists_leads h hmid
    rw [List.cons_append, hleads.descend]
    exact ih hrest

/-- What a way without links begins with leads to a directory. -/
theorem descend_front (hclosed : v.Closed) (hhere : v.isDirectory here)
    (h : v.descend here (front ++ back) = .ok (.arrived (.node dir))) (hdir : v.isDirectory dir) :
    ∃ mid, v.isDirectory mid ∧ v.descend here front = .ok (.arrived (.node mid)) ∧
      v.descend mid back = .ok (.arrived (.node dir)) := by
  induction front generalizing here with
  | nil => exact ⟨here, hhere, rfl, h⟩
  | cons part rest ih =>
    obtain ⟨next, hleads, hrest⟩ := exists_leads h hdir
    obtain ⟨mid, hmid, hfront, hback⟩ := ih (hleads.isDirectory hclosed hhere) hrest
    exact ⟨mid, hmid, (hleads.descend rest).trans hfront, hback⟩

theorem follow_of_descend {arrival : Arrival} (h : v.descend here path = .ok (.arrived arrival))
    (links : Nat) : v.follow links here path = .ok arrival := by
  unfold follow
  rw [h]

theorem directoryOf_of_descend (h : v.descend root path = .ok (.arrived (.node dir)))
    (hdir : v.isDirectory dir) : v.directoryOf path = .ok dir := by
  unfold directoryOf
  rw [follow_of_descend h]
  dsimp only
  rw [if_pos hdir]

theorem placeOf_append {name : String} (hname : IsName name)
    (hallow : allow (front ++ [name]) = .ok ())
    (hfront : v.descend root front = .ok (.arrived (.node dir))) (hdir : v.isDirectory dir) :
    v.placeOf (front ++ [name]) = .ok ⟨dir, name⟩ := by
  unfold placeOf
  rw [hallow, List.getLast?_concat, List.dropLast_concat]
  dsimp only
  rw [directoryOf_of_descend hfront hdir]
  dsimp only
  rw [if_neg (by simp [hname.idle, hname.up]), if_neg (by simp [hname.short])]

/-! ## Walks after a change -/

namespace Keeps

variable {w : Volume} {named : NodeNumber → Prop} {next : NodeNumber} {reached : Descent}

theorem leads (h : Keeps named v w) (hnamed : ∀ id, v.file? id = none → named id)
    (hhere : v.isDirectory here) (hleads : v.Leads here part next) : w.Leads here part next := by
  cases hleads with
  | idle hidle => exact .idle hidle
  | up hidle hup => exact (h.isDirectory hhere).2 ▸ .up hidle hup
  | name hname hoccupant hnext =>
    have hkept := hnamed next (file?_of_isDirectory hnext)
    exact .name hname (h.name _ next hoccupant hkept) (h.isDirectory hnext).1

/-- How far a walk comes, if it comes to a link or to a node that keeps its name. -/
inductive Firm (named : NodeNumber → Prop) : Descent → Prop where
  | node {found : NodeNumber} (hfound : named found) : Firm named (.arrived (.node found))
  | link (onward : Path) : Firm named (.link onward)

theorem ends (h : Keeps named v w) (hnamed : ∀ id, v.file? id = none → named id)
    (hfirm : Firm named reached) (hends : v.Ends here part path reached) :
    w.Ends here part path reached := by
  cases hends with
  | free _ _ => cases hfirm
  | file hname hoccupant hfile =>
    cases hfirm with
    | node hfound =>
      obtain ⟨now, hnow⟩ := h.file? hfile
      exact .file hname (h.name _ _ hoccupant hfound) hnow
  | link hname hoccupant hlink =>
    have hkept := hnamed _ (by rw [Volume.file?, hlink])
    obtain ⟨now, hnow, hlike⟩ := h.node _ _ hlink
    cases hlike
    exact .link hname (h.name _ _ hoccupant hkept) hnow path

/-- **A walk comes as far as before**, if nothing but files lose their names on the way. -/
theorem descend (h : Keeps named v w) (hclosed : v.Closed)
    (hnamed : ∀ id, v.file? id = none → named id) (hhere : v.isDirectory here)
    (hreached : v.descend here path = .ok reached) (hfirm : Firm named reached) :
    w.descend here path = .ok reached := by
  induction path generalizing here with
  | nil => exact hreached
  | cons part rest ih =>
    rw [descend_cons_eq_ok_iff] at hreached ⊢
    rcases hreached with ⟨next, hleads, hrest⟩ | hends
    · exact .inl ⟨next, h.leads hnamed hhere hleads, ih (hleads.isDirectory hclosed hhere) hrest⟩
    · exact .inr (h.ends hnamed hfirm hends)

theorem follow (h : Keeps named v w) (hclosed : v.Closed)
    (hnamed : ∀ id, v.file? id = none → named id) {links : Nat} {here found : NodeNumber}
    {path : Path} (hhere : v.isDirectory here) (hfound : named found)
    (hreached : v.follow links here path = .ok (.node found)) :
    w.follow links here path = .ok (.node found) := by
  induction links generalizing here path with
  | zero =>
    unfold Volume.follow at hreached ⊢
    split at hreached
    · cases hreached
    · next arrival harrival =>
      obtain rfl := Except.ok.inj hreached
      rw [h.descend hclosed hnamed hhere harrival (.node hfound)]
    · cases hreached
  | succ links ih =>
    unfold Volume.follow at hreached ⊢
    split at hreached
    · cases hreached
    · next arrival harrival =>
      obtain rfl := Except.ok.inj hreached
      rw [h.descend hclosed hnamed hhere harrival (.node hfound)]
    · next onward honward =>
      rw [h.descend hclosed hnamed hhere honward (.link onward)]
      exact ih hclosed.root hreached

/-- **A path leads where it did**, if no more than names of files are lost, and not the one it
leads to. -/
theorem find (h : Keeps named v w) (hclosed : v.Closed)
    (hnamed : ∀ id, v.file? id = none → named id) {path : Path} {found : NodeNumber}
    (hfound : named found) (hfind : v.find path = .ok found) : w.find path = .ok found := by
  unfold Volume.find Volume.reach at hfind ⊢
  cases hallow : allow path with
  | error problem =>
    rw [hallow] at hfind
    cases hfind
  | ok _ =>
    rw [hallow] at hfind
    dsimp only at hfind ⊢
    split at hfind
    · cases hfind
    · next id hreached =>
      obtain rfl := Except.ok.inj hfind
      rw [h.follow hclosed hnamed hclosed.root hfound hreached]
    · cases hfind

end Keeps

end Volume

end BlockIndex
