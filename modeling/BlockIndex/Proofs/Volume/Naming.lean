import BlockIndex.Volume.Change

/-!
# Nodes and names of a changed volume

Which nodes there are after a file was replaced, a node added or a name taken away, and what has
which name.  A walk goes through directories and links alone, so it still comes to where it came to
as long as those keep their names.

* `FileNode.Like`   nodes of one kind;
* `Volume.Closed`   every name and every directory above is that of a node;
* `Volume.Keeps`    a volume with all nodes of another one, some of them under their names.

Main statements: `Volume.occupant?_addNode`, `Volume.Keeps.addNode`, `Volume.Keeps.removeName`.
-/

namespace BlockIndex

/-- Nodes of one kind: files, one directory with its members then and now, or one link. -/
inductive FileNode.Like : FileNode → FileNode → Prop where
  | file (old new : StoredFile) : Like (.file old) (.file new)
  | directory (above : NodeNumber) (old new : List (String × NodeNumber)) :
    Like (.directory above old) (.directory above new)
  | link (target : Path) : Like (.link target) (.link target)

theorem FileNode.Like.refl (node : FileNode) : node.Like node := by
  cases node with
  | file file => exact .file file file
  | directory above members => exact .directory above members members
  | link target => exact .link target

/-- A node without members, as those that are added. -/
def FileNode.IsBare (node : FileNode) : Prop :=
  ∀ above members, node = .directory above members → members = []

theorem Place.eq_of_parts {p q : Place} (hdirectory : p.directory = q.directory)
    (hname : p.name = q.name) : p = q := by
  cases p
  cases q
  simp_all

namespace Volume

variable {v w : Volume} {id owner : NodeNumber} {old new : StoredFile} {place : Place}
  {node : FileNode}

theorem file?_eq_some_iff : v.file? id = some old ↔ v.node? id = some (.file old) := by
  unfold file?
  constructor
  · intro h
    split at h
    · next found hnode => rw [hnode, Option.some.inj h]
    · cases h
  · intro h
    rw [h]

theorem isDirectory_iff :
    v.isDirectory owner ↔ ∃ above members, v.node? owner = some (.directory above members) := by
  unfold isDirectory
  constructor
  · intro h
    split at h
    · next above members hnode => exact ⟨above, members, hnode⟩
    · cases h
  · intro h
    obtain ⟨above, members, hnode⟩ := h
    rw [hnode]

theorem isDirectory_of_file (h : v.file? id = some old) : v.isDirectory id = false := by
  unfold isDirectory
  rw [file?_eq_some_iff.1 h]

theorem file?_of_isDirectory (h : v.isDirectory id) : v.file? id = none := by
  obtain ⟨above, members, hnode⟩ := isDirectory_iff.1 h
  unfold file?
  rw [hnode]

theorem isDirectory_of_occupant {named : NodeNumber} (h : v.occupant? place = some named) :
    v.isDirectory place.directory := by
  unfold occupant? members at h
  split at h
  · next above members hnode => exact isDirectory_iff.2 ⟨above, members, hnode⟩
  · cases h

/-! ## One change -/

theorem node?_setFile (h : v.file? id = some old) (new : StoredFile) (other : NodeNumber) :
    (v.setFile id new).node? other = if other = id then some (.file new) else v.node? other := by
  have hnode : v.nodes[id]? = some (.file old) := file?_eq_some_iff.1 h
  obtain ⟨hbound, _⟩ := Array.getElem?_eq_some_iff.1 hnode
  show (v.nodes.setIfInBounds id (.file new))[other]? = _
  rw [Array.getElem?_setIfInBounds]
  by_cases heq : other = id
  · rw [if_pos heq.symm, if_pos heq, if_pos hbound]
  · rw [if_neg (Ne.symm heq), if_neg heq]
    rfl

theorem members_setFile (h : v.file? id = some old) (new : StoredFile) (other : NodeNumber) :
    (v.setFile id new).members other = v.members other := by
  unfold members
  rw [node?_setFile h]
  by_cases heq : other = id
  · rw [if_pos heq, heq, file?_eq_some_iff.1 h]
  · rw [if_neg heq]

theorem occupant?_setFile (h : v.file? id = some old) (new : StoredFile) (place : Place) :
    (v.setFile id new).occupant? place = v.occupant? place := by
  unfold occupant?
  rw [members_setFile h]

theorem above_setFile (h : v.file? id = some old) (new : StoredFile) (other : NodeNumber) :
    (v.setFile id new).above other = v.above other := by
  unfold above
  rw [node?_setFile h]
  by_cases heq : other = id
  · rw [if_pos heq, heq, file?_eq_some_iff.1 h]
  · rw [if_neg heq]

theorem node?_setMembers (hdirectory : v.isDirectory owner) (members : List (String × NodeNumber))
    (other : NodeNumber) :
    (v.setMembers owner members).node? other
      = if other = owner then some (.directory (v.above owner) members) else v.node? other := by
  obtain ⟨above, old, hnode⟩ := isDirectory_iff.1 hdirectory
  obtain ⟨hbound, _⟩ := Array.getElem?_eq_some_iff.1 hnode
  show (v.nodes.setIfInBounds owner _)[other]? = _
  rw [Array.getElem?_setIfInBounds]
  by_cases heq : other = owner
  · rw [if_pos heq.symm, if_pos heq, if_pos hbound]
  · rw [if_neg (Ne.symm heq), if_neg heq]
    rfl

theorem members_setMembers (hdirectory : v.isDirectory owner)
    (members : List (String × NodeNumber)) (other : NodeNumber) :
    (v.setMembers owner members).members other
      = if other = owner then members else v.members other := by
  rw [Volume.members, node?_setMembers hdirectory]
  by_cases heq : other = owner
  · rw [if_pos heq, if_pos heq]
  · rw [if_neg heq, if_neg heq]
    rfl

theorem node?_freshId : v.node? v.freshId = none := Array.getElem?_size

theorem ne_freshId (h : v.node? id = some node) : id ≠ v.freshId := by
  rintro rfl
  rw [node?_freshId] at h
  cases h

theorem node?_push (node : FileNode) (other : NodeNumber) :
    (⟨v.nodes.push node⟩ : Volume).node? other
      = if other = v.freshId then some node else v.node? other := Array.getElem?_push

theorem isDirectory_push (h : v.isDirectory owner) (node : FileNode) :
    (⟨v.nodes.push node⟩ : Volume).isDirectory owner := by
  obtain ⟨above, members, hnode⟩ := isDirectory_iff.1 h
  refine isDirectory_iff.2 ⟨above, members, ?_⟩
  rw [node?_push, if_neg (ne_freshId hnode), hnode]

theorem node?_addNode (hdirectory : v.isDirectory place.directory) (node : FileNode)
    (other : NodeNumber) :
    (v.addNode place node).node? other
      = if other = place.directory then some (.directory (v.above place.directory)
          (v.members place.directory ++ [(place.name, v.freshId)]))
        else if other = v.freshId then some node else v.node? other := by
  obtain ⟨above, members, hnode⟩ := isDirectory_iff.1 hdirectory
  have habove : (⟨v.nodes.push node⟩ : Volume).above place.directory = v.above place.directory := by
    unfold Volume.above
    rw [node?_push, if_neg (ne_freshId hnode)]
  unfold addNode
  rw [node?_setMembers (isDirectory_push hdirectory node), habove, node?_push]

theorem members_addNode (hdirectory : v.isDirectory place.directory) (hbare : node.IsBare)
    (other : NodeNumber) :
    (v.addNode place node).members other
      = if other = place.directory then v.members other ++ [(place.name, v.freshId)]
        else v.members other := by
  rw [Volume.members, node?_addNode hdirectory]
  by_cases heq : other = place.directory
  · rw [if_pos heq, if_pos heq, heq]
  rw [if_neg heq, if_neg heq]
  by_cases hfresh : other = v.freshId
  · have hnone : v.members other = [] := by
      rw [Volume.members, hfresh, node?_freshId]
    rw [if_pos hfresh, hnone]
    cases node with
    | file file => rfl
    | directory above members => exact hbare above members rfl
    | link target => rfl
  · rw [if_neg hfresh]
    rfl

theorem occupant?_addNode (hdirectory : v.isDirectory place.directory) (hbare : node.IsBare)
    (hfree : v.occupant? place = none) (other : Place) :
    (v.addNode place node).occupant? other
      = if other = place then some v.freshId else v.occupant? other := by
  unfold occupant?
  rw [members_addNode hdirectory hbare]
  by_cases hdir : other.directory = place.directory
  · rw [if_pos hdir, hdir, List.find?_append, Option.map_or]
    by_cases hname : other.name = place.name
    · rw [if_pos (Place.eq_of_parts hdir hname), hname]
      rw [show ((v.members place.directory).find? fun member => member.1 = place.name).map (·.2)
        = none from hfree]
      simp
    · have hne : other ≠ place := fun heq => hname (congrArg Place.name heq)
      rw [if_neg hne]
      simp [Ne.symm hname]
  · have hne : other ≠ place := fun heq => hdir (congrArg Place.directory heq)
    rw [if_neg hdir, if_neg hne]

theorem occupant?_removeName (hdirectory : v.isDirectory place.directory) (other : Place) :
    (v.removeName place).occupant? other
      = if other = place then none else v.occupant? other := by
  unfold occupant? removeName
  rw [members_setMembers hdirectory]
  by_cases hdir : other.directory = place.directory
  · rw [if_pos hdir, hdir, List.find?_filter]
    by_cases hname : other.name = place.name
    · rw [if_pos (Place.eq_of_parts hdir hname), hname]
      simp
    · have hne : other ≠ place := fun heq => hname (congrArg Place.name heq)
      rw [if_neg hne]
      refine congrArg _ (congrArg (List.find? · _) (funext fun member => ?_))
      by_cases hmember : member.1 = other.name
      · simp [hmember, hname]
      · simp [hmember]
  · have hne : other ≠ place := fun heq => hdir (congrArg Place.directory heq)
    rw [if_neg hdir, if_neg hne]

/-! ## Closed volumes -/

/-- A volume in which every name, and every directory above another, is that of a node. -/
structure Closed (v : Volume) : Prop where
  root : v.isDirectory root
  above : ∀ id, v.isDirectory id → v.isDirectory (v.above id)
  named : ∀ id, ∀ member ∈ v.members id, (v.node? member.2).isSome

/-- What a node of a closed volume leads to. -/
def Admits (v : Volume) : FileNode → Prop
  | .directory above members =>
    v.isDirectory above ∧ ∀ member ∈ members, (v.node? member.2).isSome
  | _ => True

instance (v : Volume) (node : FileNode) : Decidable (v.Admits node) := by
  unfold Admits
  split <;> infer_instance

theorem closed_iff : v.Closed ↔ v.isDirectory root ∧ ∀ node ∈ v.nodes.toList, v.Admits node := by
  have hnode : ∀ node, node ∈ v.nodes.toList ↔ ∃ id, v.node? id = some node := by
    intro node
    rw [Array.mem_toList_iff, Array.mem_iff_getElem?]
    rfl
  constructor
  · intro h
    refine ⟨h.root, fun node hmem => ?_⟩
    obtain ⟨id, hid⟩ := (hnode node).1 hmem
    cases node with
    | file file => trivial
    | link target => trivial
    | directory above members =>
      have habove := h.above id (isDirectory_iff.2 ⟨above, members, hid⟩)
      have hnamed := h.named id
      rw [Volume.above, hid] at habove
      rw [Volume.members, hid] at hnamed
      exact ⟨habove, hnamed⟩
  · rintro ⟨hroot, hall⟩
    refine ⟨hroot, fun id hid => ?_, fun id member hmember => ?_⟩
    · obtain ⟨above, members, hdirectory⟩ := isDirectory_iff.1 hid
      rw [Volume.above, hdirectory]
      exact (hall _ ((hnode _).2 ⟨id, hdirectory⟩)).1
    · unfold Volume.members at hmember
      split at hmember
      · next above members hdirectory =>
        exact (hall _ ((hnode _).2 ⟨id, hdirectory⟩)).2 member hmember
      · cases hmember

instance (v : Volume) : Decidable v.Closed := decidable_of_iff _ closed_iff.symm

theorem Closed.setFile (h : v.Closed) (hfile : v.file? id = some old) (new : StoredFile) :
    (v.setFile id new).Closed := by
  have hkind : ∀ other, (v.setFile id new).isDirectory other = v.isDirectory other := by
    intro other
    unfold isDirectory
    rw [node?_setFile hfile]
    by_cases heq : other = id
    · rw [if_pos heq, heq, file?_eq_some_iff.1 hfile]
    · rw [if_neg heq]
  refine ⟨(hkind _).trans h.root, fun other hother => ?_, fun other member hmember => ?_⟩
  · rw [above_setFile hfile, hkind]
    exact h.above other ((hkind other).symm.trans hother)
  · rw [members_setFile hfile] at hmember
    rw [node?_setFile hfile]
    split
    · rfl
    · exact h.named other member hmember

/-- Taking names away and adding some of nodes that are there. -/
theorem Closed.setMembers (h : v.Closed) (hdirectory : v.isDirectory owner)
    {members : List (String × NodeNumber)} (hnamed : ∀ member ∈ members, (v.node? member.2).isSome) :
    (v.setMembers owner members).Closed := by
  have hnode := node?_setMembers hdirectory members
  have habove : ∀ other, (v.setMembers owner members).above other = v.above other := by
    intro other
    unfold Volume.above
    rw [hnode]
    by_cases heq : other = owner
    · rw [if_pos heq, heq]
      rfl
    · rw [if_neg heq]
  have hkind : ∀ other, (v.setMembers owner members).isDirectory other = v.isDirectory other := by
    intro other
    by_cases heq : other = owner
    · rw [heq, hdirectory, isDirectory, hnode, if_pos rfl]
    · rw [isDirectory, hnode, if_neg heq]
      rfl
  refine ⟨(hkind _).trans h.root, fun other hother => ?_, fun other member hmember => ?_⟩
  · rw [habove, hkind]
    exact h.above other ((hkind other).symm.trans hother)
  · have hthere : (v.node? member.2).isSome := by
      rw [members_setMembers hdirectory] at hmember
      split at hmember
      · exact hnamed member hmember
      · exact h.named other member hmember
    rw [hnode]
    split
    · rfl
    · exact hthere

theorem Closed.removeName (h : v.Closed) (hdirectory : v.isDirectory place.directory) :
    (v.removeName place).Closed :=
  h.setMembers hdirectory fun member hmember =>
    h.named _ member (List.mem_filter.1 hmember).1

/-- A directory that is added lies in one. -/
theorem Closed.addNode (h : v.Closed) (hdirectory : v.isDirectory place.directory)
    (hbare : node.IsBare)
    (habove : ∀ above members, node = .directory above members → v.isDirectory above) :
    (v.addNode place node).Closed := by
  have hpush := @node?_push v node
  have hthere : ∀ other, (v.node? other).isSome →
      ((⟨v.nodes.push node⟩ : Volume).node? other).isSome := by
    intro other hother
    rw [hpush]
    split
    · rfl
    · exact hother
  have hpushed : (⟨v.nodes.push node⟩ : Volume).Closed := by
    refine ⟨isDirectory_push h.root node, fun other hother => ?_, fun other member hmember => ?_⟩
    · obtain ⟨above, members, hnode⟩ := isDirectory_iff.1 hother
      have hup : (⟨v.nodes.push node⟩ : Volume).above other = above := by
        rw [Volume.above, hnode]
      rw [hup]
      rw [hpush] at hnode
      split at hnode
      · exact isDirectory_push (habove above members (Option.some.inj hnode)) node
      · have hup' := h.above other (isDirectory_iff.2 ⟨above, members, hnode⟩)
        rw [Volume.above, hnode] at hup'
        exact isDirectory_push hup' node
    · rw [Volume.members, hpush] at hmember
      by_cases heq : other = v.freshId
      · rw [if_pos heq] at hmember
        cases node with
        | file file => cases hmember
        | directory above members =>
          dsimp only at hmember
          rw [hbare above members rfl] at hmember
          cases hmember
        | link target => cases hmember
      · rw [if_neg heq] at hmember
        exact hthere _ (h.named other member hmember)
  refine hpushed.setMembers (isDirectory_push hdirectory node) fun member hmember => ?_
  rcases List.mem_append.1 hmember with hmember | hmember
  · exact hthere _ (h.named _ member hmember)
  · obtain rfl := List.mem_singleton.1 hmember
    rw [hpush, if_pos rfl]
    rfl

/-! ## What keeps its name -/

/-- A volume with all nodes of another one, and some of them under their names. -/
structure Keeps (named : NodeNumber → Prop) (v w : Volume) : Prop where
  node : ∀ id node, v.node? id = some node → ∃ now, w.node? id = some now ∧ node.Like now
  name : ∀ place id, v.occupant? place = some id → named id → w.occupant? place = some id

variable {named : NodeNumber → Prop}

theorem Keeps.setFile (hfile : v.file? id = some old) (new : StoredFile) :
    Keeps named v (v.setFile id new) where
  node other node hnode := by
    rw [node?_setFile hfile]
    split
    · next heq =>
      rw [heq, file?_eq_some_iff.1 hfile] at hnode
      obtain rfl := Option.some.inj hnode
      exact ⟨_, rfl, .file old new⟩
    · exact ⟨node, hnode, .refl node⟩
  name place id hoccupant _ := by
    rw [occupant?_setFile hfile]
    exact hoccupant

theorem Keeps.addNode (hdirectory : v.isDirectory place.directory) (hbare : node.IsBare)
    (hfree : v.occupant? place = none) : Keeps named v (v.addNode place node) where
  node other old hnode := by
    rw [node?_addNode hdirectory]
    split
    · next heq =>
      obtain ⟨above, members, hdir⟩ := isDirectory_iff.1 hdirectory
      rw [heq, hdir] at hnode
      obtain rfl := Option.some.inj hnode
      refine ⟨_, rfl, ?_⟩
      rw [show v.above place.directory = above by rw [Volume.above, hdir]]
      exact .directory above _ _
    · rw [if_neg (ne_freshId hnode)]
      exact ⟨old, hnode, .refl old⟩
  name other id hoccupant _ := by
    rw [occupant?_addNode hdirectory hbare hfree]
    split
    · next heq =>
      rw [heq, hfree] at hoccupant
      cases hoccupant
    · exact hoccupant

theorem Keeps.removeName (hdirectory : v.isDirectory place.directory)
    (hunnamed : ∀ id, v.occupant? place = some id → ¬ named id) :
    Keeps named v (v.removeName place) where
  node other old hnode := by
    rw [Volume.removeName, node?_setMembers hdirectory]
    split
    · next heq =>
      obtain ⟨above, members, hdir⟩ := isDirectory_iff.1 hdirectory
      rw [heq, hdir] at hnode
      obtain rfl := Option.some.inj hnode
      refine ⟨_, rfl, ?_⟩
      rw [show v.above place.directory = above by rw [Volume.above, hdir]]
      exact .directory above _ _
    · exact ⟨old, hnode, .refl old⟩
  name other id hoccupant hnamed := by
    rw [occupant?_removeName hdirectory]
    split
    · next heq => exact absurd hnamed (hunnamed id (heq ▸ hoccupant))
    · exact hoccupant

namespace Keeps

theorem isDirectory (h : Keeps named v w) (hid : v.isDirectory id) :
    w.isDirectory id ∧ w.above id = v.above id := by
  obtain ⟨above, members, hnode⟩ := isDirectory_iff.1 hid
  obtain ⟨now, hnow, hlike⟩ := h.node id _ hnode
  cases hlike with
  | directory _ _ new =>
    refine ⟨isDirectory_iff.2 ⟨above, new, hnow⟩, ?_⟩
    rw [Volume.above, Volume.above, hnode, hnow]

/-- Files stay files. -/
theorem file? (h : Keeps named v w) (hfile : v.file? id = some old) :
    ∃ now, w.file? id = some now := by
  obtain ⟨now, hnow, hlike⟩ := h.node id _ (file?_eq_some_iff.1 hfile)
  cases hlike with
  | file _ new => exact ⟨new, file?_eq_some_iff.2 hnow⟩

end Keeps

end Volume

end BlockIndex
