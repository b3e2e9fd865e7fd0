import BlockIndex.Proofs.Chain.Forest

/-!
# The best tip

What the best chain is at every moment: the ancestry of the tip, and the tip a highest linked record.
Among the highest the tip is the one that was seen first, unless another was put in front of it when
the assembler was seeded; `Tipped first a` names that other one.

* `meetBest_spec`      walking back to the best chain gives the whole ancestry of a record;
* `meetBest_apart`     and it ends where the best chain has another block;
* `Tipped.step`        one record more competes;
* `Tipped.insertAll`   the best chain after any number of insertions;
* `Tipped.seeded`      the best chain after a forest is replayed and its tip restored;
* `Tipped.spec`        the best chain is an ancestry, and nothing linked stands higher.
-/

namespace BlockIndex

namespace Assembler

variable {a b : Assembler} {id : NodeId} {n : Node} {height : Nat} {first : Option NodeId}

/-! ## The way back to the best chain -/

/-- The best chain is an ancestry at each of its heights. -/
def Grounded (a : Assembler) : Prop :=
  ∀ (i : Nat) (y : Hash), a.best.hashes[i]? = some y →
    Rooted a.records y (a.best.hashes.take (i + 1))

theorem hashAt?_eq {i : Nat} : a.best.hashAt? i = a.best.hashes[i]? := rfl

/-- A record with an ancestry above height zero has its parent among the records. -/
theorem Distinct.parent (hd : a.Distinct) {n : Node} {chain : List Hash}
    (hn : n.record ∈ a.records) (hchain : Rooted a.records n.hash chain)
    (hlen : chain.length = height + 2) :
    ∃ m before, n.record.isGenesis = false ∧ a.node? n.parentHash = some m ∧
      m.record ∈ a.records ∧ Rooted a.records m.hash before ∧ before.length = height + 1 ∧
      chain = before ++ [n.hash] := by
  generalize hx : n.hash = x at hchain
  cases hchain with
  | first _ _ => simp at hlen
  | @next r before hr hchild hparent =>
    have hnr : n.record = r := hd.record_eq hn hr hx
    have hnp : n.parentHash = r.parentHash := by rw [← hnr]; rfl
    rw [List.length_append, List.length_singleton] at hlen
    obtain ⟨s, hs, hhash⟩ := hparent.mem
    obtain ⟨j, m, hj, hm⟩ := mem_records_iff.1 hs
    have hmh : m.hash = r.parentHash := by rw [← hhash, ← hm]; rfl
    refine ⟨m, before, by rw [hnr]; exact hchild, ?_, mem_records_iff.2 ⟨j, m, hj, rfl⟩,
      hmh ▸ hparent, by omega, by rw [← hx]⟩
    rw [hnp]
    exact (node?_eq_some_iff hd).2 ⟨j, hj, hmh⟩

/-- The part of the best chain below the meeting, and what was walked, are the ancestry of the
record. -/
theorem meetBest_spec (hd : a.Distinct) (hg : a.Grounded) {n : Node} {chain : List Hash}
    (hn : n.record ∈ a.records) (hchain : Rooted a.records n.hash chain)
    (hlen : chain.length = height + 1) (path : List Hash) :
    a.best.hashes.take (a.meetBest height n path).2 ++ (a.meetBest height n path).1
      = chain ++ path := by
  induction height generalizing n chain path with
  | zero =>
    have hone := hchain.eq_singleton hlen
    unfold meetBest
    rw [hashAt?_eq]
    split
    · next hmeet =>
      have := hchain.unique hd.consistent (hg 0 n.hash hmeet)
      rw [this]
    · rw [hone]
      rfl
  | succ height ih =>
    unfold meetBest
    rw [hashAt?_eq]
    split
    · next hmeet =>
      have := hchain.unique hd.consistent (hg (height + 1) n.hash hmeet)
      rw [this]
    · obtain ⟨m, before, hchild, hm, hmem, hparent, hbefore, rfl⟩ := hd.parent hn hchain hlen
      rw [if_neg (by rw [hchild]; decide), hm]
      dsimp only
      rw [ih hmem hparent hbefore, List.append_assoc]
      rfl

/-- What was walked begins where the best chain has another block, or none. -/
theorem meetBest_apart (hd : a.Distinct) {n : Node} {chain : List Hash}
    (hn : n.record ∈ a.records) (hchain : Rooted a.records n.hash chain)
    (hlen : chain.length = height + 1) {path : List Hash}
    (hpath : ∀ y, path.head? = some y → a.best.hashAt? (height + 1) ≠ some y) {y : Hash}
    (hy : (a.meetBest height n path).1.head? = some y) :
    a.best.hashAt? (a.meetBest height n path).2 ≠ some y := by
  induction height generalizing n chain path with
  | zero =>
    unfold meetBest at hy ⊢
    split at hy
    · next hmeet =>
      rw [if_pos hmeet]
      exact hpath y hy
    · next hmeet =>
      rw [if_neg hmeet]
      obtain rfl : n.hash = y := Option.some.inj hy
      exact hmeet
  | succ height ih =>
    unfold meetBest at hy ⊢
    split at hy
    · next hmeet =>
      rw [if_pos hmeet]
      exact hpath y hy
    · next hmeet =>
      obtain ⟨m, before, hchild, hm, hmem, hparent, hbefore, -⟩ := hd.parent hn hchain hlen
      have hng : ¬ n.record.isGenesis = true := by rw [hchild]; decide
      rw [if_neg hng, hm] at hy
      rw [if_neg hmeet, if_neg hng, hm]
      refine ih hmem hparent hbefore ?_ hy
      intro z hz
      obtain rfl : n.hash = z := Option.some.inj hz
      exact hmeet

theorem ancestry_eq (hd : a.Distinct) {n : Node} {chain : List Hash}
    (hn : n.record ∈ a.records) (hchain : Rooted a.records n.hash chain)
    (hlen : chain.length = height + 1) (path : List Hash) :
    a.ancestry height n path = .ok (chain ++ path) := by
  induction height generalizing n chain path with
  | zero =>
    rw [hchain.eq_singleton hlen]
    rfl
  | succ height ih =>
    obtain ⟨m, before, -, hm, hmem, hparent, hbefore, rfl⟩ := hd.parent hn hchain hlen
    unfold ancestry
    rw [hm]
    dsimp only
    rw [ih hmem hparent hbefore, List.append_assoc]
    rfl

theorem tip_adopt : (a.adopt id n height).tip = some id := by
  unfold adopt
  dsimp only
  split <;> rfl

theorem best_adopt : (a.adopt id n height).best.hashes =
    a.best.hashes.take (a.meetBest height n []).2 ++ (a.meetBest height n []).1 := by
  unfold adopt
  dsimp only
  split <;> rfl

/-! ## The invariant -/

/-- A record comes before another: it was put in front, or the other was not and it was seen no
later. -/
def Before (first : Option NodeId) (t id : NodeId) : Prop :=
  some t = first ∨ (some id ≠ first ∧ t ≤ id)

/-- A record at height `k` leads: nothing linked stands higher, and it comes before everything as
high. -/
def Leads (a : Assembler) (first : Option NodeId) (t : NodeId) (k : Nat) : Prop :=
  ∀ (id : NodeId) (m : Node) (j : Nat), a.nodes[id]? = some m → m.height = some j →
    j < k ∨ (j = k ∧ Before first t id)

/-- What is known of a record that was put in front: all that links later was seen later. -/
def Early (a : Assembler) (first : Option NodeId) : Prop :=
  ∀ f, first = some f → f < a.nodes.length ∧
    ∀ (id : NodeId) (m : Node), a.nodes[id]? = some m → m.height = none → f < id

/-- The best chain is the ancestry of the tip; without a tip nothing is linked. -/
structure Rests (a : Assembler) : Prop where
  bare : a.tip = none → a.best.hashes = [] ∧
    ∀ (id : NodeId) (m : Node), a.nodes[id]? = some m → m.height = none
  held : ∀ t, a.tip = some t → ∃ (n : Node) (k : Nat), a.nodes[t]? = some n ∧
    n.height = some k ∧ Rooted a.records n.hash a.best.hashes ∧ a.best.hashes.length = k + 1

/-- The best chain is the ancestry of the tip, and the tip leads. -/
structure Tipped (first : Option NodeId) (a : Assembler) : Prop where
  bare : a.tip = none → a.best.hashes = [] ∧
    ∀ (id : NodeId) (m : Node), a.nodes[id]? = some m → m.height = none
  ahead : ∀ t, a.tip = some t → ∃ (n : Node) (k : Nat), a.nodes[t]? = some n ∧
    n.height = some k ∧ Rooted a.records n.hash a.best.hashes ∧
    a.best.hashes.length = k + 1 ∧ a.Leads first t k
  early : a.Early first

theorem Rests.empty : Rests Assembler.empty where
  bare := by
    intro _
    refine ⟨rfl, ?_⟩
    intro id m h
    simp [Assembler.empty] at h
  held := by intro t h; simp [Assembler.empty] at h

theorem Rests.grounded (h : Rests a) : a.Grounded := by
  intro i y hi
  cases htip : a.tip with
  | none =>
    rw [(h.bare htip).1] at hi
    simp at hi
  | some t =>
    obtain ⟨n, k, _, _, hrooted, _⟩ := h.held t htip
    exact hrooted.take hi

theorem Tipped.rests (h : Tipped first a) : Rests a where
  bare := h.bare
  held := by
    intro t ht
    obtain ⟨n, k, hn, hk, hrooted, hlen, _⟩ := h.ahead t ht
    exact ⟨n, k, hn, hk, hrooted, hlen⟩

/-- A tip that leads makes the difference. -/
theorem Rests.tipped (h : Rests a) (he : a.Early first)
    (hleads : ∀ (t : NodeId) (n : Node) (k : Nat), a.tip = some t → a.nodes[t]? = some n →
      n.height = some k → a.Leads first t k) : Tipped first a where
  bare := h.bare
  ahead := by
    intro t ht
    obtain ⟨n, k, hn, hk, hrooted, hlen⟩ := h.held t ht
    exact ⟨n, k, hn, hk, hrooted, hlen, hleads t n k ht hn hk⟩
  early := he

theorem Tipped.empty : Tipped none Assembler.empty := by
  refine Rests.empty.tipped ?_ ?_
  · intro f h
    simp at h
  · intro t n k h
    simp [Assembler.empty] at h

/-! ## One record more competes -/

/-- The assembler with a record linked that has not competed yet. -/
def raised (a : Assembler) (id : NodeId) (n : Node) (height : Nat) : Assembler :=
  { a with nodes := a.nodes.set id { n with height := some height } }

theorem records_raised (hid : a.nodes[id]? = some n) :
    (a.raised id n height).records = a.records := by
  have hnodes : (a.raised id n height).nodes = (a.linkNode id n height).nodes :=
    nodes_linkNode.symm
  rw [records, hnodes]
  exact records_linkNode hid

theorem tip_popped : (a.popped id n height).tip =
    if (a.raised id n height).beatsTip id height then some id else a.tip := by
  show (a.linkNode id n height).tip = _
  unfold linkNode
  dsimp only
  by_cases hbeats : (a.raised id n height).beatsTip id height = true
  · rw [if_pos hbeats]
    exact (if_pos hbeats).symm ▸ tip_adopt
  · rw [if_neg hbeats]
    exact (if_neg hbeats).symm ▸ rfl

/-- A record that beats the tip brings its ancestry with it. -/
theorem best_popped (hd : a.Distinct) (hg : a.Grounded) (hid : a.nodes[id]? = some n)
    {chain : List Hash} (hchain : Rooted a.records n.hash chain)
    (hlen : chain.length = height + 1) :
    (a.popped id n height).best.hashes =
      if (a.raised id n height).beatsTip id height then chain else a.best.hashes := by
  have hrec : (a.raised id n height).records = a.records := records_raised hid
  have hd' : (a.raised id n height).Distinct := hd.of_records hrec
  have hg' : (a.raised id n height).Grounded := by
    intro i y hi
    rw [hrec]
    exact hg i y hi
  have hmem : n.record ∈ (a.raised id n height).records := by
    rw [hrec]
    exact mem_records_iff.2 ⟨id, n, hid, rfl⟩
  show (a.linkNode id n height).best.hashes = _
  unfold linkNode
  dsimp only
  by_cases hbeats : (a.raised id n height).beatsTip id height = true
  · have hadopt : ((a.raised id n height).adopt id n height).best.hashes = chain := by
      rw [best_adopt, meetBest_spec hd' hg' hmem (by rw [hrec]; exact hchain) hlen []]
      exact List.append_nil chain
    rw [if_pos hbeats]
    exact (if_pos hbeats).symm ▸ hadopt
  · rw [if_neg hbeats]
    exact (if_neg hbeats).symm ▸ rfl

theorem beatsTip_raised_iff {t : NodeId} {k : Nat} (htip : a.tip = some t)
    (hlen : a.best.hashes.length = k + 1) :
    (a.raised id n height).beatsTip id height = true ↔ k < height ∨ (height = k ∧ id < t) := by
  have hth : a.best.tipHeight? = some k := by
    rw [BestChain.tipHeight?, BestChain.length, hlen]
  unfold beatsTip
  rw [show (a.raised id n height).tip = some t from htip,
    show (a.raised id n height).best = a.best from rfl]
  dsimp only
  rw [hth]
  simp

/-- What links now is not what was put in front. -/
theorem Early.ne (h : a.Early first) (hid : a.nodes[id]? = some n) (hn : n.height = none) :
    some id ≠ first := by
  intro heq
  exact Nat.lt_irrefl _ ((h id heq.symm).2 id n hid hn)

/-- Who leads those that are linked, and comes before the record that links, leads on. -/
theorem Leads.popped {t : NodeId} {k : Nat} (h : a.Leads first t k) (hid : a.nodes[id]? = some n)
    (hnext : height < k ∨ (height = k ∧ Before first t id)) :
    (a.popped id n height).Leads first t k := by
  intro j m i hj hi
  rw [getElem?_popped hid] at hj
  split at hj
  · next hji =>
    rw [← Option.some.inj hj] at hi
    rw [hji, ← Option.some.inj hi]
    exact hnext
  · exact h j m i hj hi

/-- The record that links leads if it stands before all that is linked. -/
theorem Leads.new (h : a.Leads first id height) (he : a.Early first)
    (hid : a.nodes[id]? = some n) (hn : n.height = none) :
    (a.popped id n height).Leads first id height :=
  h.popped hid (Or.inr ⟨rfl, Or.inr ⟨he.ne hid hn, Nat.le_refl id⟩⟩)

/-- The record that beats the tip leads. -/
theorem Leads.overtaken {t : NodeId} {k : Nat} (h : a.Leads first t k) (he : a.Early first)
    (hid : a.nodes[id]? = some n) (hn : n.height = none)
    (hbeats : k < height ∨ (height = k ∧ id < t)) :
    (a.popped id n height).Leads first id height := by
  refine Leads.new ?_ he hid hn
  intro j m i hj hi
  rcases h j m i hj hi with hlt | ⟨rfl, hbefore⟩
  · left
    omega
  · rcases hbeats with hlt | ⟨rfl, hlt⟩
    · exact Or.inl hlt
    · refine Or.inr ⟨rfl, ?_⟩
      rcases hbefore with hfirst | ⟨hne, hle⟩
      · -- nobody who links now was seen before the one put in front
        have hlate := (he t hfirst.symm).2 id n hid hn
        exact absurd hlt (Nat.not_lt_of_lt hlate)
      · exact Or.inr ⟨hne, Nat.le_of_lt (Nat.lt_of_lt_of_le hlt hle)⟩

/-- A tip that is not beaten leads on. -/
theorem Leads.kept {t : NodeId} {k : Nat} (h : a.Leads first t k) (he : a.Early first)
    (hid : a.nodes[id]? = some n) (hn : n.height = none) (hbeats : ¬ (k < height ∨ (height = k ∧ id < t))) :
    (a.popped id n height).Leads first t k := by
  refine h.popped hid ?_
  rw [not_or, not_and] at hbeats
  rcases Nat.lt_or_ge height k with hlt | hge
  · exact Or.inl hlt
  · have heq : height = k := Nat.le_antisymm (Nat.le_of_not_lt hbeats.1) hge
    exact Or.inr ⟨heq, Or.inr ⟨he.ne hid hn, Nat.le_of_not_lt (hbeats.2 heq)⟩⟩

theorem Early.popped (h : a.Early first) (hid : a.nodes[id]? = some n) :
    (a.popped id n height).Early first := by
  intro f hf
  obtain ⟨hlt, hlate⟩ := h f hf
  refine ⟨?_, ?_⟩
  · show f < (a.linkNode id n height).nodes.length
    rw [nodes_linkNode, List.length_set]
    exact hlt
  · intro j m hj hm
    rw [getElem?_popped hid] at hj
    split at hj
    · rw [← Option.some.inj hj] at hm
      simp at hm
    · exact hlate j m hj hm

namespace Rests

theorem step {others : List (NodeId × Nat)} (h : Rests a)
    (hl : a.Linking ((id, height) :: others)) (hid : a.nodes[id]? = some n)
    (hn : n.height = none) (hdue : a.linkHeight? n.record = some height) :
    Rests (a.popped id n height) := by
  have hrec : (a.popped id n height).records = a.records := records_popped hid
  have hnode : (a.popped id n height).heightOf? n.hash = some height := by
    rw [heightOf?_popped hl.distinct hid, if_pos rfl]
  obtain ⟨chain, hchain, hlen⟩ := (hl.step hid hn hdue).rooted hnode
  rw [hrec] at hchain
  have hbest := best_popped hl.distinct h.grounded hid hchain hlen
  have htip : (a.popped id n height).tip = _ := tip_popped
  by_cases hbeats : (a.raised id n height).beatsTip id height = true
  · rw [if_pos hbeats] at hbest htip
    refine ⟨?_, ?_⟩
    · intro hnone
      rw [htip] at hnone
      simp at hnone
    · intro t ht
      rw [htip] at ht
      obtain rfl := Option.some.inj ht
      refine ⟨{ n with height := some height }, height, ?_, rfl, ?_, ?_⟩
      · rw [getElem?_popped hid, if_pos rfl]
      · rw [hbest, hrec]
        exact hchain
      · rw [hbest]
        exact hlen
  · rw [if_neg hbeats] at hbest htip
    refine ⟨?_, ?_⟩
    · -- without a tip every record beats it
      intro hnone
      rw [htip] at hnone
      refine absurd ?_ hbeats
      unfold beatsTip
      rw [show (a.raised id n height).tip = none from hnone]
    · intro t ht
      rw [htip] at ht
      obtain ⟨m, k, hm, hk, hrooted, hlenk⟩ := h.held t ht
      refine ⟨m, k, (getElem?_popped_linked hid hn hm hk).2, hk, ?_, ?_⟩
      · rw [hbest, hrec]
        exact hrooted
      · rw [hbest]
        exact hlenk

theorem added (h : Rests a) (r : Record) : Rests (a.added r) := by
  refine ⟨?_, ?_⟩
  · intro htip
    obtain ⟨hbest, hnone⟩ := h.bare htip
    refine ⟨hbest, ?_⟩
    intro id m hid
    rw [getElem?_added] at hid
    split at hid
    · rw [← Option.some.inj hid]
      rfl
    · exact hnone id m hid
  · intro t ht
    obtain ⟨n, k, hn, hk, hrooted, hlen⟩ := h.held t ht
    refine ⟨n, k, getElem?_added_of_some hn, hk, ?_, hlen⟩
    rw [records_added]
    exact hrooted.mono fun s hs => List.mem_append_left _ hs

theorem congr (h : Rests a) (hn : b.nodes = a.nodes) (hb : b.best = a.best)
    (ht : b.tip = a.tip) : Rests b := by
  have hr : b.records = a.records := by rw [records, hn]; rfl
  refine ⟨?_, ?_⟩
  · rw [ht, hb, hn]
    exact h.bare
  · rw [ht, hb, hn, hr]
    exact h.held

theorem kept : Kept Rests where
  added := fun r h => h.added r
  parked := fun _ h => h.congr rfl rfl rfl
  popped := step

theorem insert (h : Rests a) (hl : a.Linking []) (r : Record) : Rests (a.insert r).2 :=
  kept.insert hl r h

theorem insertAll (h : Rests a) (hl : a.Linking []) (rs : List Record) :
    Rests (a.insertAll rs) :=
  kept.insertAll hl rs h

end Rests

namespace Tipped

theorem step {others : List (NodeId × Nat)} (h : Tipped first a)
    (hl : a.Linking ((id, height) :: others)) (hid : a.nodes[id]? = some n)
    (hn : n.height = none) (hdue : a.linkHeight? n.record = some height) :
    Tipped first (a.popped id n height) := by
  refine (h.rests.step hl hid hn hdue).tipped (h.early.popped hid) ?_
  intro t m k ht hm hk
  rw [tip_popped] at ht
  by_cases hbeats : (a.raised id n height).beatsTip id height = true
  · rw [if_pos hbeats] at ht
    obtain rfl := Option.some.inj ht
    rw [getElem?_popped hid, if_pos rfl] at hm
    rw [← Option.some.inj hm] at hk
    obtain rfl := Option.some.inj hk
    cases htip : a.tip with
    | none =>
      -- what links now is all that is linked
      refine Leads.new ?_ h.early hid hn
      intro j m i hj hi
      rw [(h.bare htip).2 j m hj] at hi
      simp at hi
    | some t =>
      obtain ⟨_, k, _, _, _, hlen, hleads⟩ := h.ahead t htip
      exact hleads.overtaken h.early hid hn ((beatsTip_raised_iff htip hlen).1 hbeats)
  · rw [if_neg hbeats] at ht
    obtain ⟨m', k', hm', hk', _, hlen, hleads⟩ := h.ahead t ht
    rw [(getElem?_popped_linked hid hn hm' hk').2] at hm
    rw [← Option.some.inj hm, hk'] at hk
    rw [← Option.some.inj hk]
    exact hleads.kept h.early hid hn fun hcmp => hbeats ((beatsTip_raised_iff ht hlen).2 hcmp)

theorem added (h : Tipped first a) (r : Record) : Tipped first (a.added r) := by
  refine (h.rests.added r).tipped ?_ ?_
  · intro f hf
    obtain ⟨hlt, hlate⟩ := h.early f hf
    refine ⟨?_, ?_⟩
    · show f < (a.nodes ++ [Node.unlinked r]).length
      rw [List.length_append]
      exact Nat.lt_add_right _ hlt
    · intro id m hid hm
      rw [getElem?_added] at hid
      split at hid
      · next heq => rw [heq]; exact hlt
      · exact hlate id m hid hm
  · intro t n k ht hn hk
    obtain ⟨n', k', hn', hk', _, _, hleads⟩ := h.ahead t ht
    rw [getElem?_added_of_some hn'] at hn
    rw [← Option.some.inj hn, hk'] at hk
    rw [← Option.some.inj hk]
    exact fun id m j hid hj => hleads id m j (linked_of_added hid hj) hj

theorem congr (h : Tipped first a) (hn : b.nodes = a.nodes) (hb : b.best = a.best)
    (ht : b.tip = a.tip) : Tipped first b := by
  refine (h.rests.congr hn hb ht).tipped ?_ ?_
  · unfold Early
    rw [hn]
    exact h.early
  · intro t n k htip hid hk
    rw [ht] at htip
    rw [hn] at hid
    obtain ⟨n', k', hn', hk', _, _, hleads⟩ := h.ahead t htip
    rw [hid] at hn'
    rw [← Option.some.inj hn', hk] at hk'
    rw [Option.some.inj hk']
    unfold Leads
    rw [hn]
    exact hleads

theorem kept : Kept (Tipped first) where
  added := fun r h => h.added r
  parked := fun _ h => h.congr rfl rfl rfl
  popped := step

theorem insert (h : Tipped first a) (hl : a.Linking []) (r : Record) :
    Tipped first (a.insert r).2 :=
  kept.insert hl r h

theorem insertAll (h : Tipped first a) (hl : a.Linking []) (rs : List Record) :
    Tipped first (a.insertAll rs) :=
  kept.insertAll hl rs h

end Tipped

/-! ## The tip of an assembler -/

/-- A linked block stands as high as any. -/
def Contends (a : Assembler) (x : Hash) : Prop :=
  ∃ k, a.heightOf? x = some k ∧ ∀ y j, a.heightOf? y = some j → j ≤ k

/-- What stands as high as any are the highest entries. -/
theorem Listed.contends_iff {es : List Entry} (h : a.Listed es) (hd : a.Distinct) {x : Hash} :
    a.Contends x ↔ ∃ e ∈ es, e.hash = x ∧ ∀ f ∈ es, f.height ≤ e.height := by
  constructor
  · rintro ⟨k, hk, hmax⟩
    obtain ⟨e, he, hhash, rfl⟩ := (h.heightOf?_iff hd).1 hk
    exact ⟨e, he, hhash, fun f hf => hmax f.hash f.height ((h.heightOf?_iff hd).2 ⟨f, hf, rfl, rfl⟩)⟩
  · rintro ⟨e, he, hhash, hmax⟩
    refine ⟨e.height, (h.heightOf?_iff hd).2 ⟨e, he, hhash, rfl⟩, ?_⟩
    intro y j hy
    obtain ⟨f, hf, _, rfl⟩ := (h.heightOf?_iff hd).1 hy
    exact hmax f hf

/-- The best chain is the ancestry of one of the highest blocks, the one that comes before the
others. -/
theorem Tipped.spec (h : Tipped first a) (hd : a.Distinct) :
    (a.best.hashes = [] ∧ ∀ x, a.heightOf? x = none) ∨
    ∃ t n, a.tip = some t ∧ a.nodes[t]? = some n ∧ a.Contends n.hash ∧
      Rooted a.records n.hash a.best.hashes ∧
      a.heightOf? n.hash = some (a.best.hashes.length - 1) ∧
      ∀ (id : NodeId) (m : Node), a.nodes[id]? = some m → a.Contends m.hash →
        Before first t id := by
  cases htip : a.tip with
  | none =>
    obtain ⟨hbest, hnone⟩ := h.bare htip
    refine Or.inl ⟨hbest, ?_⟩
    intro x
    cases hx : a.heightOf? x with
    | none => rfl
    | some k =>
      obtain ⟨id, n, hid, _, hk⟩ := (heightOf?_eq_some_iff hd).1 hx
      rw [hnone id n hid] at hk
      simp at hk
  | some t =>
    obtain ⟨n, k, hn, hk, hrooted, hlen, hleads⟩ := h.ahead t htip
    have hheight : a.heightOf? n.hash = some k := (heightOf?_eq_some_iff hd).2 ⟨t, n, hn, rfl, hk⟩
    refine Or.inr ⟨t, n, rfl, hn, ⟨k, hheight, ?_⟩, hrooted, by rw [hlen]; exact hheight, ?_⟩
    · intro y j hy
      obtain ⟨id, m, hid, _, hj⟩ := (heightOf?_eq_some_iff hd).1 hy
      rcases hleads id m j hid hj with hlt | ⟨heq, _⟩
      · exact Nat.le_of_lt hlt
      · exact Nat.le_of_eq heq
    · rintro id m hid ⟨j, hj, hmax⟩
      have hkj := hmax n.hash k hheight
      obtain ⟨i, m', hi, hm', hj'⟩ := (heightOf?_eq_some_iff hd).1 hj
      have hii := hd.id_eq hi hid hm'
      subst hii
      rw [hi] at hid
      obtain rfl := Option.some.inj hid
      rcases hleads i m' j hi hj' with hlt | ⟨_, hbefore⟩
      · omega
      · exact hbefore

theorem getElem?_records (id : NodeId) : a.records[id]? = a.nodes[id]?.map Node.record := by
  rw [records, List.getElem?_map]

theorem Distinct.index_eq (hd : a.Distinct) {i j : NodeId} {r s : Record}
    (hi : a.records[i]? = some r) (hj : a.records[j]? = some s) (h : r.hash = s.hash) : i = j := by
  rw [getElem?_records, Option.map_eq_some_iff] at hi hj
  obtain ⟨n, hn, rfl⟩ := hi
  obtain ⟨m, hm, rfl⟩ := hj
  exact hd.id_eq hn hm h

/-- The tip of the best chain and its place among the records. -/
theorem Tipped.tip?_spec (h : Tipped first a) (hd : a.Distinct) :
    (a.best.hashes = [] ∧ ∀ x, a.heightOf? x = none) ∨
    ∃ (t : NodeId) (r : Record), a.best.tip? = some r.hash ∧ a.records[t]? = some r ∧
      a.Contends r.hash ∧ Rooted a.records r.hash a.best.hashes ∧
      ∀ (id : NodeId) (s : Record), a.records[id]? = some s → a.Contends s.hash →
        Before first t id := by
  rcases h.spec hd with hbare | ⟨t, n, _, hn, hcontends, hrooted, _, hfirst⟩
  · exact Or.inl hbare
  · refine Or.inr ⟨t, n.record, hrooted.getLast?, ?_, hcontends, hrooted, ?_⟩
    · rw [getElem?_records, hn]
      rfl
    · intro id s hid hs
      rw [getElem?_records, Option.map_eq_some_iff] at hid
      obtain ⟨m, hm, rfl⟩ := hid
      exact hfirst id m hm hs

theorem idOf?_eq_some_iff (hd : a.Distinct) {x : Hash} :
    a.idOf? x = some id ↔ ∃ r, a.records[id]? = some r ∧ r.hash = x := by
  constructor
  · intro h
    obtain ⟨hlt, hx, _⟩ := List.findIdx?_eq_some_iff_getElem.1 h
    refine ⟨a.nodes[id].record, ?_, of_decide_eq_true hx⟩
    rw [getElem?_records, List.getElem?_eq_getElem hlt]
    rfl
  · rintro ⟨r, hr, rfl⟩
    rw [getElem?_records, Option.map_eq_some_iff] at hr
    obtain ⟨n, hn, rfl⟩ := hr
    have hlt := (List.getElem?_eq_some_iff.1 hn).1
    have hnid := (List.getElem?_eq_some_iff.1 hn).2
    refine List.findIdx?_eq_some_iff_getElem.2 ⟨hlt, by rw [hnid]; simp [Node.hash], ?_⟩
    intro j hj
    have hjl : j < a.nodes.length := Nat.lt_trans hj hlt
    simp only [decide_eq_true_eq]
    intro heq
    have := hd.id_eq (List.getElem?_eq_getElem hjl) hn heq
    exact absurd this (Nat.ne_of_lt hj)

theorem node_of_idOf? (hd : a.Distinct) {x : Hash} (h : a.idOf? x = some id) :
    ∃ n, a.nodes[id]? = some n ∧ n.hash = x := by
  obtain ⟨r, hr, hx⟩ := (idOf?_eq_some_iff hd).1 h
  rw [getElem?_records, Option.map_eq_some_iff] at hr
  obtain ⟨n, hn, rfl⟩ := hr
  exact ⟨n, hn, hx⟩

/-! ## After a replay -/

theorem idOf?_eq_none {x : Hash} (h : a.idOf? x = none) : x ∉ a.records.map Record.hash := by
  rw [← hashes_eq]
  intro hmem
  obtain ⟨n, hn, hx⟩ := List.mem_map.1 hmem
  have := List.findIdx?_eq_none_iff.1 h n hn
  simp [hx] at this

theorem branchTo_eq {stack : List (NodeId × Nat)} (hl : a.Linking stack) {x : Hash} {k : Nat}
    (hx : a.heightOf? x = some k) :
    ∃ chain, a.branchTo x = .ok ⟨chain⟩ ∧ Rooted a.records x chain ∧ chain.length = k + 1 := by
  obtain ⟨chain, hchain, hlen⟩ := hl.rooted hx
  obtain ⟨id, n, hid, rfl, hk⟩ := (heightOf?_eq_some_iff hl.distinct).1 hx
  refine ⟨chain, ?_, hchain, hlen⟩
  have hmem : n.record ∈ a.records := mem_records_iff.2 ⟨id, n, hid, rfl⟩
  rw [branchTo, (node?_eq_some_iff hl.distinct).2 ⟨id, hid, rfl⟩]
  dsimp only
  rw [hk]
  dsimp only
  rw [ancestry_eq hl.distinct hmem hchain hlen [], List.append_nil]

theorem branchTo_unlinked {x : Hash} (hx : a.heightOf? x = none) :
    a.branchTo x = .error (.unknownBlock x) := by
  unfold branchTo
  unfold heightOf? at hx
  cases hn : a.node? x with
  | none => rfl
  | some n =>
    rw [hn] at hx
    dsimp only
    rw [show n.height = none from hx]

theorem branchTo_isLinked {x : Hash} {chain : BestChain} (h : a.branchTo x = .ok chain) :
    ∃ k, a.heightOf? x = some k := by
  unfold branchTo at h
  unfold heightOf?
  cases hn : a.node? x with
  | none =>
    rw [hn] at h
    simp at h
  | some n =>
    rw [hn] at h
    dsimp only at h
    cases hk : n.height with
    | none =>
      rw [hk] at h
      simp at h
    | some k => exact ⟨k, hk⟩

/-- A linked record that is made the tip brings its ancestry with it. -/
theorem forceTip_eq {stack : List (NodeId × Nat)} (hl : a.Linking stack) (id : NodeId)
    (hk : a.heightOf? n.hash = some height) :
    ∃ chain, a.forceTip id n.hash = { a with best := ⟨chain⟩, tip := some id } ∧
      Rooted a.records n.hash chain ∧ chain.length = height + 1 := by
  obtain ⟨chain, hbranch, hchain, hlen⟩ := branchTo_eq hl hk
  refine ⟨chain, ?_, hchain, hlen⟩
  unfold forceTip
  rw [hbranch]

theorem height_of_heightOf? (hd : a.Distinct) (hid : a.nodes[id]? = some n)
    (hk : a.heightOf? n.hash = some height) : n.height = some height := by
  obtain ⟨j, m, hj, hm, hkm⟩ := (heightOf?_eq_some_iff hd).1 hk
  have hji := hd.id_eq hj hid hm
  rw [hji, hid] at hj
  rw [Option.some.inj hj]
  exact hkm

/-- Whatever record is made the tip, the best chain rests on it. -/
theorem Rests.forceTip (h : Rests a) (hl : a.Linking []) (hid : a.nodes[id]? = some n) :
    Rests (a.forceTip id n.hash) := by
  cases hbranch : a.branchTo n.hash with
  | error e =>
    unfold Assembler.forceTip
    rw [hbranch]
    exact h
  | ok branch =>
    obtain ⟨k, hk⟩ := branchTo_isLinked hbranch
    obtain ⟨chain, heq, hchain, hlen⟩ := forceTip_eq hl id hk
    rw [heq]
    refine ⟨?_, ?_⟩
    · intro hnone
      simp at hnone
    · intro t ht
      obtain rfl := Option.some.inj ht
      exact ⟨n, k, hid, height_of_heightOf? hl.distinct hid hk, hchain, hlen⟩

/-- Whatever tip is asked for, the best chain rests on one. -/
theorem Rests.restored (h : Rests a) (hl : a.Linking []) (tip : Option Hash) :
    Rests (a.restored tip) := by
  unfold Assembler.restored
  cases tip with
  | none => exact h
  | some x =>
    dsimp only
    cases hid : a.idOf? x with
    | none => exact h
    | some id =>
      obtain ⟨n, hn, rfl⟩ := node_of_idOf? hl.distinct hid
      exact h.forceTip hl hn

/-- A highest record can be put in front of the others. -/
theorem Tipped.forceTip (h : Rests a) (hl : a.Linking []) (hid : a.nodes[id]? = some n)
    (hall : ∀ (j : NodeId) (m : Node), a.nodes[j]? = some m → m.height ≠ none)
    (htop : a.Contends n.hash) : Tipped (some id) (a.forceTip id n.hash) := by
  obtain ⟨k, hk, hmax⟩ := htop
  have hrests := h.forceTip hl hid
  obtain ⟨chain, heq, _, _⟩ := forceTip_eq hl id hk
  rw [heq] at hrests ⊢
  refine hrests.tipped ?_ ?_
  · intro f hf
    obtain rfl := Option.some.inj hf
    refine ⟨(List.getElem?_eq_some_iff.1 hid).1, ?_⟩
    intro j m hj hm
    exact absurd hm (hall j m hj)
  · intro t m j ht hm hj i m' i' hi hi'
    obtain rfl := Option.some.inj ht
    rw [show a.nodes[id]? = some m from hm] at hid
    rw [← Option.some.inj hid] at hk
    rw [height_of_heightOf? hl.distinct hm hk] at hj
    obtain rfl := Option.some.inj hj
    have hle := hmax m'.hash i' ((heightOf?_eq_some_iff hl.distinct).2 ⟨i, m', hi, rfl, hi'⟩)
    rcases Nat.lt_or_ge i' k with hlt | hge
    · exact Or.inl hlt
    · exact Or.inr ⟨Nat.le_antisymm hle hge, Or.inl rfl⟩

/-- After a replay the tip that is asked for stands in front, if it is one of the highest. -/
theorem Tipped.seeded {es : List Entry} (hf : Forest es)
    (hhash : ∀ e ∈ es, e.header.hash = e.hash) (tip : Option Hash)
    (htop : ∀ e ∈ es, tip = some e.hash → ∀ f ∈ es, f.height ≤ e.height) :
    ∃ first, Tipped first (Assembler.seeded es tip) ∧
      (∀ e ∈ es, tip = some e.hash → first ≠ none) ∧
      ∀ t, first = some t → ∃ e, es[t]? = some e ∧ tip = some e.hash := by
  obtain ⟨_, hheld⟩ := replay_forest hf hhash
  have hl := Linking.empty.insertAll (es.map Entry.toRecord)
  have hfree := Tipped.empty.insertAll Linking.empty (es.map Entry.toRecord)
  generalize hreplayed : Assembler.empty.insertAll (es.map Entry.toRecord) = a at hheld hl hfree
  have hseeded : Assembler.seeded es tip =
      { a.restored tip with reorgs := [], persistedLen := (a.restored tip).best.length } := by
    rw [Assembler.seeded, hreplayed]
  have hnodes : ∀ (j : NodeId) (m : Node), a.nodes[j]? = some m →
      ∃ e, es[j]? = some e ∧ m = e.node := by
    intro j m hj
    rw [hheld.nodes, List.getElem?_map, Option.map_eq_some_iff] at hj
    obtain ⟨e, he, rfl⟩ := hj
    exact ⟨e, he, rfl⟩
  have hplain : a.restored tip = a → (∀ e ∈ es, tip ≠ some e.hash) →
      ∃ first, Tipped first (Assembler.seeded es tip) ∧
        (∀ e ∈ es, tip = some e.hash → first ≠ none) ∧
        ∀ t, first = some t → ∃ e, es[t]? = some e ∧ tip = some e.hash := by
    intro hsame hout
    refine ⟨none, ?_, fun e he heq => absurd heq (hout e he), fun t ht => by simp at ht⟩
    rw [hseeded, hsame]
    exact hfree.congr rfl rfl rfl
  cases htip : tip with
  | none =>
    rw [htip] at hplain
    exact hplain rfl (by intro e _ h; simp at h)
  | some x =>
    rw [htip] at hplain hseeded
    cases hid : a.idOf? x with
    | none =>
      refine hplain (by unfold restored; dsimp only; rw [hid]) ?_
      intro e he heq
      have := idOf?_eq_none hid
      rw [hheld.records, List.map_map] at this
      exact this (List.mem_map.2 ⟨e, he, (Option.some.inj heq).symm⟩)
    | some id =>
      obtain ⟨n, hn, hnx⟩ := node_of_idOf? hl.distinct hid
      obtain ⟨e, he, hne⟩ := hnodes id n hn
      have hmem := List.mem_of_getElem? he
      have hex : e.hash = x := by rw [← hnx, hne]; rfl
      have hcontends : a.Contends n.hash := ((hheld.listed hf).contends_iff hl.distinct).2
        ⟨e, hmem, hex.trans hnx.symm, htop e hmem (by rw [htip, hex])⟩
      have hforced : Tipped (some id) (a.forceTip id n.hash) := by
        refine Tipped.forceTip hfree.rests hl hn ?_ hcontends
        intro j m hj
        obtain ⟨f, _, rfl⟩ := hnodes j m hj
        simp [Entry.node]
      have hrestored : a.restored (some x) = a.forceTip id n.hash := by
        unfold restored
        dsimp only
        rw [hid, hnx]
      refine ⟨some id, ?_, fun f _ _ => by simp, ?_⟩
      · rw [hseeded, hrestored]
        exact hforced.congr rfl rfl rfl
      · intro t ht
        obtain rfl := Option.some.inj ht
        exact ⟨e, he, by rw [hex]⟩

theorem Rests.seeded (es : List Entry) (tip : Option Hash) : Rests (Assembler.seeded es tip) :=
  ((Rests.empty.insertAll Linking.empty (es.map Entry.toRecord)).restored
    (Linking.empty.insertAll (es.map Entry.toRecord)) tip).congr rfl rfl rfl

end Assembler

end BlockIndex
