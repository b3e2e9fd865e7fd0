import BlockIndex.Proofs.Chain.Operations
import Mathlib.Data.List.Chain

/-!
# Changes of the best chain

While records link, the best chain grows, or a part of it gives way to another branch; then an event
says which part, and which branch.  The events and what the chain grew by tell how the best chain
came about, and the lowest fork that reaches below the persisted heights says how much of the
persisted chain is left.

* `Turn old new events`          one change, and what is raised with it;
* `Rebuilt start events chain`   a chain told by events and by what it grew by;
* `Assembler.stages`             the assemblers that an insertion passes through;
* `Assembler.Turns`              a change between two of them;
* `Assembler.Marked`             what becomes of the persisted heights;
* `Assembler.taken`              the events that drains among some operations take.

Main statements: `Turns.popped` (one record links), `stages_spec` (one insertion),
`performAll_raised` (a run), and what they come to: `performAll_turns` for the events,
`performAll_marked` for the persisted heights.
-/

namespace BlockIndex

/-- The best chain changes from `old` to `new`, and `events` are raised: none if it grows or stays,
and one if a part of it is dropped, as high as it reached before at least. -/
inductive Turn (old new : List Hash) : List ReorgEvent → Prop where
  | grows (longer : old <+: new) : Turn old new []
  | switches {event : ReorgEvent} (apart : ¬ old <+: new)
      (dropped : old = old.take event.forkHeight ++ event.dropped)
      (adopted : new = old.take event.forkHeight ++ event.adopted)
      (dropped_ne : event.dropped ≠ []) (adopted_ne : event.adopted ≠ [])
      (differ : event.dropped.head? ≠ event.adopted.head?)
      (reach : event.dropped.length ≤ event.adopted.length) : Turn old new [event]

/-- The chain after a switch. -/
def ReorgEvent.splice (event : ReorgEvent) (chain : List Hash) : List Hash :=
  chain.take event.forkHeight ++ event.adopted

/-- From `start`, the events in order and some growth between them lead to a chain; each event
drops what stands there. -/
inductive Rebuilt (start : List Hash) : List ReorgEvent → List Hash → Prop where
  | start : Rebuilt start [] start
  | grown {events : List ReorgEvent} {chain : List Hash} (told : Rebuilt start events chain)
      (more : List Hash) : Rebuilt start events (chain ++ more)
  | switched {events : List ReorgEvent} {chain : List Hash} (told : Rebuilt start events chain)
      {event : ReorgEvent} (dropped : chain.drop event.forkHeight = event.dropped) :
      Rebuilt start (events ++ [event]) (event.splice chain)

/-- The forks below what the cache holds. -/
def cacheForks (events : List ReorgEvent) : List Nat :=
  (events.filter ReorgEvent.affectsCache).map ReorgEvent.forkHeight

theorem cacheForks_append (events others : List ReorgEvent) :
    cacheForks (events ++ others) = cacheForks events ++ cacheForks others := by
  rw [cacheForks, cacheForks, cacheForks, List.filter_append, List.map_append]

/-- One event lowers the persisted heights to its fork, if they reach above it. -/
theorem mark_singleton {event : ReorgEvent} {mark : Nat}
    (h : event.kind = ReorgKind.classify event.forkHeight mark) :
    (cacheForks [event]).foldl min mark = min mark event.forkHeight := by
  by_cases hlow : event.forkHeight < mark
  · simp [cacheForks, ReorgEvent.affectsCache, h, ReorgKind.classify, hlow]
  · simp [cacheForks, ReorgEvent.affectsCache, h, ReorgKind.classify, hlow]
    omega

theorem foldl_min_le (forks : List Nat) (mark : Nat) : forks.foldl min mark ≤ mark := by
  induction forks generalizing mark with
  | nil => exact Nat.le_refl mark
  | cons fork rest ih => exact Nat.le_trans (ih _) (Nat.min_le_left mark fork)

theorem Rebuilt.trans {first second third : List Hash} {events others : List ReorgEvent}
    (h : Rebuilt first events second) (h' : Rebuilt second others third) :
    Rebuilt first (events ++ others) third := by
  induction h' with
  | start =>
    rw [List.append_nil]
    exact h
  | grown _ more ih => exact ih.grown more
  | switched _ hdropped ih =>
    rw [← List.append_assoc]
    exact ih.switched hdropped

/-- What stands from the fork on gives way to a path that begins with another block and reaches as
far. -/
theorem Turn.of_fork {old path : List Hash} {fork : Nat} {kind : ReorgKind}
    (hfork : fork < old.length) (hapart : ∀ y, path.head? = some y → old[fork]? ≠ some y)
    (hreach : old.length ≤ fork + path.length) :
    Turn old (old.take fork ++ path) [⟨fork, old.drop fork, path, kind⟩] := by
  have hpath : path ≠ [] := by
    rintro rfl
    rw [List.length_nil] at hreach
    omega
  obtain ⟨y, hy⟩ := Option.ne_none_iff_exists'.1 (mt List.head?_eq_none_iff.1 hpath)
  have hother := hapart y hy
  have htake := List.length_take_of_le (Nat.le_of_lt hfork)
  apply Turn.switches
  · rintro ⟨more, hmore⟩
    have hsame : old[fork]? = (old ++ more)[fork]? := (List.getElem?_append_left hfork).symm
    apply hother
    rw [hsame, hmore, List.getElem?_append_right (by omega), htake, Nat.sub_self,
      ← List.head?_eq_getElem?, hy]
  · exact (List.take_append_drop fork old).symm
  · rfl
  · rw [ne_eq, List.drop_eq_nil_iff]
    omega
  · exact hpath
  · rw [List.head?_drop, hy]
    exact hother
  · rw [List.length_drop]
    show old.length - fork ≤ path.length
    omega

theorem Turn.rebuilt {old new : List Hash} {events : List ReorgEvent} (h : Turn old new events) :
    Rebuilt old events new := by
  cases h with
  | grows hlonger =>
    obtain ⟨more, rfl⟩ := hlonger
    exact Rebuilt.start.grown more
  | @switches event _ hdropped hadopted _ _ _ _ =>
    have hdrop : old.drop event.forkHeight = event.dropped :=
      List.append_cancel_left ((List.take_append_drop event.forkHeight old).trans hdropped)
    rw [hadopted]
    exact Rebuilt.start.switched hdrop

theorem Turn.keeps {old new : List Hash} {events : List ReorgEvent} {mark : Nat}
    (h : Turn old new events)
    (hkinds : ∀ event ∈ events, event.kind = ReorgKind.classify event.forkHeight mark)
    (hmark : mark ≤ old.length) :
    (cacheForks events).foldl min mark ≤ new.length ∧
      new.take ((cacheForks events).foldl min mark)
        = old.take ((cacheForks events).foldl min mark) := by
  cases h with
  | grows hlonger =>
    obtain ⟨more, rfl⟩ := hlonger
    show mark ≤ (old ++ more).length ∧ (old ++ more).take mark = old.take mark
    rw [List.length_append, List.take_append_of_le_length hmark]
    exact ⟨by omega, rfl⟩
  | @switches event _ hdropped hadopted hne _ _ _ =>
    have hle : (cacheForks [event]).foldl min mark ≤ event.forkHeight := by
      rw [mark_singleton (hkinds event (List.mem_singleton.2 rfl))]
      exact Nat.min_le_right _ _
    have hlen : (old.take event.forkHeight).length = event.forkHeight := by
      rw [List.length_take, Nat.min_eq_left]
      have := congrArg List.length hdropped
      rw [List.length_append, List.length_take] at this
      have := List.length_pos_iff.2 hne
      omega
    generalize (cacheForks [event]).foldl min mark = kept at hle ⊢
    rw [hadopted, List.length_append, List.take_append_of_le_length (by omega), List.take_take,
      Nat.min_eq_left hle]
    exact ⟨by omega, rfl⟩

namespace Assembler

/-- One change of the best chain, with the event that it raises. -/
structure Turns (a b : Assembler) (events : List ReorgEvent) : Prop where
  reorgs : b.reorgs = a.reorgs ++ events
  turn : Turn a.best.hashes b.best.hashes events
  kinds : ∀ event ∈ events, event.kind = ReorgKind.classify event.forkHeight a.persistedLen
  mark : (cacheForks events).foldl min a.persistedLen = b.persistedLen

/-- The persisted heights fall to the lowest fork below them, and so far the chain stays. -/
structure Marked (a b : Assembler) (events : List ReorgEvent) : Prop where
  mark : (cacheForks events).foldl min a.persistedLen = b.persistedLen
  held : a.persistedLen ≤ a.best.length → b.persistedLen ≤ b.best.length ∧
    b.best.hashes.take b.persistedLen = a.best.hashes.take b.persistedLen

/-- The assemblers that linking a stack passes through, one for each record that links. -/
def linkStages (a : Assembler) (stack : List (NodeId × Nat)) : List Assembler :=
  match stack with
  | [] => []
  | (id, height) :: others =>
    match a.nodes[id]? with
    | none => a.linkStages others
    | some node =>
      let next := a.popped id node height
      next :: next.linkStages (a.pushed node height others)
termination_by stack.length + Waiting.count a.waiting
decreasing_by
  · simp
  · have h := Waiting.count_take node.hash a.waiting
    show (a.pushed node height others).length + Waiting.count (a.waiting.take node.hash).2
      < (others.length + 1) + Waiting.count a.waiting
    rw [pushed, List.length_append, List.length_map]
    omega

/-- The assemblers that an insertion passes through, from the one before it: with the record added,
and with each record that links. -/
def stages (a : Assembler) (record : Record) : List Assembler :=
  match a.node? record.hash with
  | some _ => [a]
  | none =>
    match a.linkHeight? record with
    | some height => a :: a.added record :: (a.added record).linkStages [(a.nodes.length, height)]
    | none => [a, a.parked record]

/-- The events that the drains among some operations take, in order. -/
def taken (a : Assembler) : List Operation → List ReorgEvent
  | [] => []
  | op :: rest => (if op = .drainReorgs then a.reorgs else []) ++ (a.perform op).taken rest

/-- The operations after which the whole best chain counts as persisted. -/
inductive Marks (a : Assembler) : Operation → Prop where
  | persisted : a.Marks .markPersisted
  | seeded {entries : List Entry} {tip : Option Hash} (ok : (a.seed entries tip).1 = .ok ()) :
      a.Marks (.seed entries tip)

variable {a b c : Assembler} {id : NodeId} {n : Node} {height : Nat} {r : Record}
  {events others : List ReorgEvent}

/-! ## One change -/

theorem Turns.of_same (hbest : b.best = a.best) (hreorgs : b.reorgs = a.reorgs)
    (hmark : b.persistedLen = a.persistedLen) : a.Turns b [] where
  reorgs := by rw [hreorgs, List.append_nil]
  turn := by
    rw [hbest]
    exact Turn.grows (List.prefix_refl _)
  kinds := by
    intro event hevent
    cases hevent
  mark := hmark.symm

theorem Turns.congr (h : a.Turns b events) (hbest : c.best = b.best)
    (hreorgs : c.reorgs = b.reorgs) (hmark : c.persistedLen = b.persistedLen) :
    a.Turns c events where
  reorgs := hreorgs.trans h.reorgs
  turn := by
    rw [hbest]
    exact h.turn
  kinds := h.kinds
  mark := h.mark.trans hmark.symm

/-- Adopting a record that stands as high as the tip at least. -/
theorem adopt_turns (hd : a.Distinct) (hg : a.Grounded) (hn : n.record ∈ a.records)
    {chain : List Hash} (hchain : Rooted a.records n.hash chain)
    (hlen : chain.length = height + 1) (htop : a.best.hashes.length ≤ height + 1) :
    ∃ events, a.Turns (a.adopt id n height) events := by
  have hspec := meetBest_spec hd hg hn hchain hlen []
  have hapart : ∀ y, (a.meetBest height n []).1.head? = some y →
      a.best.hashes[(a.meetBest height n []).2]? ≠ some y := by
    intro y hy
    exact meetBest_apart hd hn hchain hlen (by intro z hz; cases hz) hy
  rw [List.append_nil] at hspec
  unfold adopt
  dsimp only
  generalize (a.meetBest height n []).1 = path at hspec hapart ⊢
  generalize (a.meetBest height n []).2 = fork at hspec hapart ⊢
  rw [← hspec, List.length_append] at hlen
  by_cases hempty : a.best.hashes.drop fork = []
  · rw [if_pos (by rw [hempty]; rfl)]
    refine ⟨[], (List.append_nil _).symm, Turn.grows ?_, ?_, rfl⟩
    · show a.best.hashes <+: a.best.hashes.take fork ++ path
      rw [List.take_of_length_le (List.drop_eq_nil_iff.1 hempty)]
      exact List.prefix_append _ _
    · intro event hevent
      cases hevent
  · rw [if_neg (by simpa using hempty)]
    have hfork : fork < a.best.hashes.length := by
      rw [List.drop_eq_nil_iff] at hempty
      omega
    rw [List.length_take_of_le (Nat.le_of_lt hfork)] at hlen
    refine ⟨[⟨fork, a.best.hashes.drop fork, path, .classify fork a.persistedLen⟩], rfl, ?_, ?_, ?_⟩
    · exact Turn.of_fork hfork hapart (by omega)
    · intro event hevent
      rw [List.mem_singleton.1 hevent]
    · rw [mark_singleton rfl]
      show min a.persistedLen fork = if ReorgKind.classify fork a.persistedLen = .cacheReorg
        then fork else a.persistedLen
      unfold ReorgKind.classify
      by_cases hlow : fork < a.persistedLen
      · rw [if_pos hlow, if_pos rfl]
        omega
      · rw [if_neg hlow, if_neg (by simp)]
        omega

/-- **One record links**: the best chain changes once at most, and says so. -/
theorem Turns.popped {stack : List (NodeId × Nat)} (h : Rests a)
    (hl : a.Linking ((id, height) :: stack)) (hid : a.nodes[id]? = some n) (hn : n.height = none)
    (hdue : a.linkHeight? n.record = some height) :
    ∃ events, a.Turns (a.popped id n height) events := by
  have hrec : (a.raised id n height).records = a.records := records_raised hid
  have hmem : n.record ∈ a.records := mem_records_iff.2 ⟨id, n, hid, rfl⟩
  have hnode : (a.popped id n height).heightOf? n.hash = some height := by
    rw [heightOf?_popped hl.distinct hid, if_pos rfl]
  obtain ⟨chain, hchain, hlen⟩ := (hl.step hid hn hdue).rooted hnode
  rw [records_popped hid] at hchain
  by_cases hbeats : (a.raised id n height).beatsTip id height = true
  · have htop : a.best.hashes.length ≤ height + 1 := by
      cases htip : a.tip with
      | none =>
        rw [(h.bare htip).1]
        exact Nat.zero_le _
      | some t =>
        obtain ⟨_, k, _, _, _, hk⟩ := h.held t htip
        have := (beatsTip_raised_iff htip hk).1 hbeats
        omega
    have hadopt : ∃ events, (a.raised id n height).Turns
        ((a.raised id n height).adopt id n height) events := by
      refine adopt_turns (hl.distinct.of_records hrec) ?_ (hrec.symm ▸ hmem)
        (hrec.symm ▸ hchain) hlen htop
      intro i y hi
      rw [hrec]
      exact h.grounded i y hi
    obtain ⟨events, hadopted⟩ := hadopt
    have hturns : a.Turns ((a.raised id n height).adopt id n height) events :=
      ⟨hadopted.reorgs, hadopted.turn, hadopted.kinds, hadopted.mark⟩
    have hlinked : a.linkNode id n height = (a.raised id n height).adopt id n height :=
      if_pos hbeats
    refine ⟨events, hturns.congr ?_ ?_ ?_⟩
    · show (a.linkNode id n height).best = _
      rw [hlinked]
    · show (a.linkNode id n height).reorgs = _
      rw [hlinked]
    · show (a.linkNode id n height).persistedLen = _
      rw [hlinked]
  · have hlinked : a.linkNode id n height = a.raised id n height := if_neg hbeats
    refine ⟨[], Turns.of_same ?_ ?_ ?_⟩
    · show (a.linkNode id n height).best = _
      rw [hlinked]
      rfl
    · show (a.linkNode id n height).reorgs = _
      rw [hlinked]
      rfl
    · show (a.linkNode id n height).persistedLen = _
      rw [hlinked]
      rfl

/-! ## One insertion -/

theorem linkStages_nil (a : Assembler) : a.linkStages [] = [] := by
  rw [linkStages]

theorem linkStages_cons {stack : List (NodeId × Nat)} (hid : a.nodes[id]? = some n) :
    a.linkStages ((id, height) :: stack)
      = a.popped id n height :: (a.popped id n height).linkStages (a.pushed n height stack) := by
  rw [linkStages, hid]

/-- The stages of linking a stack lead to its end, each a change from the one before. -/
theorem linkStages_spec {stack : List (NodeId × Nat)} (hl : a.Linking stack) (h : Rests a) :
    (a :: a.linkStages stack).getLast? = some (a.linkStack stack []).2 ∧
      (a :: a.linkStages stack).IsChain fun b c => ∃ events, b.Turns c events := by
  -- the end of a stack is the same, whatever was linked before
  refine linkStack_induction
    (motive := fun a stack linked => Rests a →
      (a :: a.linkStages stack).getLast? = some (a.linkStack stack linked).2 ∧
        (a :: a.linkStages stack).IsChain fun b c => ∃ events, b.Turns c events)
    ?_ ?_ a stack [] hl h
  · intro a linked _ _
    rw [linkStages_nil, linkStack_nil]
    exact ⟨rfl, List.IsChain.singleton a⟩
  · intro a id n height others linked hl hid hn hdue ih h
    obtain ⟨hlast, hchain⟩ := ih (h.step hl hid hn hdue)
    rw [linkStages_cons hid, linkStack_cons hid]
    refine ⟨by rw [List.getLast?_cons_cons]; exact hlast, ?_⟩
    exact List.IsChain.cons_cons (Turns.popped h hl hid hn hdue) hchain

/-- **One insertion** passes through its stages, each a change from the one before. -/
theorem stages_spec (hl : a.Linking []) (h : Rests a) (r : Record) :
    (a.stages r).head? = some a ∧ (a.stages r).getLast? = some (a.insert r).2 ∧
      (a.stages r).IsChain fun b c => ∃ events, b.Turns c events := by
  have hsame : ∃ events, a.Turns (a.added r) events := ⟨[], Turns.of_same rfl rfl rfl⟩
  unfold stages
  cases hknown : a.node? r.hash with
  | some known =>
    refine ⟨rfl, ?_, List.IsChain.singleton a⟩
    rw [(insert_found hknown).1]
    rfl
  | none =>
    dsimp only
    cases hlink : a.linkHeight? r with
    | some height =>
      have hnew := node?_hash_eq_none_iff.1 hknown
      obtain ⟨hlast, hchain⟩ := linkStages_spec (hl.added hnew hlink) (h.added r)
      refine ⟨rfl, ?_, List.IsChain.cons_cons hsame hchain⟩
      dsimp only
      rw [List.getLast?_cons_cons, hlast, insert_links hknown hlink]
    | none =>
      have hparked : ∃ events, a.Turns (a.parked r) events := ⟨[], Turns.of_same rfl rfl rfl⟩
      refine ⟨rfl, ?_, List.IsChain.cons_cons hparked (List.IsChain.singleton _)⟩
      rw [insert_waits hknown hlink]
      rfl

/-! ## What changes come to -/

theorem Turns.marked (h : a.Turns b events) : a.Marked b events where
  mark := h.mark
  held := by
    intro hmark
    have hkeeps := h.turn.keeps h.kinds hmark
    rw [h.mark] at hkeeps
    exact hkeeps

theorem Marked.refl (a : Assembler) : a.Marked a [] := ⟨rfl, fun hmark => ⟨hmark, rfl⟩⟩

theorem Marked.trans (h : a.Marked b events) (h' : b.Marked c others) :
    a.Marked c (events ++ others) where
  mark := by rw [cacheForks_append, List.foldl_append, h.mark, h'.mark]
  held := by
    intro hmark
    obtain ⟨hb, hsame⟩ := h.held hmark
    obtain ⟨hc, hsame'⟩ := h'.held hb
    have hle : c.persistedLen ≤ b.persistedLen := by
      rw [← h'.mark]
      exact foldl_min_le _ _
    refine ⟨hc, ?_⟩
    have hcut := congrArg (List.take c.persistedLen) hsame
    rw [List.take_take, List.take_take, Nat.min_eq_left hle] at hcut
    exact hsame'.trans hcut

/-- Changes one after another raise their events one after another. -/
theorem raised_of_isChain {stages : List Assembler}
    (h : (a :: stages).IsChain fun b c => ∃ events, b.Turns c events)
    (hlast : (a :: stages).getLast? = some b) :
    ∃ events, b.reorgs = a.reorgs ++ events ∧ Rebuilt a.best.hashes events b.best.hashes ∧
      a.Marked b events := by
  induction stages generalizing a with
  | nil =>
    obtain rfl : a = b := Option.some.inj hlast
    exact ⟨[], (List.append_nil _).symm, Rebuilt.start, Marked.refl a⟩
  | cons next rest ih =>
    rw [List.isChain_cons_cons] at h
    obtain ⟨⟨events, hturns⟩, hrest⟩ := h
    rw [List.getLast?_cons_cons] at hlast
    obtain ⟨others, hreorgs, hrebuilt, hmarked⟩ := ih hrest hlast
    refine ⟨events ++ others, ?_, hturns.turn.rebuilt.trans hrebuilt, hturns.marked.trans hmarked⟩
    rw [hreorgs, hturns.reorgs, List.append_assoc]

theorem insert_raised (hl : a.Linking []) (h : Rests a) (r : Record) :
    ∃ events, (a.insert r).2.reorgs = a.reorgs ++ events ∧
      Rebuilt a.best.hashes events (a.insert r).2.best.hashes ∧ a.Marked (a.insert r).2 events := by
  obtain ⟨hhead, hlast, hchain⟩ := stages_spec hl h r
  cases hstages : a.stages r with
  | nil =>
    rw [hstages] at hhead
    cases hhead
  | cons first rest =>
    rw [hstages] at hhead hlast hchain
    obtain rfl : first = a := Option.some.inj hhead
    exact raised_of_isChain hchain hlast

/-- **A run** without a replay raises events that tell how its best chain came about, and what is
left of the persisted heights, unless they are noted anew. -/
theorem performAll_raised (hl : a.Linking []) (h : Rests a) {ops : List Operation}
    (hops : ∀ op ∈ ops, op.isSeed = false) :
    ∃ events, a.taken ops ++ (a.performAll ops).reorgs = a.reorgs ++ events ∧
      Rebuilt a.best.hashes events (a.performAll ops).best.hashes ∧
      ((∀ op ∈ ops, op ≠ .markPersisted) → a.Marked (a.performAll ops) events) := by
  induction ops generalizing a with
  | nil => exact ⟨[], (List.append_nil _).symm, Rebuilt.start, fun _ => Marked.refl a⟩
  | cons op rest ih =>
    obtain ⟨events, htaken, hrebuilt, hmarked⟩ :=
      ih (hl.perform op) (h.perform hl op) fun op hop => hops op (List.mem_cons_of_mem _ hop)
    have hrest : (∀ o ∈ op :: rest, o ≠ .markPersisted) →
        (a.perform op).Marked ((a.perform op).performAll rest) events :=
      fun hplain => hmarked fun o ho => hplain o (List.mem_cons_of_mem _ ho)
    have hall : a.performAll (op :: rest) = (a.perform op).performAll rest := rfl
    rw [hall, taken, List.append_assoc, htaken]
    cases op with
    | insert r =>
      obtain ⟨first, hreorgs, hrebuilt', hmarked'⟩ := insert_raised hl h r
      refine ⟨first ++ events, ?_, hrebuilt'.trans hrebuilt, ?_⟩
      · rw [if_neg (by simp), List.nil_append, ← List.append_assoc, ← hreorgs]
        rfl
      · exact fun hplain => hmarked'.trans (hrest hplain)
    | seed es tip =>
      have := hops _ List.mem_cons_self
      cases this
    | drainReorgs =>
      refine ⟨events, ?_, hrebuilt, fun hplain => ⟨(hrest hplain).mark, (hrest hplain).held⟩⟩
      rw [if_pos rfl]
      rfl
    | markPersisted =>
      refine ⟨events, ?_, hrebuilt, ?_⟩
      · rw [if_neg (by simp)]
        rfl
      · intro hplain
        exact absurd rfl (hplain _ List.mem_cons_self)

/-- **The events tell how the best chain came about.**  Whatever was done to an assembler, an
insertion changes the best chain step by step, and what is dropped is told with each step; so what
a run raises, taken or not, leads from one best chain to the other. -/
theorem performAll_turns (before : List Operation) :
    let a := Assembler.empty.performAll before
    (∀ r, (a.stages r).head? = some a ∧ (a.stages r).getLast? = some (a.insert r).2 ∧
      (a.stages r).IsChain fun b c => ∃ events, b.Turns c events) ∧
    ∀ later : List Operation, (∀ op ∈ later, op.isSeed = false) →
      ∃ events, a.taken later ++ (a.performAll later).reorgs = a.reorgs ++ events ∧
        Rebuilt a.best.hashes events (a.performAll later).best.hashes := by
  have hl := Linking.empty.performAll before
  have h := Rests.empty.performAll Linking.empty before
  refine ⟨fun r => stages_spec hl h r, ?_⟩
  intro later hlater
  obtain ⟨events, htaken, hrebuilt, -⟩ := performAll_raised hl h hlater
  exact ⟨events, htaken, hrebuilt⟩

/-- Two blocks, and three branches that wait for what they stand on. -/
def branching : List Operation :=
  [.insert ⟨Hash.repeated 1, Header.on Hash.zero 0, 80, 0, 0⟩,
    .insert ⟨Hash.repeated 2, Header.on (Hash.repeated 1) 0, 80, 0, 88⟩,
    .insert ⟨Hash.repeated 4, Header.on (Hash.repeated 3) 0, 80, 0, 176⟩,
    .insert ⟨Hash.repeated 6, Header.on (Hash.repeated 5) 0, 80, 0, 264⟩,
    .insert ⟨Hash.repeated 5, Header.on (Hash.repeated 3) 0, 80, 0, 352⟩,
    .insert ⟨Hash.repeated 8, Header.on (Hash.repeated 7) 0, 80, 0, 440⟩,
    .insert ⟨Hash.repeated 9, Header.on (Hash.repeated 8) 0, 80, 0, 528⟩,
    .insert ⟨Hash.repeated 10, Header.on (Hash.repeated 9) 0, 80, 0, 616⟩,
    .insert ⟨Hash.repeated 11, Header.on (Hash.repeated 10) 0, 80, 0, 704⟩]

/-- The block that two of them wait for, and another first block, for the third. -/
def joining : List Operation :=
  [.insert ⟨Hash.repeated 3, Header.on (Hash.repeated 1) 0, 80, 0, 792⟩, .drainReorgs,
    .insert ⟨Hash.repeated 7, Header.on Hash.zero 0, 80, 0, 880⟩]

/-- The first of them switches twice, and the other one drops the whole chain. -/
theorem joining_turns :
    (∀ op ∈ joining, op.isSeed = false) ∧
    let a := Assembler.empty.performAll branching
    a.reorgs = [] ∧ (a.taken joining).map ReorgEvent.forkHeight = [1, 2] ∧
      (a.performAll joining).reorgs.map ReorgEvent.forkHeight = [0] ∧
      ∃ events, a.taken joining ++ (a.performAll joining).reorgs = events ∧
        Rebuilt [Hash.repeated 1, Hash.repeated 2] events
          ([7, 8, 9, 10, 11].map Hash.repeated) := by
  have hplain : ∀ op ∈ joining, op.isSeed = false := by decide
  have hstart : (Assembler.empty.performAll branching).best.hashes
      = [Hash.repeated 1, Hash.repeated 2] := by decide +kernel
  have hend : ((Assembler.empty.performAll branching).performAll joining).best.hashes
      = [7, 8, 9, 10, 11].map Hash.repeated := by
    decide +kernel
  have hnone : (Assembler.empty.performAll branching).reorgs = [] := by decide +kernel
  obtain ⟨events, htaken, hrebuilt⟩ := (performAll_turns branching).2 joining hplain
  rw [hnone, List.nil_append] at htaken
  rw [hstart, hend] at hrebuilt
  exact ⟨hplain, hnone, by decide +kernel, by decide +kernel, events, htaken, hrebuilt⟩

theorem Marks.length_eq {op : Operation} (h : a.Marks op) :
    (a.perform op).persistedLen = (a.perform op).best.length := by
  cases h with
  | persisted => rfl
  | @seeded entries tip hok =>
    rcases seed_eq a entries tip with ⟨e, heq⟩ | heq
    · rw [heq] at hok
      cases hok
    · show (a.seed entries tip).2.persistedLen = (a.seed entries tip).2.best.length
      rw [heq]

/-- **The persisted heights are truthful.**  After the best chain was noted as persisted, or a
snapshot was replayed, they count blocks of that chain that the best chain still has, down to the
lowest fork below them that was told since, taken or not. -/
theorem performAll_marked {before later : List Operation} {mark : Operation}
    (hmark : (Assembler.empty.performAll before).Marks mark)
    (hlater : ∀ op ∈ later, op.isSeed = false ∧ op ≠ .markPersisted) :
    let a := (Assembler.empty.performAll before).perform mark
    let b := a.performAll later
    b.persistedLen ≤ b.best.length ∧
      b.best.hashes.take b.persistedLen = a.best.hashes.take b.persistedLen ∧
      ∃ events, a.taken later ++ b.reorgs = a.reorgs ++ events ∧
        (a.best.length :: cacheForks events).min? = some b.persistedLen := by
  have hl := Linking.empty.performAll before
  have h := Rests.empty.performAll Linking.empty before
  have hlen := hmark.length_eq
  obtain ⟨events, htaken, -, hmarked⟩ :=
    performAll_raised (hl.perform mark) (h.perform hl mark) fun op hop => (hlater op hop).1
  have hheld := hmarked fun op hop => (hlater op hop).2
  obtain ⟨hle, hsame⟩ := hheld.held (Nat.le_of_eq hlen)
  refine ⟨hle, hsame, events, htaken, ?_⟩
  rw [List.min?_cons', ← hlen, hheld.mark]

/-- The blocks that join the branches leave nothing of a chain that was persisted. -/
theorem joining_marked :
    (Assembler.empty.performAll branching).Marks .markPersisted ∧
    (∀ op ∈ joining, op.isSeed = false ∧ op ≠ .markPersisted) ∧
    let a := (Assembler.empty.performAll branching).perform .markPersisted
    let b := a.performAll joining
    a.best.length = 2 ∧ b.persistedLen ≤ b.best.length ∧
      ∃ events, a.taken joining ++ b.reorgs = a.reorgs ++ events ∧
        (2 :: cacheForks events).min? = some b.persistedLen := by
  have hmark : (Assembler.empty.performAll branching).Marks .markPersisted := Marks.persisted
  have hplain : ∀ op ∈ joining, op.isSeed = false ∧ op ≠ .markPersisted := by decide
  obtain ⟨hle, -, events, htaken, hmin⟩ := performAll_marked hmark hplain
  have htwo : ((Assembler.empty.performAll branching).perform .markPersisted).best.length = 2 := by
    decide +kernel
  rw [htwo] at hmin
  exact ⟨hmark, hplain, htwo, hle, events, htaken, hmin⟩

end Assembler

end BlockIndex
