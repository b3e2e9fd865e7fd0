import BlockIndex.Proofs.Chain.Tip

/-!
# The best chain among records

Which chain an assembler finds best, said of the records that it was given, in the order in which it
got them, and of the tip that it was seeded with.

* `FirstOf`    the first of a list of which something holds;
* `SeenFirst`  of two blocks, a record of the one comes before every record of the other;
* `Leads`      a block has the longest ancestry and comes before all others that have one as long;
* `IsBest`     a chain is the ancestry of the block that leads, or there is nothing to lead;
* `IsTip`      a tip that can be put in front.

Main statements: `IsBest.unique`, `tip_seeded` (the tip is the one put in front as long as it is one
of the highest blocks, then the first record of one), `isBest_seeded`.
-/

namespace BlockIndex

/-! ## The first of a list -/

/-- The first of a list of which something holds. -/
def FirstOf {α : Type} (p : α → Prop) (l : List α) (x : α) : Prop :=
  ∃ before after, l = before ++ x :: after ∧ p x ∧ ∀ y ∈ before, ¬ p y

namespace FirstOf

variable {α : Type} {p : α → Prop} {l xs ys : List α} {x y : α}

theorem mem (h : FirstOf p l x) : x ∈ l := by
  obtain ⟨before, after, rfl, _⟩ := h
  exact List.mem_append_right _ List.mem_cons_self

theorem holds (h : FirstOf p l x) : p x := by
  obtain ⟨_, _, _, hx, _⟩ := h
  exact hx

theorem unique (h : FirstOf p l x) (h' : FirstOf p l y) : x = y := by
  obtain ⟨before, after, rfl, hx, hbefore⟩ := h
  obtain ⟨before', after', heq, hy, hbefore'⟩ := h'
  rcases List.append_eq_append_iff.1 heq with ⟨mid, rfl, hrest⟩ | ⟨mid, rfl, hrest⟩
  · cases mid with
    | nil => exact (List.cons.inj hrest).1
    | cons b mid =>
      rw [List.cons_append] at hrest
      rw [(List.cons.inj hrest).1] at hx
      exact absurd hx (hbefore' b (List.mem_append_right _ List.mem_cons_self))
  · cases mid with
    | nil => exact (List.cons.inj hrest).1.symm
    | cons b mid =>
      rw [List.cons_append] at hrest
      rw [(List.cons.inj hrest).1] at hy
      exact absurd hy (hbefore b (List.mem_append_right _ List.mem_cons_self))

theorem appended (h : FirstOf p xs x) (ys : List α) : FirstOf p (xs ++ ys) x := by
  obtain ⟨before, after, rfl, hx, hbefore⟩ := h
  exact ⟨before, after ++ ys, by rw [List.append_assoc, List.cons_append], hx, hbefore⟩

theorem prepended (h : FirstOf p ys x) (hxs : ∀ y ∈ xs, ¬ p y) : FirstOf p (xs ++ ys) x := by
  obtain ⟨before, after, rfl, hx, hbefore⟩ := h
  refine ⟨xs ++ before, after, (List.append_assoc _ _ _).symm, hx, ?_⟩
  intro y hy
  rcases List.mem_append.1 hy with hy | hy
  · exact hxs y hy
  · exact hbefore y hy

theorem exists_of_mem (hy : y ∈ l) (hp : p y) : ∃ x, FirstOf p l x := by
  induction l with
  | nil => simp at hy
  | cons a rest ih =>
    by_cases ha : p a
    · exact ⟨a, [], rest, rfl, ha, by simp⟩
    · rcases List.mem_cons.1 hy with rfl | hy
      · exact absurd hp ha
      · obtain ⟨x, hx⟩ := ih hy
        have hout : ∀ z ∈ [a], ¬ p z := by simpa using ha
        exact ⟨x, hx.prepended hout⟩

/-- If the first part of a list holds one, the first of the list is the first of that part. -/
theorem left (h : FirstOf p (xs ++ ys) x) (hy : y ∈ xs) (hp : p y) : FirstOf p xs x := by
  obtain ⟨z, hz⟩ := exists_of_mem hy hp
  rw [h.unique (hz.appended ys)]
  exact hz

/-- If the first part holds none, it is the first of the rest. -/
theorem right (h : FirstOf p (xs ++ ys) x) (hxs : ∀ y ∈ xs, ¬ p y) : FirstOf p ys x := by
  have hx : x ∈ ys := by
    rcases List.mem_append.1 h.mem with hx | hx
    · exact absurd h.holds (hxs x hx)
    · exact hx
  obtain ⟨z, hz⟩ := exists_of_mem hx h.holds
  rw [h.unique (hz.prepended hxs)]
  exact hz

theorem le_of_sorted {le : α → α → Prop} (h : FirstOf p l x) (hsorted : l.Pairwise le)
    (hrefl : le x x) (hy : y ∈ l) (hp : p y) : le x y := by
  obtain ⟨before, after, rfl, _, hbefore⟩ := h
  rcases List.mem_append.1 hy with hy | hy
  · exact absurd hp (hbefore y hy)
  · rcases List.mem_cons.1 hy with rfl | hy
    · exact hrefl
    · exact (List.pairwise_cons.1 (List.pairwise_append.1 hsorted).2.1).1 y hy

end FirstOf

/-! ## The block that leads -/

/-- A record of the block `x` comes before every record of the block `y`. -/
def SeenFirst (records : List Record) (x y : Hash) : Prop :=
  ∃ before r after, records = before ++ r :: after ∧ r.hash = x ∧ y ∉ before.map Record.hash

/-- Among records that came in this order, no block has a longer ancestry than `x`, and of those
that have one as long `x` is the one put in front, or there is none in front and `x` came first. -/
structure Leads (records : List Record) (front : Option Hash) (x : Hash) (chain : List Hash) :
    Prop where
  rooted : Rooted records x chain
  longest : ∀ y other, Rooted records y other → other.length ≤ chain.length
  first : front ≠ some x → ∀ y other, Rooted records y other → other.length = chain.length →
    y ≠ x → front ≠ some y ∧ SeenFirst records x y

/-- The best chain among records that came in this order, with a tip put in front. -/
def IsBest (records : List Record) (front : Option Hash) (chain : List Hash) : Prop :=
  (chain = [] ∧ ∀ y other, ¬ Rooted records y other) ∨ ∃ x, Leads records front x chain

/-- A tip, if there is one, is one of the highest of some entries. -/
def IsTip (es : List Entry) (tip : Option Hash) : Prop :=
  ∀ x, tip = some x → ∃ e ∈ es, e.hash = x ∧ ∀ f ∈ es, f.height ≤ e.height

section Unique

variable {records : List Record} {front : Option Hash} {x y : Hash} {chain other : List Hash}

theorem SeenFirst.asymm (h : SeenFirst records x y) (h' : SeenFirst records y x) : x = y := by
  obtain ⟨before, r, after, rfl, rfl, hy⟩ := h
  obtain ⟨before', s, after', heq, rfl, hr⟩ := h'
  rcases List.append_eq_append_iff.1 heq with ⟨mid, hbefore, hrest⟩ | ⟨mid, hbefore, hrest⟩
  · cases mid with
    | nil =>
      rw [List.nil_append] at hrest
      rw [(List.cons.inj hrest).1]
    | cons b mid =>
      -- the first record of `x` stands before the first of `y`
      rw [List.cons_append] at hrest
      rw [hbefore, (List.cons.inj hrest).1] at hr
      exact absurd (List.mem_map_of_mem (List.mem_append_right _ List.mem_cons_self)) hr
  · cases mid with
    | nil =>
      rw [List.nil_append] at hrest
      rw [(List.cons.inj hrest).1]
    | cons b mid =>
      rw [List.cons_append] at hrest
      rw [hbefore, (List.cons.inj hrest).1] at hy
      exact absurd (List.mem_map_of_mem (List.mem_append_right _ List.mem_cons_self)) hy

theorem Leads.eq (h : Leads records front x chain) (h' : Leads records front y other) : x = y := by
  have hlength : other.length = chain.length :=
    Nat.le_antisymm (h.longest _ _ h'.rooted) (h'.longest _ _ h.rooted)
  apply Decidable.byContradiction
  intro hne
  by_cases hfront : front = some x
  · have hother : front ≠ some y := by
      rw [hfront]
      exact fun heq => hne (Option.some.inj heq)
    exact (h'.first hother x chain h.rooted hlength.symm hne).1 hfront
  · obtain ⟨hfront', hseen⟩ := h.first hfront y other h'.rooted hlength fun heq => hne heq.symm
    obtain ⟨_, hseen'⟩ := h'.first hfront' x chain h.rooted hlength.symm hne
    exact hne (hseen.asymm hseen')

theorem IsBest.unique (hc : Consistent records) (h : IsBest records front chain)
    (h' : IsBest records front other) : chain = other := by
  rcases h with ⟨rfl, hnone⟩ | ⟨x, hx⟩
  · rcases h' with ⟨rfl, _⟩ | ⟨y, hy⟩
    · rfl
    · exact absurd hy.rooted (hnone _ _)
  · rcases h' with ⟨rfl, hnone⟩ | ⟨y, hy⟩
    · exact absurd hx.rooted (hnone _ _)
    · have heq := hx.eq hy
      rw [← heq] at hy
      exact hy.rooted.unique hc hx.rooted

end Unique

namespace Assembler

/-! ## First copies -/

section FirstCopies

variable {known : List Hash} {rs before after : List Record} {r s : Record}

/-- First copies stand in the order in which the blocks were seen. -/
theorem seenFirst_of_newRecords (h : newRecords known rs = before ++ r :: after) (hs : s ∈ after) :
    SeenFirst rs r.hash s.hash := by
  induction rs generalizing known before with
  | nil => simp [newRecords] at h
  | cons a rest ih =>
    have hcons : ∀ {ids : List Hash} {front : List Record}, a.hash ∈ ids →
        newRecords ids rest = front ++ r :: after →
        SeenFirst rest r.hash s.hash → SeenFirst (a :: rest) r.hash s.hash := by
      intro ids front hmem heq hseen
      obtain ⟨front, q, back, rfl, hq, hout⟩ := hseen
      refine ⟨a :: front, q, back, rfl, hq, ?_⟩
      rw [List.map_cons, List.mem_cons, not_or]
      refine ⟨fun hsame => ?_, hout⟩
      have hin : s ∈ newRecords ids (front ++ q :: back) := by
        rw [heq]
        exact List.mem_append_right _ (List.mem_cons_of_mem r hs)
      rw [← hsame] at hmem
      exact (mem_newRecords hin).1 hmem
    rw [newRecords_cons] at h
    by_cases ha : a.hash ∈ known
    · rw [if_pos ha] at h
      exact hcons ha h (ih h)
    · rw [if_neg ha] at h
      cases before with
      | nil =>
        rw [List.nil_append] at h
        rw [(List.cons.inj h).1]
        exact ⟨[], r, rest, rfl, rfl, by simp⟩
      | cons b before =>
        have hrest := (List.cons.inj h).2
        exact hcons List.mem_cons_self hrest (ih hrest)

theorem newRecords_append (known : List Hash) (rs others : List Record) :
    newRecords known (rs ++ others)
      = newRecords known rs ++ newRecords (rs.map Record.hash ++ known) others := by
  induction rs generalizing known with
  | nil => rfl
  | cons a rest ih =>
    rw [List.cons_append, newRecords_cons, newRecords_cons]
    by_cases ha : a.hash ∈ known
    · rw [if_pos ha, if_pos ha, ih]
      congr 1
      apply newRecords_congr
      intro x
      rw [List.map_cons, List.cons_append, List.mem_cons]
      constructor
      · exact Or.inr
      · intro hx
        rcases hx with rfl | hx
        · exact List.mem_append_right _ ha
        · exact hx
    · rw [if_neg ha, if_neg ha, ih, List.cons_append]
      congr 2
      apply newRecords_congr
      intro x
      rw [List.mem_append, List.mem_cons, List.map_cons, List.cons_append, List.mem_cons,
        List.mem_append, or_left_comm]

theorem mem_of_newRecords (hr : r ∈ newRecords known rs) : r ∈ rs := by
  obtain ⟨_, before, after, heq, _⟩ := mem_newRecords hr
  rw [heq]
  exact List.mem_append_right _ List.mem_cons_self

theorem exists_newRecords (hc : Consistent rs) (hr : r ∈ rs) :
    ∃ s ∈ newRecords [] rs, s.hash = r.hash ∧ s.header = r.header := by
  have hmem : r.hash ∈ ([] : List Hash) ∨ r.hash ∈ (newRecords [] rs).map Record.hash :=
    mem_hashes_newRecords.2 (Or.inr (List.mem_map_of_mem hr))
  rcases hmem with hmem | hmem
  · simp at hmem
  · obtain ⟨s, hs, hhash⟩ := List.mem_map.1 hmem
    exact ⟨s, hs, hhash, hc s (mem_of_newRecords hs) r hr hhash⟩

end FirstCopies

/-! ## The best chain of an assembler -/

section Seeded

variable {es : List Entry} {tip : Option Hash} {rs : List Record} {x : Hash} {chain : List Hash}

/-- What a seeded assembler holds in the end are the first copies of what it was given. -/
theorem records_seeded (hf : Forest es) (hhash : ∀ e ∈ es, e.header.hash = e.hash) :
    ((Assembler.seeded es tip).insertAll rs).records
      = newRecords [] (es.map Entry.toRecord ++ rs) := by
  have hheld := Replayed.seeded hf hhash tip
  have hnodup : ((es.map Entry.toRecord).map Record.hash).Nodup := by
    rw [List.map_map]
    exact hf.nodup
  rw [records_insertAll (Linking.seeded es tip), hheld.records, newRecords_append,
    newRecords_of_fresh hnodup (by simp), List.append_nil]

theorem getElem?_records_seeded (hf : Forest es) (hhash : ∀ e ∈ es, e.header.hash = e.hash)
    {i : NodeId} {e : Entry} (he : es[i]? = some e) :
    ((Assembler.seeded es tip).insertAll rs).records[i]? = some e.toRecord := by
  have hlt : i < (es.map Entry.toRecord).length := by
    rw [List.length_map]
    exact (List.getElem?_eq_some_iff.1 he).1
  rw [records_insertAll (Linking.seeded es tip), (Replayed.seeded hf hhash tip).records,
    List.getElem?_append_left hlt, List.getElem?_map, he]
  rfl

/-- An ancestry among the records held is one among those given. -/
theorem rooted_seeded_iff (hf : Forest es) (hhash : ∀ e ∈ es, e.header.hash = e.hash)
    (hc : Consistent (es.map Entry.toRecord ++ rs)) :
    Rooted ((Assembler.seeded es tip).insertAll rs).records x chain ↔
      Rooted (es.map Entry.toRecord ++ rs) x chain := by
  rw [records_seeded hf hhash]
  constructor
  · intro h
    exact h.mono fun r hr => mem_of_newRecords hr
  · intro h
    exact h.transfer fun r hr => exists_newRecords hc hr

/-- A block that has an ancestry among the records given is linked at its end. -/
theorem heightOf?_seeded (tip : Option Hash) (hf : Forest es) (hhash : ∀ e ∈ es, e.header.hash = e.hash)
    (hc : Consistent (es.map Entry.toRecord ++ rs))
    (h : Rooted (es.map Entry.toRecord ++ rs) x chain) :
    ∃ k, ((Assembler.seeded es tip).insertAll rs).heightOf? x = some k ∧ chain.length = k + 1 :=
  ((Linking.seeded es tip).insertAll rs).heightOf?_of_rooted ((rooted_seeded_iff hf hhash hc).2 h)

/-- The block that is put in front is the tip that was asked for. -/
theorem tipped_seeded (hf : Forest es) (hhash : ∀ e ∈ es, e.header.hash = e.hash)
    (htip : IsTip es tip) (rs : List Record) :
    ∃ front, Tipped front ((Assembler.seeded es tip).insertAll rs) ∧
      (∀ e ∈ es, tip = some e.hash → front ≠ none) ∧
      ∀ t, front = some t → ∃ e, es[t]? = some e ∧ tip = some e.hash := by
  obtain ⟨front, htipped, hset, hfront⟩ := Tipped.seeded hf hhash tip (by
    intro e he heq f hf'
    obtain ⟨e', he', hsame, hhigh⟩ := htip e.hash heq
    rw [← hf.eq_of_hash he' he hsame]
    exact hhigh f hf')
  exact ⟨front, htipped.insertAll (Linking.seeded es tip) rs, hset, hfront⟩

/-- **The tip of a seeded assembler** is the one that was put in front as long as it is one of the
highest blocks, and then the first record of one. -/
theorem tip_seeded (hf : Forest es) (hhash : ∀ e ∈ es, e.header.hash = e.hash)
    (htip : IsTip es tip) {a : Assembler} (ha : a = (Assembler.seeded es tip).insertAll rs) :
    (a.best.hashes = [] ∧ ∀ x, a.heightOf? x = none) ∨
    ∃ r ∈ a.records, a.best.tip? = some r.hash ∧ a.Contends r.hash ∧
      Rooted a.records r.hash a.best.hashes ∧
      (tip = some r.hash ∨ (∀ x, tip = some x → ¬ a.Contends x) ∧
        FirstOf (fun s => a.Contends s.hash) a.records r) := by
  have hheld : ∀ {i : NodeId} {e : Entry}, es[i]? = some e → a.records[i]? = some e.toRecord := by
    intro i e he
    rw [ha]
    exact getElem?_records_seeded hf hhash he
  have hl : a.Linking [] := by
    rw [ha]
    exact (Linking.seeded es tip).insertAll rs
  obtain ⟨front, htipped, hset, hfront⟩ := tipped_seeded hf hhash htip rs
  rw [← ha] at htipped
  rcases htipped.tip?_spec hl.distinct with hbare | ⟨t, r, hr, ht, hcontends, hrooted, hfirst⟩
  · exact Or.inl hbare
  refine Or.inr ⟨r, List.mem_of_getElem? ht, hr, hcontends, hrooted, ?_⟩
  by_cases hput : front = some t
  · left
    obtain ⟨e, he, heq⟩ := hfront t hput
    have hre := hheld he
    rw [ht] at hre
    rw [Option.some.inj hre]
    exact heq
  have hlater : ∀ (id : NodeId) (s : Record), a.records[id]? = some s → a.Contends s.hash →
      some id ≠ front ∧ t ≤ id := by
    intro id s hid hs
    rcases hfirst id s hid hs with h | h
    · exact absurd h.symm hput
    · exact h
  refine Or.inr ⟨?_, ?_⟩
  · intro x hx hxc
    obtain ⟨e, he, hex, _⟩ := htip x hx
    obtain ⟨t', ht'⟩ := Option.ne_none_iff_exists'.1 (hset e he (by rw [hx, hex]))
    obtain ⟨e', he', heq'⟩ := hfront t' ht'
    rw [Option.some.inj (hx.symm.trans heq')] at hxc
    exact (hlater t' e'.toRecord (hheld he') hxc).1 ht'.symm
  · refine ⟨a.records.take t, a.records.drop (t + 1), ?_, hcontends, ?_⟩
    · rw [← (List.getElem?_eq_some_iff.1 ht).2, List.getElem_cons_drop, List.take_append_drop]
    · intro s hs hsc
      obtain ⟨id, hid⟩ := List.getElem?_of_mem hs
      have hlt := (List.getElem?_eq_some_iff.1 hid).1
      rw [List.length_take] at hlt
      rw [List.getElem?_take_of_lt (Nat.lt_of_lt_of_le hlt (Nat.min_le_left _ _))] at hid
      have := (hlater id s hid hsc).2
      exact absurd this (Nat.not_le_of_lt (Nat.lt_of_lt_of_le hlt (Nat.min_le_left _ _)))

theorem contends_tip (hf : Forest es) (hhash : ∀ e ∈ es, e.header.hash = e.hash)
    (htip : IsTip es tip) (hx : ((Assembler.seeded es tip).insertAll rs).best.tip? = some x) :
    ((Assembler.seeded es tip).insertAll rs).Contends x := by
  rcases tip_seeded hf hhash htip rfl with ⟨hbare, _⟩ | ⟨r, _, hr, hcontends, _⟩
  · rw [BestChain.tip?, hbare] at hx
    simp at hx
  · rw [hr] at hx
    rw [← Option.some.inj hx]
    exact hcontends

/-- **The best chain of a seeded assembler**, said of what it was given. -/
theorem isBest_seeded (hf : Forest es) (hhash : ∀ e ∈ es, e.header.hash = e.hash)
    (htip : IsTip es tip) (hc : Consistent (es.map Entry.toRecord ++ rs)) :
    IsBest (es.map Entry.toRecord ++ rs) tip
      ((Assembler.seeded es tip).insertAll rs).best.hashes := by
  have hlinked : ∀ {y other}, Rooted (es.map Entry.toRecord ++ rs) y other → ∃ k,
      ((Assembler.seeded es tip).insertAll rs).heightOf? y = some k ∧ other.length = k + 1 :=
    fun h => heightOf?_seeded tip hf hhash hc h
  rcases tip_seeded hf hhash htip rfl with
    ⟨hbest, hnone⟩ | ⟨r, _, _, ⟨k, hk, hmax⟩, hrooted, htie⟩
  · refine Or.inl ⟨hbest, ?_⟩
    intro y other hother
    obtain ⟨j, hj, _⟩ := hlinked hother
    rw [hnone] at hj
    simp at hj
  · have hchain := (rooted_seeded_iff hf hhash hc).1 hrooted
    obtain ⟨j, hj, hlength⟩ := hlinked hchain
    rw [hk] at hj
    obtain rfl := Option.some.inj hj
    refine Or.inr ⟨r.hash, hchain, ?_, ?_⟩
    · intro y other hother
      obtain ⟨j, hj, hlen⟩ := hlinked hother
      have := hmax y j hj
      omega
    · intro hnot y other hother hsame hne
      obtain ⟨hout, before, after, hsplit, _, hbefore⟩ := htie.resolve_left hnot
      obtain ⟨j, hj, hlen⟩ := hlinked hother
      have hcontends : ((Assembler.seeded es tip).insertAll rs).Contends y := by
        have hjk : j = k := by omega
        rw [hjk] at hj
        exact ⟨k, hj, hmax⟩
      obtain ⟨s, hs, rfl⟩ := ((rooted_seeded_iff hf hhash hc).2 hother).mem
      refine ⟨fun hput => hout s.hash hput hcontends, ?_⟩
      rw [hsplit] at hs
      rw [records_seeded hf hhash] at hsplit
      rcases List.mem_append.1 hs with hs | hs
      · exact absurd hcontends (hbefore s hs)
      · rcases List.mem_cons.1 hs with heq | hs
        · exact absurd (congrArg Record.hash heq) hne
        · exact seenFirst_of_newRecords hsplit hs

end Seeded

end Assembler

end BlockIndex
