import BlockIndex.Proofs.Chain.Among
import BlockIndex.Proofs.Chain.Operations

/-!
# Which entries can be seeded

A new assembler takes a list of entries just if each of them may stand after those before it: it is
genuine, and its block was there at the same height or the entry attaches to one that was.  The
records held are then the first copies, all of them linked, and the tip is the one asked for, or the
first of the highest entries if no entry has that hash.

* `Entry.FitsAfter`   an entry may stand after others;
* `Replayable`        each entry of a list may stand after those before it;
* `FirstCopies`       the first entry of each block of a list;
* `SeededWith`        what a list of entries and a tip leave of a new assembler.

Main statements: `replay_ok_iff` (replaying ends well just if what is replayed fits after what was)
and `seed_ok_iff`.
-/

namespace BlockIndex

/-- An entry may stand after others: its hash is its header's, and either its block stands among
them at its height, or it attaches to them. -/
def Entry.FitsAfter (e : Entry) (es : List Entry) : Prop :=
  e.header.hash = e.hash ∧
    ((∃ f ∈ es, f.hash = e.hash ∧ f.height = e.height) ∨ e.AttachesTo es)

/-- Each entry of `rest` may stand after `done` and those of `rest` before it. -/
def FitOn (done rest : List Entry) : Prop :=
  ∀ before e after, rest = before ++ e :: after → e.FitsAfter (done ++ before)

/-- Each entry may stand after those before it. -/
def Replayable (es : List Entry) : Prop :=
  ∀ before e after, es = before ++ e :: after → e.FitsAfter before

/-- No two different headers of the entries share a hash. -/
def OneHeader (es : List Entry) : Prop :=
  ∀ e ∈ es, ∀ f ∈ es, e.header.hash = f.header.hash → e.header = f.header

instance (es : List Entry) : Decidable (OneHeader es) :=
  inferInstanceAs
    (Decidable (∀ e ∈ es, ∀ f ∈ es, e.header.hash = f.header.hash → e.header = f.header))

theorem fitOn_nil (done : List Entry) : FitOn done [] := by
  intro before e after h
  simp at h

theorem fitOn_cons {done rest : List Entry} {e : Entry} :
    FitOn done (e :: rest) ↔ e.FitsAfter done ∧ FitOn (done ++ [e]) rest := by
  constructor
  · intro h
    refine ⟨?_, ?_⟩
    · have hfirst := h [] e rest rfl
      rwa [List.append_nil] at hfirst
    · intro before f after hrest
      have hlater := h (e :: before) f after (by rw [hrest, List.cons_append])
      rwa [List.append_cons] at hlater
  · rintro ⟨hfirst, hlater⟩ before f after hrest
    cases before with
    | nil =>
      rw [List.append_nil, ← (List.cons.inj hrest).1]
      exact hfirst
    | cons g before =>
      rw [List.cons_append, List.cons.injEq] at hrest
      rw [← hrest.1, List.append_cons]
      exact hlater before f after hrest.2

/-- Two entries of one header that attach to a forest stand at one height. -/
theorem Forest.height_eq {es : List Entry} (h : Forest es) {e f : Entry} (he : e.AttachesTo es)
    (hf : f.AttachesTo es) (hheader : e.header = f.header) : e.height = f.height := by
  rcases he with ⟨hg, hzero⟩ | ⟨hg, p, hp, hhash, hheight⟩
  · rcases hf with ⟨_, hzero'⟩ | ⟨hg', _⟩
    · rw [hzero, hzero']
    · rw [hheader, hg'] at hg
      simp at hg
  · rcases hf with ⟨hg', _⟩ | ⟨_, q, hq, hhash', hheight'⟩
    · rw [hheader, hg'] at hg
      simp at hg
    · have hparent : p = q := h.eq_of_hash hp hq (by rw [hhash, hhash', hheader])
      rw [hheight, hheight', hparent]

/-! ## First copies -/

/-- `kept` has the first entry of each block of `es`, in their order; another entry of the block
says the same height. -/
structure FirstCopies (es kept : List Entry) : Prop where
  genuine : ∀ e ∈ es, e.header.hash = e.hash
  sub : ∀ f ∈ kept, f ∈ es
  covers : ∀ e ∈ es, ∃ f ∈ kept, f.hash = e.hash ∧ f.height = e.height
  /-- What is first among them in a sense that only heights matter to is first among all. -/
  first : ∀ (p : Nat → Prop) (x : Entry), FirstOf (fun e => p e.height) kept x →
    FirstOf (fun e => p e.height) es x

namespace FirstCopies

variable {es kept : List Entry} {e : Entry}

theorem nil : FirstCopies [] [] where
  genuine := by simp
  sub := by simp
  covers := by simp
  first := fun _ _ h => h

/-- Another entry of a block that is there. -/
theorem again (h : FirstCopies es kept) (hself : e.header.hash = e.hash)
    (hthere : ∃ f ∈ kept, f.hash = e.hash ∧ f.height = e.height) :
    FirstCopies (es ++ [e]) kept where
  genuine := by
    intro f hf
    rcases List.mem_append.1 hf with hf | hf
    · exact h.genuine f hf
    · rw [List.mem_singleton.1 hf]
      exact hself
  sub := fun f hf => List.mem_append_left _ (h.sub f hf)
  covers := by
    intro f hf
    rcases List.mem_append.1 hf with hf | hf
    · exact h.covers f hf
    · rw [List.mem_singleton.1 hf]
      exact hthere
  first := fun p x hx => (h.first p x hx).appended [e]

/-- The first entry of a block. -/
theorem snoc (h : FirstCopies es kept) (hself : e.header.hash = e.hash) :
    FirstCopies (es ++ [e]) (kept ++ [e]) where
  genuine := by
    intro f hf
    rcases List.mem_append.1 hf with hf | hf
    · exact h.genuine f hf
    · rw [List.mem_singleton.1 hf]
      exact hself
  sub := by
    intro f hf
    rcases List.mem_append.1 hf with hf | hf
    · exact List.mem_append_left _ (h.sub f hf)
    · exact List.mem_append_right _ hf
  covers := by
    intro f hf
    rcases List.mem_append.1 hf with hf | hf
    · obtain ⟨g, hg, hsame⟩ := h.covers f hf
      exact ⟨g, List.mem_append_left _ hg, hsame⟩
    · exact ⟨f, List.mem_append_right _ hf, rfl, rfl⟩
  first := by
    intro p x hx
    by_cases hkept : ∃ f ∈ kept, p f.height
    · obtain ⟨f, hf, hp⟩ := hkept
      exact (h.first p x (hx.left hf hp)).appended [e]
    · -- nobody before qualifies, not among all entries either
      have hout : ∀ f ∈ es, ¬ p f.height := by
        intro f hf hp
        obtain ⟨g, hg, _, hheight⟩ := h.covers f hf
        exact hkept ⟨g, hg, hheight.symm ▸ hp⟩
      exact (hx.right fun f hf hp => hkept ⟨f, hf, hp⟩).prepended hout

/-- An entry attaches to all entries just if it attaches to the first copies. -/
theorem attachesTo_iff (h : FirstCopies es kept) : e.AttachesTo es ↔ e.AttachesTo kept := by
  constructor
  · rintro (hg | ⟨hg, p, hp, hhash, hheight⟩)
    · exact Or.inl hg
    · obtain ⟨q, hq, hqh, hqk⟩ := h.covers p hp
      exact Or.inr ⟨hg, q, hq, hqh.trans hhash, by rw [hheight, hqk]⟩
  · exact fun hatt => hatt.mono h.sub

/-- A block that is there fits at its height and at no other. -/
theorem fitsAfter_iff (h : FirstCopies es kept) (hf : Forest kept) (hself : e.header.hash = e.hash)
    (hone : OneHeader (es ++ [e])) {f : Entry} (hmem : f ∈ kept) (hhash : f.hash = e.hash) :
    e.FitsAfter es ↔ f.height = e.height := by
  have hin := h.sub f hmem
  constructor
  · rintro ⟨_, ⟨g, hg, hgh, hgk⟩ | hatt⟩
    · obtain ⟨g', hg', hgh', hgk'⟩ := h.covers g hg
      rw [hf.eq_of_hash hmem hg' (by rw [hhash, hgh', hgh]), hgk', hgk]
    · refine hf.height_eq (hf.attached hmem) (h.attachesTo_iff.1 hatt) ?_
      refine hone f (List.mem_append_left _ hin) e (List.mem_append_right _ (by simp)) ?_
      rw [h.genuine f hin, hhash, hself]
  · intro hheight
    exact ⟨hself, Or.inl ⟨f, hin, hhash, hheight⟩⟩

end FirstCopies

namespace Assembler

variable {a : Assembler} {es kept done rest : List Entry} {e : Entry}

/-! ## One entry -/

theorem Replayed.hashes (h : a.Replayed kept) :
    a.records.map Record.hash = kept.map Entry.hash := by
  rw [h.records, List.map_map]
  rfl

/-- A record links at the heights at which its entry would attach. -/
theorem Replayed.linkHeight?_eq_some_iff (h : a.Replayed kept) (hl : a.Linking [])
    (hf : Forest kept) : a.linkHeight? e.toRecord = some e.height ↔ e.AttachesTo kept := by
  have hparent : ∀ k, a.heightOf? e.header.prevHash = some k ↔
      ∃ p ∈ kept, p.hash = e.header.prevHash ∧ p.height = k :=
    fun k => (h.listed hf).heightOf?_iff hl.distinct
  have hlink : a.linkHeight? e.toRecord =
      if e.header.isGenesis = true then some 0
      else (a.heightOf? e.header.prevHash).map (· + 1) := rfl
  unfold Entry.AttachesTo
  rw [hlink]
  cases hg : e.header.isGenesis with
  | true => simp [eq_comm]
  | false =>
    rw [if_neg (by decide), Option.map_eq_some_iff]
    constructor
    · rintro ⟨k, hk, hheight⟩
      obtain ⟨p, hp, hhash, rfl⟩ := (hparent k).1 hk
      exact Or.inr ⟨rfl, p, hp, hhash, hheight.symm⟩
    · rintro (⟨hfalse, _⟩ | ⟨_, p, hp, hhash, hheight⟩)
      · simp at hfalse
      · exact ⟨p.height, (hparent _).2 ⟨p, hp, hhash, rfl⟩, hheight.symm⟩

/-- A new block links at the height of its entry just if the entry attaches. -/
theorem Replayed.heightOf?_insert_iff (h : a.Replayed kept) (hl : a.Linking []) (hf : Forest kept)
    (hnew : e.hash ∉ kept.map Entry.hash) :
    (a.insert e.toRecord).2.heightOf? e.hash = some e.height ↔ e.AttachesTo kept := by
  -- the block links where an entry of it would attach
  have hlinks : ∀ k, { e with height := k }.AttachesTo kept →
      (a.insert e.toRecord).2.heightOf? e.hash = some k := by
    intro k hatt
    have hnext := h.insert (e := { e with height := k }) hl hf hnew hatt
    exact ((hnext.listed (hf.snoc hnew hatt)).heightOf?_iff (hl.insert e.toRecord).distinct).2
      ⟨{ e with height := k }, by simp, rfl, rfl⟩
  refine ⟨fun hheight => ?_, hlinks e.height⟩
  rcases insert_cases a e.toRecord with ⟨hmem, _⟩ | ⟨_, k, hlink, _⟩ | ⟨hout, _, heq⟩
  · rw [h.hashes] at hmem
    exact absurd hmem hnew
  · have hatt := (h.linkHeight?_eq_some_iff (e := { e with height := k }) hl hf).1 hlink
    rw [hlinks k hatt] at hheight
    rwa [Option.some.inj hheight] at hatt
  · have hsame : (a.parked e.toRecord).heightOf? = a.heightOf? := heightOf?_added hl.distinct hout
    rw [heq, hsame, (h.listed hf).heightOf?_iff hl.distinct] at hheight
    obtain ⟨f, hmem, hhash, _⟩ := hheight
    exact absurd (hhash ▸ List.mem_map_of_mem hmem) hnew

theorem insert_known {r : Record} (h : r.hash ∈ a.records.map Record.hash) :
    (a.insert r).2 = a := by
  rcases insert_cases a r with ⟨_, heq, _⟩ | ⟨hout, _⟩ | ⟨hout, _⟩
  · exact heq
  · exact absurd h hout
  · exact absurd h hout

/-- An entry that is replayed stands at its height just if it fits, and then what is held are the
first copies again. -/
theorem Replayed.insert_fits (h : a.Replayed kept) (hl : a.Linking []) (hf : Forest kept)
    (hc : FirstCopies done kept) (hone : OneHeader (done ++ [e])) (hself : e.header.hash = e.hash) :
    ((a.insert e.toRecord).2.heightOf? e.hash = some e.height ↔ e.FitsAfter done) ∧
      (e.FitsAfter done → ∃ kept', (a.insert e.toRecord).2.Replayed kept' ∧ Forest kept' ∧
        FirstCopies (done ++ [e]) kept') := by
  by_cases hknown : e.hash ∈ kept.map Entry.hash
  · -- a block that is known stays where it is
    obtain ⟨f, hmem, hhash⟩ := List.mem_map.1 hknown
    have hsame : (a.insert e.toRecord).2 = a := insert_known (by rw [h.hashes]; exact hknown)
    have hfits := hc.fitsAfter_iff hf hself hone hmem hhash
    have hheight := ((h.listed hf).heightOf?_iff hl.distinct).2 ⟨f, hmem, hhash, rfl⟩
    rw [hsame, hheight, hfits, Option.some.injEq]
    exact ⟨Iff.rfl, fun hk => ⟨kept, h, hf, hc.again hself ⟨f, hmem, hhash, hk⟩⟩⟩
  · have hfits : e.FitsAfter done ↔ e.AttachesTo kept := by
      constructor
      · rintro ⟨_, ⟨f, hmem, hhash, _⟩ | hatt⟩
        · obtain ⟨g, hg, hgh, _⟩ := hc.covers f hmem
          exact absurd (hhash ▸ hgh ▸ List.mem_map_of_mem hg) hknown
        · exact hc.attachesTo_iff.1 hatt
      · exact fun hatt => ⟨hself, Or.inr (hc.attachesTo_iff.2 hatt)⟩
    rw [h.heightOf?_insert_iff hl hf hknown, hfits]
    exact ⟨Iff.rfl, fun hatt =>
      ⟨kept ++ [e], h.insert hl hf hknown hatt, hf.snoc hknown hatt, hc.snoc hself⟩⟩

/-! ## All entries -/

/-- **Replaying ends well** just if what is replayed fits after what was, and fails with a complaint
about the cache otherwise. -/
theorem replay_ok_iff (h : a.Replayed kept) (hl : a.Linking []) (hf : Forest kept)
    (hc : FirstCopies done kept) (hone : OneHeader (done ++ rest)) :
    ((a.replay rest).1 = .ok () ↔ FitOn done rest) ∧
      (FitOn done rest → ∃ kept', (a.replay rest).2.Replayed kept' ∧ Forest kept' ∧
        FirstCopies (done ++ rest) kept') ∧
      (¬ FitOn done rest → ∃ fault, (a.replay rest).1 = .error (.cacheCorrupt fault)) := by
  induction rest generalizing a done kept with
  | nil =>
    have hfit := fitOn_nil done
    refine ⟨iff_of_true rfl hfit, fun _ => ⟨kept, h, hf, ?_⟩, fun hnot => absurd hfit hnot⟩
    rw [List.append_nil]
    exact hc
  | cons e rest ih =>
    rw [List.append_cons] at hone ⊢
    rw [fitOn_cons, replay]
    by_cases hself : e.header.hash = e.hash
    · rw [if_neg (not_not_intro hself)]
      dsimp only
      obtain ⟨hheight, hnext⟩ := h.insert_fits hl hf hc
        (fun f hf g hg => hone f (List.mem_append_left _ hf) g (List.mem_append_left _ hg)) hself
      by_cases hfits : e.FitsAfter done
      · obtain ⟨kept', hheld, hforest, hcopies⟩ := hnext hfits
        rw [if_pos (hheight.2 hfits), and_iff_right hfits]
        exact ih hheld (hl.insert e.toRecord) hforest hcopies hone
      · rw [if_neg fun hk => hfits (hheight.1 hk)]
        exact ⟨iff_of_false (by simp) fun hfit => hfits hfit.1,
          fun hfit => absurd hfit.1 hfits, fun _ => ⟨_, rfl⟩⟩
    · have hnot : ¬ e.FitsAfter done := fun hfits => hself hfits.1
      rw [if_pos hself]
      exact ⟨iff_of_false (by simp) fun hfit => hnot hfit.1, fun hfit => absurd hfit.1 hnot,
        fun _ => ⟨_, rfl⟩⟩

/-- What a list of entries and a tip leave of a new assembler. -/
structure SeededWith (a : Assembler) (es : List Entry) (tip : Option Hash) : Prop where
  waiting : a.waiting = []
  /-- Each record is one of an entry, and stands at its height. -/
  held : ∀ n ∈ a.nodes, ∃ e ∈ es, n = e.node
  linked : ∀ e ∈ es, a.heightOf? e.hash = some e.height
  persisted : a.persistedLen = a.best.length
  quiet : a.reorgs = []
  /-- The best chain is the ancestry of the tip that was asked for, if an entry has its hash. -/
  asked : ∀ e ∈ es, tip = some e.hash →
    Rooted (es.map Entry.toRecord) e.hash a.best.hashes
  /-- If none has, it is the ancestry of the highest entry, the first among equals. -/
  highest : (∀ e ∈ es, tip ≠ some e.hash) → (es = [] ∧ a.best.hashes = []) ∨
    ∃ e, FirstOf (fun e => ∀ f ∈ es, f.height ≤ e.height) es e ∧
      Rooted (es.map Entry.toRecord) e.hash a.best.hashes

/-! ## The tip -/

theorem Replayed.rooted (h : a.Replayed kept) (hc : FirstCopies es kept) {x : Hash}
    {chain : List Hash} (hx : Rooted a.records x chain) : Rooted (es.map Entry.toRecord) x chain := by
  refine hx.mono ?_
  intro r hr
  rw [h.records] at hr
  obtain ⟨e, he, rfl⟩ := List.mem_map.1 hr
  exact List.mem_map_of_mem (hc.sub e he)

/-- A tip that an entry has brings its ancestry; any other changes nothing. -/
theorem Replayed.restored_cases (h : a.Replayed kept) (hl : a.Linking []) (hf : Forest kept)
    (tip : Option Hash) :
    (∃ e ∈ kept, tip = some e.hash ∧ Rooted a.records e.hash (a.restored tip).best.hashes) ∨
      ((∀ e ∈ kept, tip ≠ some e.hash) ∧ (a.restored tip).best = a.best) := by
  cases tip with
  | none => exact Or.inr ⟨fun _ _ h => by simp at h, rfl⟩
  | some x =>
    unfold restored
    dsimp only
    cases hid : a.idOf? x with
    | none =>
      refine Or.inr ⟨?_, rfl⟩
      rintro e he heq
      have hout := idOf?_eq_none hid
      rw [h.hashes] at hout
      exact hout (Option.some.inj heq ▸ List.mem_map_of_mem he)
    | some id =>
      left
      obtain ⟨r, hr, rfl⟩ := (idOf?_eq_some_iff hl.distinct).1 hid
      rw [h.records, List.getElem?_map, Option.map_eq_some_iff] at hr
      obtain ⟨e, he, rfl⟩ := hr
      have hmem := List.mem_of_getElem? he
      have hheight : a.heightOf? e.node.hash = some e.height :=
        ((h.listed hf).heightOf?_iff hl.distinct).2 ⟨e, hmem, rfl, rfl⟩
      obtain ⟨chain, heq, hchain, _⟩ := forceTip_eq hl id hheight
      refine ⟨e, hmem, rfl, ?_⟩
      dsimp only
      rw [show e.toRecord.hash = e.node.hash from rfl, heq]
      exact hchain

/-- Without a tip that was asked for, the first of the highest entries is the tip. -/
theorem Replayed.highest (h : a.Replayed kept) (hl : a.Linking []) (hf : Forest kept)
    (ht : Tipped none a) : (kept = [] ∧ a.best.hashes = []) ∨
      ∃ e, FirstOf (fun e => ∀ f ∈ kept, f.height ≤ e.height) kept e ∧
        Rooted a.records e.hash a.best.hashes := by
  have hheights : ∀ x k, a.heightOf? x = some k ↔ ∃ e ∈ kept, e.hash = x ∧ e.height = k :=
    fun x k => (h.listed hf).heightOf?_iff hl.distinct
  have hnodes : ∀ (id : NodeId) (f : Entry), kept[id]? = some f → a.nodes[id]? = some f.node := by
    intro id f hid
    rw [h.nodes, List.getElem?_map, hid]
    rfl
  rcases ht.spec hl.distinct with ⟨hbest, hnone⟩ | ⟨t, n, _, hn, ⟨k, hk, hmax⟩, hrooted, _, hfirst⟩
  · refine Or.inl ⟨?_, hbest⟩
    rw [List.eq_nil_iff_forall_not_mem]
    intro e he
    have := (hheights e.hash e.height).2 ⟨e, he, rfl, rfl⟩
    rw [hnone] at this
    simp at this
  · have hnt := hn
    rw [h.nodes, List.getElem?_map, Option.map_eq_some_iff] at hn
    obtain ⟨e, he, rfl⟩ := hn
    have hmem := List.mem_of_getElem? he
    have hhigh : ∀ f ∈ kept, f.height ≤ e.height := by
      intro f hf'
      obtain ⟨g, hg, hgh, rfl⟩ := (hheights _ _).1 hk
      rw [← hf.eq_of_hash hg hmem hgh]
      exact hmax f.hash f.height ((hheights _ _).2 ⟨f, hf', rfl, rfl⟩)
    refine Or.inr ⟨e, ⟨kept.take t, kept.drop (t + 1), ?_, hhigh, ?_⟩, hrooted⟩
    · rw [← (List.getElem?_eq_some_iff.1 he).2, List.getElem_cons_drop, List.take_append_drop]
    · -- an equal that stands before the tip would have been the tip
      intro f hf' hall
      obtain ⟨id, hid⟩ := List.getElem?_of_mem hf'
      have hlt := (List.getElem?_eq_some_iff.1 hid).1
      rw [List.length_take] at hlt
      rw [List.getElem?_take_of_lt (by omega)] at hid
      have hcontends : a.Contends f.node.hash := by
        refine ⟨f.height, (hheights _ _).2 ⟨f, List.mem_of_getElem? hid, rfl, rfl⟩, ?_⟩
        intro y j hy
        obtain ⟨g, hg, _, rfl⟩ := (hheights _ _).1 hy
        exact hall g hg
      rcases hfirst id f.node (hnodes id f hid) hcontends with hfront | ⟨_, hle⟩
      · simp at hfront
      · exact absurd hle (Nat.not_le_of_lt (Nat.lt_of_lt_of_le hlt (Nat.min_le_left _ _)))

theorem seed_fst (a : Assembler) (es : List Entry) (tip : Option Hash) :
    (a.seed es tip).1 = (a.replay es).1 := by
  unfold seed
  cases a.replay es with
  | mk what after => cases what <;> rfl

theorem seed_snd (h : (a.replay es).1 = .ok ()) (tip : Option Hash) :
    (a.seed es tip).2 = ((a.replay es).2.restored tip).drainReorgs.2.markPersisted := by
  rcases seed_eq a es tip with ⟨fault, heq⟩ | heq
  · rw [← seed_fst a es tip, heq] at h
    simp at h
  · rw [heq]
    rfl

/-- First copies that are held, with the tip that is asked for. -/
theorem Replayed.seededWith (h : a.Replayed kept) (hl : a.Linking []) (hf : Forest kept)
    (hc : FirstCopies es kept) (ht : Tipped none a) (tip : Option Hash) :
    (a.restored tip).drainReorgs.2.markPersisted.SeededWith es tip := by
  have hnodes : (a.restored tip).drainReorgs.2.markPersisted.nodes = a.nodes := nodes_restored a tip
  constructor
  case waiting => exact (waiting_restored a tip).trans h.waiting
  case held =>
    intro n hn
    rw [hnodes, h.nodes] at hn
    obtain ⟨e, he, rfl⟩ := List.mem_map.1 hn
    exact ⟨e, hc.sub e he, rfl⟩
  case linked =>
    intro e he
    rw [heightOf?_congr hnodes, (h.listed hf).heightOf?_iff hl.distinct]
    exact hc.covers e he
  case persisted => rfl
  case quiet => rfl
  case asked =>
    intro e he htip
    rcases h.restored_cases hl hf tip with ⟨f, _, heq, hrooted⟩ | ⟨hout, _⟩
    · rw [Option.some.inj (htip.symm.trans heq)]
      exact h.rooted hc hrooted
    · obtain ⟨f, hmem, hhash, _⟩ := hc.covers e he
      exact absurd (htip.trans (congrArg some hhash.symm)) (hout f hmem)
  case highest =>
    intro hout
    rcases h.restored_cases hl hf tip with ⟨f, hmem, heq, _⟩ | ⟨_, hbest⟩
    · exact absurd heq (hout f (hc.sub f hmem))
    have hchain : (a.restored tip).drainReorgs.2.markPersisted.best = a.best := hbest
    rw [hchain]
    rcases h.highest hl hf ht with ⟨rfl, hempty⟩ | ⟨e, hfirst, hrooted⟩
    · refine Or.inl ⟨?_, hempty⟩
      rw [List.eq_nil_iff_forall_not_mem]
      intro e he
      obtain ⟨f, hmem, _⟩ := hc.covers e he
      simp at hmem
    · have hsame : ∀ k, (∀ f ∈ kept, f.height ≤ k) ↔ ∀ f ∈ es, f.height ≤ k := by
        intro k
        refine ⟨fun hall f hmem => ?_, fun hall f hmem => hall f (hc.sub f hmem)⟩
        obtain ⟨g, hg, _, hheight⟩ := hc.covers f hmem
        exact hheight ▸ hall g hg
      have hall := hc.first (fun k => ∀ f ∈ kept, f.height ≤ k) e hfirst
      simp only [hsame] at hall
      exact Or.inr ⟨e, hall, h.rooted hc hrooted⟩

/-- **Seeding accepts just the consistent forests.**  A new assembler can be seeded just if each
entry may stand after those before it; what it then holds are the blocks of the entries at their
heights, with the best chain of the tip that was asked for or else of the first highest entry. -/
theorem seed_ok_iff {es : List Entry} (hone : OneHeader es) (tip : Option Hash) :
    ((Assembler.empty.seed es tip).1 = .ok () ↔ Replayable es) ∧
      (Replayable es → (Assembler.empty.seed es tip).2.SeededWith es tip) ∧
      (¬ Replayable es → ∃ fault, (Assembler.empty.seed es tip).1 = .error (.cacheCorrupt fault)) := by
  have hsame : FitOn [] es ↔ Replayable es := Iff.rfl
  have hall : OneHeader ([] ++ es) := hone
  obtain ⟨hok, hheld, hbad⟩ := replay_ok_iff (a := Assembler.empty) ⟨rfl, rfl⟩ Linking.empty
    Forest.nil FirstCopies.nil hall
  rw [hsame] at hok hheld hbad
  obtain ⟨hl, ht⟩ := replay_induction (P := fun a => a.Linking [] ∧ Tipped none a)
    (fun a r h => ⟨h.1.insert r, h.2.insert h.1 r⟩) ⟨Linking.empty, Tipped.empty⟩ es
  rw [seed_fst]
  refine ⟨hok, fun hfit => ?_, hbad⟩
  obtain ⟨kept, hreplayed, hforest, hcopies⟩ := hheld hfit
  rw [seed_snd (hok.2 hfit)]
  exact hreplayed.seededWith hl hforest hcopies ht tip

/-- The entries of a first block and of one on it, and a copy of the second at another place. -/
def copiedEntries : List Entry :=
  let first := Header.on Hash.zero 0
  let second := Header.on first.hash 1
  [Entry.ofRecord (Record.ofHeader first 80 0 0) 0,
    Entry.ofRecord (Record.ofHeader second 80 0 88) 1,
    Entry.ofRecord (Record.ofHeader second 80 1 0) 1]

/-- The tip that is asked for need not be the highest block. -/
theorem seed_ok_copied :
    OneHeader copiedEntries ∧ Replayable copiedEntries ∧
      (Assembler.empty.seed copiedEntries (some (Header.on Hash.zero 0).hash)).2.SeededWith
        copiedEntries (some (Header.on Hash.zero 0).hash) := by
  have hdiffer : (Header.on (Header.on Hash.zero 0).hash 1).hash ≠ (Header.on Hash.zero 0).hash := by
    decide +kernel
  have hchild : (Header.on (Header.on Hash.zero 0).hash 1).isGenesis = false := by decide +kernel
  have hone : OneHeader copiedEntries := by
    intro e he f hf hhash
    simp only [copiedEntries, List.mem_cons, List.not_mem_nil, or_false] at he hf
    rcases he with rfl | rfl | rfl <;> rcases hf with rfl | rfl | rfl
    case inl.inl => rfl
    case inl.inr.inl => exact absurd hhash.symm hdiffer
    case inl.inr.inr => exact absurd hhash.symm hdiffer
    case inr.inl.inl => exact absurd hhash hdiffer
    case inr.inr.inl => exact absurd hhash hdiffer
    all_goals rfl
  have hfit : FitOn [] copiedEntries := by
    refine fitOn_cons.2 ⟨⟨rfl, Or.inr (Or.inl ⟨by decide, rfl⟩)⟩, ?_⟩
    refine fitOn_cons.2 ⟨⟨rfl, Or.inr (Or.inr ⟨hchild, _, List.mem_cons_self, rfl, rfl⟩)⟩, ?_⟩
    exact fitOn_cons.2 ⟨⟨rfl, Or.inl ⟨_, List.mem_cons_of_mem _ List.mem_cons_self, rfl, rfl⟩⟩,
      fitOn_nil _⟩
  exact ⟨hone, hfit, (seed_ok_iff hone _).2.1 hfit⟩

end Assembler

end BlockIndex
