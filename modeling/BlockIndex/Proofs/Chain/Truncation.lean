import BlockIndex.Proofs.Chain.Seeding
import BlockIndex.Proofs.Cursor
import Mathlib.Data.List.Basic

/-!
# Cutting snapshots at a height

To cut a snapshot twice is to cut it at the lower height, and what is left can be replayed if the
whole could: a parent stands lower than its child.  This holds in whatever order the entries were
stored, and also of entries of which several have one hash.

* `Replays held es last`   entries replayed one after the other onto those that are held;
* `Replays.filter_lt`      the same below a height;
* `Replays.seeded`         what replaying leaves of a new assembler.

Main statement: `Snapshot.truncate_composes`.
-/

namespace BlockIndex

/-! ## Replaying onto entries -/

/-- Entries are replayed onto those that are held: another entry of a block that is held changes
nothing, an entry of a new block is held from then on. -/
inductive Replays : List Entry → List Entry → List Entry → Prop where
  | done {held : List Entry} : Replays held [] held
  | again {held rest last : List Entry} {e : Entry} (self : e.header.hash = e.hash)
      (there : ∃ f ∈ held, f.hash = e.hash ∧ f.height = e.height)
      (later : Replays held rest last) : Replays held (e :: rest) last
  | fresh {held rest last : List Entry} {e : Entry} (self : e.header.hash = e.hash)
      (new : e.hash ∉ held.map Entry.hash) (attached : e.AttachesTo held)
      (later : Replays (held ++ [e]) rest last) : Replays held (e :: rest) last

namespace Replays

variable {held es last : List Entry}

/-- Each block is held in the end, at its height. -/
theorem covers (h : Replays held es last) :
    ∀ e ∈ held ++ es, ∃ f ∈ last, f.hash = e.hash ∧ f.height = e.height := by
  induction h with
  | done =>
    intro e he
    rw [List.append_nil] at he
    exact ⟨e, he, rfl, rfl⟩
  | @again held rest last e self there _ ih =>
    intro g hg
    rcases List.mem_append.1 hg with hg | hg
    · exact ih g (List.mem_append_left _ hg)
    rcases List.mem_cons.1 hg with rfl | hg
    · obtain ⟨f, hf, hhash, hheight⟩ := there
      rw [← hhash, ← hheight]
      exact ih f (List.mem_append_left _ hf)
    · exact ih g (List.mem_append_right _ hg)
  | fresh self new attached _ ih =>
    intro g hg
    rw [List.append_cons] at hg
    exact ih g hg

/-- Below a height, the same is replayed onto the same. -/
theorem filter_lt (h : Replays held es last) (height : Nat) :
    Replays (held.filter fun e => e.height < height) (es.filter fun e => e.height < height)
      (last.filter fun e => e.height < height) := by
  induction h with
  | done => exact .done
  | @again held rest last e self there _ ih =>
    by_cases hlow : e.height < height
    · rw [List.filter_cons, if_pos (decide_eq_true hlow)]
      obtain ⟨f, hf, hhash, hheight⟩ := there
      have hbelow : f.height < height := by omega
      exact .again self ⟨f, List.mem_filter.2 ⟨hf, decide_eq_true hbelow⟩, hhash, hheight⟩ ih
    · rw [List.filter_cons, if_neg (by simpa using hlow)]
      exact ih
  | @fresh held rest last e self new attached _ ih =>
    rw [List.filter_append] at ih
    by_cases hlow : e.height < height
    · rw [List.filter_cons, if_pos (decide_eq_true hlow)] at ih ⊢
      rw [List.filter_nil] at ih
      refine .fresh self ?_ (attached.filter_lt hlow) ih
      intro hmem
      obtain ⟨f, hf, hhash⟩ := List.mem_map.1 hmem
      exact new (hhash ▸ List.mem_map_of_mem (List.mem_filter.1 hf).1)
    · rw [List.filter_cons, if_neg (by simpa using hlow)] at ih ⊢
      rw [List.filter_nil, List.append_nil] at ih
      exact ih

end Replays

namespace Assembler

variable {a : Assembler} {held es last : List Entry} {e : Entry}

/-- Another entry of a block that is held is replayed just if it says the same height. -/
theorem Replayed.insert_held (h : a.Replayed held) (hl : a.Linking []) (hf : Forest held)
    {f : Entry} (hmem : f ∈ held) (hhash : f.hash = e.hash) :
    (a.insert e.toRecord).2 = a ∧ a.heightOf? e.hash = some f.height := by
  constructor
  · refine insert_known ?_
    rw [h.hashes]
    exact List.mem_map.2 ⟨f, hmem, hhash⟩
  · exact ((h.listed hf).heightOf?_iff hl.distinct).2 ⟨f, hmem, hhash, rfl⟩

/-- What is replayed without a complaint is replayed onto what is held. -/
theorem Replayed.replays (h : a.Replayed held) (hl : a.Linking []) (hf : Forest held)
    (hok : (a.replay es).1 = .ok ()) : ∃ last, Replays held es last := by
  induction es generalizing a held with
  | nil => exact ⟨held, .done⟩
  | cons e rest ih =>
    rw [replay] at hok
    split at hok
    · cases hok
    next hself =>
    have hself : e.header.hash = e.hash := Decidable.not_not.1 hself
    dsimp only at hok
    split at hok
    · next hheight =>
      by_cases hknown : e.hash ∈ held.map Entry.hash
      · obtain ⟨f, hmem, hhash⟩ := List.mem_map.1 hknown
        obtain ⟨hsame, hfound⟩ := h.insert_held hl hf hmem hhash
        rw [hsame] at hok hheight
        rw [hfound] at hheight
        obtain ⟨last, hlast⟩ := ih h hl hf hok
        exact ⟨last, .again hself ⟨f, hmem, hhash, Option.some.inj hheight⟩ hlast⟩
      · have hatt := (h.heightOf?_insert_iff hl hf hknown).1 hheight
        obtain ⟨last, hlast⟩ := ih (h.insert hl hf hknown hatt) (hl.insert e.toRecord)
          (hf.snoc hknown hatt) hok
        exact ⟨last, .fresh hself hknown hatt hlast⟩
    · cases hok

/-- Entries that are replayed onto what is held leave just what is held then. -/
theorem Replayed.after (h : a.Replayed held) (hl : a.Linking []) (hf : Forest held)
    (hr : Replays held es last) : (a.replay es).1 = .ok () ∧ (a.replay es).2.Replayed last ∧
      (a.replay es).2.Linking [] ∧ Forest last := by
  induction hr generalizing a with
  | done => exact ⟨rfl, h, hl, hf⟩
  | @again held rest last e self there _ ih =>
    obtain ⟨f, hmem, hhash, hheight⟩ := there
    obtain ⟨hsame, hfound⟩ := h.insert_held hl hf hmem hhash
    rw [replay, if_neg (not_not_intro self)]
    dsimp only
    rw [hsame, if_pos (hheight ▸ hfound)]
    exact ih h hl hf
  | @fresh held rest last e self new attached _ ih =>
    rw [replay, if_neg (not_not_intro self)]
    dsimp only
    rw [if_pos ((h.heightOf?_insert_iff hl hf new).2 attached)]
    exact ih (h.insert hl hf new attached) (hl.insert e.toRecord) (hf.snoc new attached)

end Assembler

theorem exists_replays {es : List Entry} {tip : Option Hash}
    (h : (Assembler.empty.seed es tip).1 = .ok ()) : ∃ last, Replays [] es last := by
  rw [Assembler.seed_fst] at h
  exact Assembler.Replayed.replays ⟨rfl, rfl⟩ Assembler.Linking.empty Forest.nil h

/-- What replaying leaves of a new assembler: the blocks that are held, at their heights, and the tip
that is asked for if it is one of them. -/
theorem Replays.seeded {es last : List Entry} (h : Replays [] es last) (tip : Option Hash) :
    (Assembler.empty.seed es tip).1 = .ok () ∧
      (∀ x k, (Assembler.empty.seed es tip).2.heightOf? x = some k ↔
        ∃ e ∈ last, e.hash = x ∧ e.height = k) ∧
      ∀ e ∈ es, tip = some e.hash → (Assembler.empty.seed es tip).2.best.tip? = tip := by
  obtain ⟨hok, hheld, hl, hf⟩ := Assembler.Replayed.after (a := Assembler.empty) ⟨rfl, rfl⟩
    Assembler.Linking.empty Forest.nil h
  refine ⟨by rw [Assembler.seed_fst, hok], ?_, ?_⟩
  · intro x k
    have hnodes : ((Assembler.empty.replay es).2.restored tip).drainReorgs.2.markPersisted.nodes
        = (Assembler.empty.replay es).2.nodes := Assembler.nodes_restored _ tip
    rw [Assembler.seed_snd hok, Assembler.heightOf?_congr hnodes]
    exact (hheld.listed hf).heightOf?_iff hl.distinct
  · intro e he htip
    rw [Assembler.seed_snd hok]
    rcases hheld.restored_cases hl hf tip with ⟨f, _, heq, hrooted⟩ | ⟨hout, _⟩
    · exact hrooted.getLast?.trans heq.symm
    · obtain ⟨f, hmem, hhash, _⟩ := h.covers e he
      exact absurd (htip.trans (congrArg some hhash.symm)) (hout f hmem)

/-! ## Cutting twice -/

namespace Snapshot

variable {s : Snapshot} {a b : Nat}

theorem mem_truncate {height : Nat} {e : Entry} :
    e ∈ (s.truncate height).entries ↔ e ∈ s.entries ∧ e.height < height := by
  show e ∈ s.entries.filter _ ↔ _
  rw [List.mem_filter, decide_eq_true_iff]

theorem truncate_tip_eq_some_iff {height : Nat} {x : Hash} :
    (s.truncate height).tip = some x ↔
      s.tip = some x ∧ ∃ e ∈ (s.truncate height).entries, e.hash = x := by
  show s.tip.filter _ = some x ↔ _
  rw [Option.filter_eq_some_iff, List.any_eq_true]
  simp only [decide_eq_true_eq]
  exact Iff.rfl

/-- What is cut off and what is left is all that there was. -/
theorem countFrom_add_length (s : Snapshot) (height : Nat) :
    s.countFrom height + (s.truncate height).entries.length = s.entries.length := by
  have hkept : (s.truncate height).entries
      = s.entries.filter fun e => !decide (height ≤ e.height) := by
    show s.entries.filter _ = s.entries.filter _
    refine List.filter_congr fun e _ => ?_
    rw [← decide_not, decide_eq_decide]
    omega
  rw [hkept]
  exact (List.length_eq_length_filter_add fun e : Entry => decide (height ≤ e.height)).symm

/-- **Cutting twice** is cutting at the lower height. -/
theorem truncate_truncate (s : Snapshot) (a b : Nat) :
    (s.truncate a).truncate b = s.truncate (min a b) := by
  have hentries : ((s.truncate a).truncate b).entries = (s.truncate (min a b)).entries := by
    show (s.entries.filter _).filter _ = s.entries.filter _
    rw [List.filter_filter]
    refine List.filter_congr fun e _ => ?_
    rw [← Bool.decide_and, decide_eq_decide]
    omega
  have hcursor : ((s.truncate a).truncate b).cursor = (s.truncate (min a b)).cursor := by
    show (s.cursor.rewindToAll _).rewindToAll _ = s.cursor.rewindToAll _
    rw [Cursor.rewindToAll_append]
    refine Cursor.rewindToAll_congr _ fun p => ?_
    rw [← List.map_append, List.mem_map, List.mem_map]
    refine exists_congr fun e => and_congr_left fun _ => ?_
    simp only [List.mem_append, List.mem_filter, mem_truncate, decide_eq_true_eq]
    by_cases he : e ∈ s.entries
    · simp only [he, true_and]
      omega
    · simp [he]
  have htip : ((s.truncate a).truncate b).tip = (s.truncate (min a b)).tip := by
    refine Option.ext fun x => ?_
    rw [truncate_tip_eq_some_iff, truncate_tip_eq_some_iff, truncate_tip_eq_some_iff, hentries]
    refine ⟨fun h => ⟨h.1.1, h.2⟩, ?_⟩
    -- an entry that is left in the end is left on the way
    rintro ⟨htip, e, he, hhash⟩
    exact ⟨⟨htip, e, (mem_truncate.1 (hentries ▸ he)).1, hhash⟩, e, he, hhash⟩
  show Snapshot.mk _ _ _ _ _ = Snapshot.mk _ _ _ _ _
  rw [mk.injEq]
  exact ⟨hentries, hcursor, htip, rfl, rfl⟩

/-- **What is left can be seeded** if the whole could, at the same heights. -/
theorem seed_truncate {tip : Option Hash} (h : (Assembler.empty.seed s.entries tip).1 = .ok ())
    (height : Nat) (asked : Option Hash) :
    (Assembler.empty.seed (s.truncate height).entries asked).1 = .ok () ∧
      (∀ x k, (Assembler.empty.seed (s.truncate height).entries asked).2.heightOf? x = some k ↔
        (Assembler.empty.seed s.entries tip).2.heightOf? x = some k ∧ k < height) ∧
      (asked = (s.truncate height).tip → asked ≠ none →
        (Assembler.empty.seed (s.truncate height).entries asked).2.best.tip? = asked) := by
  obtain ⟨last, hall⟩ := exists_replays h
  have hleft : Replays [] (s.truncate height).entries (last.filter fun e => e.height < height) :=
    hall.filter_lt height
  obtain ⟨_, hheights, _⟩ := hall.seeded tip
  obtain ⟨hok, hbelow, htip⟩ := hleft.seeded asked
  refine ⟨hok, ?_, ?_⟩
  · intro x k
    rw [hbelow, hheights]
    constructor
    · rintro ⟨e, he, rfl, rfl⟩
      obtain ⟨hmem, hlow⟩ := List.mem_filter.1 he
      exact ⟨⟨e, hmem, rfl, rfl⟩, of_decide_eq_true hlow⟩
    · rintro ⟨⟨e, he, rfl, rfl⟩, hlow⟩
      exact ⟨e, List.mem_filter.2 ⟨he, decide_eq_true hlow⟩, rfl, rfl⟩
  · intro hasked hsome
    obtain ⟨x, rfl⟩ := Option.ne_none_iff_exists'.1 hsome
    obtain ⟨_, e, he, rfl⟩ := truncate_tip_eq_some_iff.1 hasked.symm
    exact htip e he rfl

/-- **Cuts compose, and what they leave can be seeded.**  To cut at one height and then at another is
to cut at the lower one, and as many entries go.  The cursor does not move forward and stands at or
before every entry that goes.  If the entries can be seeded, then so can those that are left, with
their tip or without one: what is known are the blocks below the height, at their heights. -/
theorem truncate_composes (s : Snapshot) (a b : Nat) :
    (s.truncate a).truncate b = s.truncate (min a b) ∧
      s.countFrom a + (s.truncate a).countFrom b = s.countFrom (min a b) ∧
      s.countFrom a + (s.truncate a).entries.length = s.entries.length ∧
      (s.truncate a).cursor ≤ s.cursor ∧
      (∀ e ∈ s.entries, e ∉ (s.truncate a).entries → (s.truncate a).cursor ≤ e.position) ∧
      ∀ tip, (Assembler.empty.seed s.entries tip).1 = .ok () →
        ∀ kept, kept = (s.truncate a).tip ∨ kept = none →
          let seeded := Assembler.empty.seed (s.truncate a).entries kept
          seeded.1 = .ok () ∧
            (∀ x k, seeded.2.heightOf? x = some k ↔
              (Assembler.empty.seed s.entries tip).2.heightOf? x = some k ∧ k < a) ∧
            (kept ≠ none → seeded.2.best.tip? = kept) := by
  refine ⟨truncate_truncate s a b, ?_, countFrom_add_length s a, Cursor.rewindToAll_le _ _, ?_, ?_⟩
  · have hfirst := countFrom_add_length s a
    have hsecond := countFrom_add_length (s.truncate a) b
    have hboth := countFrom_add_length s (min a b)
    rw [truncate_truncate] at hsecond
    omega
  · intro e he hout
    refine Cursor.rewindToAll_le_mem _ (List.mem_map.2 ⟨e, List.mem_filter.2 ⟨he, ?_⟩, rfl⟩)
    rw [decide_eq_true_iff]
    exact Nat.le_of_not_lt fun hlow => hout (mem_truncate.2 ⟨he, hlow⟩)
  · intro tip hok kept hkept
    obtain ⟨hleft, hheights, htip⟩ := seed_truncate hok a kept
    exact ⟨hleft, hheights, fun hsome => htip (hkept.resolve_right hsome) hsome⟩

/-- A snapshot of two blocks, of which the second has two entries and the first is the tip. -/
def copiedSnapshot : Snapshot :=
  { Snapshot.empty with
    entries := Assembler.copiedEntries
    cursor := ⟨1, 88⟩
    tip := some (Header.on Hash.zero 0).hash }

/-- Without the second block, whose entries both go, the first is seeded with the tip that is
left. -/
theorem truncate_copied :
    (Assembler.empty.seed copiedSnapshot.entries none).1 = .ok () ∧
      (copiedSnapshot.truncate 1).cursor = ⟨0, 88⟩ ∧
      (copiedSnapshot.truncate 1).tip = copiedSnapshot.tip ∧
      (copiedSnapshot.truncate 1).entries.length = 1 ∧
      (Assembler.empty.seed (copiedSnapshot.truncate 1).entries copiedSnapshot.tip).1 = .ok () ∧
      (Assembler.empty.seed (copiedSnapshot.truncate 1).entries
        copiedSnapshot.tip).2.best.tip? = copiedSnapshot.tip := by
  have hdiffer :
      (Header.on (Header.on Hash.zero 0).hash 1).hash ≠ (Header.on Hash.zero 0).hash := by
    decide +kernel
  have hchild : (Header.on (Header.on Hash.zero 0).hash 1).isGenesis = false := by decide +kernel
  have hreplays : Replays [] copiedSnapshot.entries (Assembler.copiedEntries.take 2) := by
    refine .fresh rfl List.not_mem_nil (Or.inl ⟨by decide, rfl⟩) ?_
    refine .fresh rfl ?_ (Or.inr ⟨hchild, _, List.mem_cons_self, rfl, rfl⟩) ?_
    · exact fun hmem => hdiffer (List.mem_singleton.1 hmem)
    · exact .again rfl ⟨_, List.mem_cons_of_mem _ List.mem_cons_self, rfl, rfl⟩ .done
  have hok := (hreplays.seeded none).1
  have htip : (copiedSnapshot.truncate 1).tip = copiedSnapshot.tip := by decide +kernel
  obtain ⟨_, _, hcount, _, _, hseeds⟩ := truncate_composes copiedSnapshot 1 2
  obtain ⟨hleft, _, hbest⟩ := hseeds none hok copiedSnapshot.tip (Or.inl htip.symm)
  refine ⟨hok, by decide +kernel, htip, ?_, hleft, hbest (by decide +kernel)⟩
  have hgone : copiedSnapshot.countFrom 1 = 2 := by decide +kernel
  rw [hgone] at hcount
  exact Nat.add_left_cancel hcount

end Snapshot

end BlockIndex
