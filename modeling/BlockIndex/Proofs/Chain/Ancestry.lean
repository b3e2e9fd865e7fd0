import BlockIndex.Chain.Assembler

/-!
# Ancestry among records

What it means that a block is connected to a first block, said of a list of records and of nothing
else.  Assemblers, stores and runs are measured against it.

* `Rooted records hash chain`  among `records`, `chain` leads from a first block to `hash`;
* `Consistent records`         records of one hash have one header.

Main statements: `Rooted.unique` (a block has one ancestry), `Rooted.take` (and so has every block
on it), `Rooted.transfer` (it depends on the hashes and headers only).
-/

namespace BlockIndex

/-- A header on a parent; its nonce tells it from others on the same one. -/
def Header.on (parent : Hash) (nonce : UInt32) : Header := ⟨1, parent, Hash.zero, 0, 0, nonce⟩

/-- A first block, and two more, each on the one before. -/
def chainHeaders : List Header :=
  let first := Header.on Hash.zero 0
  let second := Header.on first.hash 1
  [first, second, Header.on second.hash 2]

/-- Among `records`, `chain` leads from a first block to the block of the hash, each block the
parent of the next. -/
inductive Rooted (records : List Record) : Hash → List Hash → Prop where
  | first {r : Record} (mem : r ∈ records) (genesis : r.isGenesis = true) :
      Rooted records r.hash [r.hash]
  | next {r : Record} {chain : List Hash} (mem : r ∈ records) (child : r.isGenesis = false)
      (parent : Rooted records r.parentHash chain) : Rooted records r.hash (chain ++ [r.hash])

/-- Records of one hash have one header: no two different headers share a hash. -/
def Consistent (records : List Record) : Prop :=
  ∀ r ∈ records, ∀ s ∈ records, r.hash = s.hash → r.header = s.header

instance (records : List Record) : Decidable (Consistent records) :=
  inferInstanceAs (Decidable (∀ r ∈ records, ∀ s ∈ records, r.hash = s.hash → r.header = s.header))

theorem eq_of_nodup_map {α β : Type} {f : α → β} {l : List α} (h : (l.map f).Nodup) {x y : α}
    (hx : x ∈ l) (hy : y ∈ l) (heq : f x = f y) : x = y := by
  induction l with
  | nil => simp at hx
  | cons a rest ih =>
    rw [List.map_cons, List.nodup_cons] at h
    have hout : ∀ z ∈ rest, f z ≠ f a := fun z hz hza => h.1 (hza ▸ List.mem_map_of_mem hz)
    rcases List.mem_cons.1 hx with hxa | hx
    · rcases List.mem_cons.1 hy with hya | hy
      · rw [hxa, hya]
      · exact absurd (hxa ▸ heq.symm) (hout y hy)
    · rcases List.mem_cons.1 hy with hya | hy
      · exact absurd (hya ▸ heq) (hout x hx)
      · exact ih h.2 hx hy

theorem Consistent.of_nodup {records : List Record} (h : (records.map Record.hash).Nodup) :
    Consistent records := by
  intro r hr s hs heq
  rw [eq_of_nodup_map h hr hs heq]

namespace Rooted

variable {records others : List Record} {x : Hash} {chain : List Hash}

theorem mem (h : Rooted records x chain) : ∃ r ∈ records, r.hash = x := by
  cases h with
  | first hr _ => exact ⟨_, hr, rfl⟩
  | next hr _ _ => exact ⟨_, hr, rfl⟩

theorem getLast? (h : Rooted records x chain) : chain.getLast? = some x := by
  cases h with
  | first _ _ => rfl
  | next _ _ _ => simp

theorem length_pos (h : Rooted records x chain) : 0 < chain.length := by
  cases h with
  | first _ _ => simp
  | next _ _ _ => simp

theorem eq_singleton (h : Rooted records x chain) (hlen : chain.length = 1) : chain = [x] := by
  cases h with
  | first _ _ => rfl
  | next _ _ hparent =>
    have := hparent.length_pos
    simp only [List.length_append, List.length_singleton] at hlen
    omega

/-- Ancestry is a matter of hashes and headers. -/
theorem transfer (h : Rooted records x chain)
    (hsub : ∀ r ∈ records, ∃ s ∈ others, s.hash = r.hash ∧ s.header = r.header) :
    Rooted others x chain := by
  induction h with
  | first hr hg =>
    obtain ⟨s, hs, hhash, hheader⟩ := hsub _ hr
    rw [← hhash]
    refine first hs ?_
    rwa [Record.isGenesis, hheader]
  | next hr hg _ ih =>
    obtain ⟨s, hs, hhash, hheader⟩ := hsub _ hr
    rw [← hhash]
    refine next hs ?_ ?_
    · rwa [Record.isGenesis, hheader]
    · rwa [Record.parentHash, hheader]

theorem mono (h : Rooted records x chain) (hsub : ∀ r ∈ records, r ∈ others) :
    Rooted others x chain :=
  h.transfer fun r hr => ⟨r, hsub r hr, rfl, rfl⟩

theorem unique (hc : Consistent records) (h : Rooted records x chain) :
    ∀ {other : List Hash}, Rooted records x other → other = chain := by
  induction h with
  | @first r hr hg =>
    intro other ho
    generalize hx : r.hash = y at ho
    cases ho with
    | first _ _ => rfl
    | @next s _ hs hchild _ =>
      have := hc r hr s hs hx
      rw [Record.isGenesis, this] at hg
      rw [Record.isGenesis, hg] at hchild
      exact absurd hchild (by decide)
  | @next r chain hr hchild _ ih =>
    intro other ho
    generalize hx : r.hash = y at ho
    cases ho with
    | @first s hs hg =>
      have := hc r hr s hs hx
      rw [Record.isGenesis, this] at hchild
      rw [Record.isGenesis, hchild] at hg
      exact absurd hg (by decide)
    | @next s tail hs _ hparent =>
      have hheader := hc r hr s hs hx
      have hsame : s.parentHash = r.parentHash := by rw [Record.parentHash, ← hheader]; rfl
      rw [hsame] at hparent
      rw [ih hparent]

/-- Every block on a chain has the chain up to it as its ancestry. -/
theorem take (h : Rooted records x chain) :
    ∀ {i : Nat} {y : Hash}, chain[i]? = some y → Rooted records y (chain.take (i + 1)) := by
  induction h with
  | @first r hr hg =>
    intro i y hi
    cases i with
    | zero =>
      simp only [List.getElem?_cons_zero, Option.some.injEq] at hi
      subst hi
      exact first hr hg
    | succ i => simp at hi
  | @next r chain hr hchild hparent ih =>
    intro i y hi
    rcases Nat.lt_or_ge i chain.length with hlt | hge
    · rw [List.getElem?_append_left hlt] at hi
      rw [List.take_append_of_le_length (by omega)]
      exact ih hi
    · rw [List.getElem?_append_right hge] at hi
      have hzero : i - chain.length = 0 := by
        cases hd : i - chain.length with
        | zero => rfl
        | succ d => simp [hd] at hi
      rw [hzero] at hi
      simp only [List.getElem?_cons_zero, Option.some.injEq] at hi
      subst hi
      rw [List.take_of_length_le (by simp; omega)]
      exact next hr hchild hparent

end Rooted

end BlockIndex
