import BlockIndex.Proofs.Chain.Order

/-!
# Operations on an assembler

What holds of an assembler whatever is done to it: records inserted, snapshots seeded, whether they
are consistent or not, events taken, chains noted as persisted, in any order and number.

* `Operation`, `performAll`  what may be done, and an assembler after it;
* `Descends`                 the way from a record over its parents down to height zero;
* `OnTip`                    the best chain is the branch of the tip, and every branch is such a way;
* `FirstHighest`             the tip is the first seen of the highest.

Main statements: `Rests.perform` (one operation leaves the best chain resting on its tip) and
`performAll_onTip` (so it is `OnTip` after any operations, and `FirstHighest` unless something was
seeded).
-/

namespace BlockIndex

theorem Rooted.head {records : List Record} {x y : Hash} {chain : List Hash}
    (h : Rooted records x chain) (hy : chain[0]? = some y) :
    ∃ r ∈ records, r.hash = y ∧ r.isGenesis = true := by
  induction h with
  | @first r hr hg => exact ⟨r, hr, Option.some.inj hy, hg⟩
  | next _ _ hparent ih =>
    rw [List.getElem?_append_left hparent.length_pos] at hy
    exact ih hy

theorem Rooted.succ {records : List Record} {x y z : Hash} {chain : List Hash} {i : Nat}
    (h : Rooted records x chain) (hy : chain[i]? = some y) (hz : chain[i + 1]? = some z) :
    ∃ r ∈ records, r.hash = z ∧ r.isGenesis = false ∧ r.parentHash = y := by
  induction h with
  | first _ _ => simp at hz
  | @next r before hr hchild hparent ih =>
    rcases Nat.lt_or_ge (i + 1) before.length with hlt | hge
    · rw [List.getElem?_append_left hlt] at hz
      rw [List.getElem?_append_left (Nat.lt_of_succ_lt hlt)] at hy
      exact ih hy hz
    · rw [List.getElem?_append_right hge, List.getElem?_singleton] at hz
      split at hz
      · next hzero =>
        have hlast := hparent.getLast?
        have hlen : before.length = i + 1 := by omega
        rw [List.getLast?_eq_getElem?, hlen, Nat.add_sub_cancel] at hlast
        rw [List.getElem?_append_left (by omega), hlast] at hy
        exact ⟨r, hr, Option.some.inj hz, hchild, Option.some.inj hy⟩
      · simp at hz

/-- What may be done to an assembler. -/
inductive Operation where
  | insert (record : Record)
  | seed (entries : List Entry) (tip : Option Hash)
  | drainReorgs
  | markPersisted
  deriving DecidableEq, Repr

/-- Whether a snapshot is replayed. -/
def Operation.isSeed : Operation → Bool
  | .seed _ _ => true
  | _ => false

namespace Assembler

/-- The assembler after an operation, whether it succeeded or not. -/
def perform (a : Assembler) : Operation → Assembler
  | .insert record => (a.insert record).2
  | .seed entries tip => (a.seed entries tip).2
  | .drainReorgs => a.drainReorgs.2
  | .markPersisted => a.markPersisted

/-- The assembler after operations in order. -/
def performAll (a : Assembler) (ops : List Operation) : Assembler := ops.foldl perform a

/-- The hashes met on the way from a record to the records of its parents, up to the first that
stands at height zero; the lowest one first. -/
inductive Descends (a : Assembler) : Node → List Hash → Prop where
  | ground {n : Node} (height : n.height = some 0) : Descends a n [n.hash]
  | down {n p : Node} {chain : List Hash} (height : n.height ≠ some 0)
      (parent : a.node? n.parentHash = some p) (rest : Descends a p chain) :
      Descends a n (chain ++ [n.hash])

/-- The best chain is the branch of the tip. -/
structure OnTip (a : Assembler) : Prop where
  /-- Nothing is best just if nothing is linked. -/
  bare_iff : a.best.isEmpty = true ↔ ∀ x, a.heightOf? x = none
  /-- Otherwise there is a tip, and the best chain is the branch that ends there. -/
  branch : a.best.isEmpty = false →
    ∃ t n, a.tip = some t ∧ a.nodes[t]? = some n ∧ a.branchTo n.hash = .ok a.best
  first : ∀ x, a.best.hashAt? 0 = some x → ∃ r ∈ a.records, r.hash = x ∧ r.isGenesis = true
  next : ∀ i x y, a.best.hashAt? i = some x → a.best.hashAt? (i + 1) = some y →
    ∃ r ∈ a.records, r.hash = y ∧ r.isGenesis = false ∧ r.parentHash = x
  heights : ∀ i x, a.best.hashAt? i = some x → a.heightOf? x = some i
  /-- A linked block has a branch, one longer than its height, found by descending from it. -/
  linked : ∀ x k, a.heightOf? x = some k → ∃ n chain, a.node? x = some n ∧
    a.branchTo x = .ok ⟨chain⟩ ∧ a.Descends n chain ∧ chain.length = k + 1
  unlinked : ∀ x, a.heightOf? x = none → a.branchTo x = .error (.unknownBlock x)

/-- The tip is the first seen of the highest linked records. -/
def FirstHighest (a : Assembler) : Prop :=
  ∀ t, a.tip = some t → ∃ (n : Node) (k : Nat), a.nodes[t]? = some n ∧ n.height = some k ∧
    ∀ (id : NodeId) (m : Node) (j : Nat), a.nodes[id]? = some m → m.height = some j →
      j < k ∨ (j = k ∧ t ≤ id)

variable {a : Assembler} {n : Node} {id : NodeId} {x : Hash} {height : Nat}

/-! ## Every operation -/

/-- What every insertion keeps is kept by a replay, also by one that fails. -/
theorem replay_induction {P : Assembler → Prop} (hinsert : ∀ a r, P a → P (a.insert r).2)
    (h : P a) (es : List Entry) : P (a.replay es).2 := by
  induction es generalizing a with
  | nil => exact h
  | cons e rest ih =>
    rw [replay]
    split
    · exact h
    · dsimp only
      split
      · exact ih (hinsert a e.toRecord h)
      · exact hinsert a e.toRecord h

theorem seed_eq (a : Assembler) (es : List Entry) (tip : Option Hash) :
    (∃ e, a.seed es tip = (.error e, (a.replay es).2)) ∨
      a.seed es tip = (.ok (), { (a.replay es).2.restored tip with
        reorgs := [], persistedLen := ((a.replay es).2.restored tip).best.length }) := by
  unfold seed
  split
  · next e after heq => exact Or.inl ⟨e, by rw [heq]⟩
  · next after heq =>
    right
    rw [heq]
    rfl

theorem Linking.perform (h : a.Linking []) (op : Operation) : (a.perform op).Linking [] := by
  cases op with
  | insert r => exact h.insert r
  | seed es tip =>
    have hreplayed := replay_induction (P := fun a => a.Linking []) (fun a r h => h.insert r) h es
    show (a.seed es tip).2.Linking []
    rcases seed_eq a es tip with ⟨e, heq⟩ | heq
    · rw [heq]
      exact hreplayed
    · rw [heq]
      exact hreplayed.congr (nodes_restored _ tip) (waiting_restored _ tip)
  | drainReorgs => exact h.congr rfl rfl
  | markPersisted => exact h.congr rfl rfl

theorem Rests.perform (h : Rests a) (hl : a.Linking []) (op : Operation) :
    Rests (a.perform op) := by
  cases op with
  | insert r => exact h.insert hl r
  | seed es tip =>
    obtain ⟨hlinking, hreplayed⟩ := replay_induction (P := fun a => a.Linking [] ∧ Rests a)
      (fun a r h => ⟨h.1.insert r, h.2.insert h.1 r⟩) ⟨hl, h⟩ es
    show Rests (a.seed es tip).2
    rcases seed_eq a es tip with ⟨e, heq⟩ | heq
    · rw [heq]
      exact hreplayed
    · rw [heq]
      exact (hreplayed.restored hlinking tip).congr rfl rfl rfl
  | drainReorgs => exact h.congr rfl rfl rfl
  | markPersisted => exact h.congr rfl rfl rfl

/-- Without a replay the tip leads. -/
theorem Tipped.perform {first : Option NodeId} (h : Tipped first a) (hl : a.Linking [])
    {op : Operation} (hop : op.isSeed = false) : Tipped first (a.perform op) := by
  cases op with
  | insert r => exact h.insert hl r
  | seed es tip => simp [Operation.isSeed] at hop
  | drainReorgs => exact h.congr rfl rfl rfl
  | markPersisted => exact h.congr rfl rfl rfl

/-! ## Any operations -/

theorem Linking.performAll (h : a.Linking []) (ops : List Operation) :
    (a.performAll ops).Linking [] := by
  induction ops generalizing a with
  | nil => exact h
  | cons op rest ih => exact ih (h.perform op)

theorem Rests.performAll (h : Rests a) (hl : a.Linking []) (ops : List Operation) :
    Rests (a.performAll ops) := by
  induction ops generalizing a with
  | nil => exact h
  | cons op rest ih => exact ih (h.perform hl op) (hl.perform op)

theorem Tipped.performAll {first : Option NodeId} (h : Tipped first a) (hl : a.Linking [])
    {ops : List Operation} (hops : ∀ op ∈ ops, op.isSeed = false) :
    Tipped first (a.performAll ops) := by
  induction ops generalizing a with
  | nil => exact h
  | cons op rest ih =>
    exact ih (h.perform hl (hops op List.mem_cons_self)) (hl.perform op)
      fun op hop => hops op (List.mem_cons_of_mem _ hop)

/-! ## Branches -/

/-- Descending from a linked record ends at height zero, and answers what `branchTo` does. -/
theorem Linking.descends (hl : a.Linking []) (hid : a.nodes[id]? = some n)
    (hk : n.height = some height) : ∃ chain, a.Descends n chain ∧
      ∀ path, a.ancestry height n path = .ok (chain ++ path) := by
  induction height generalizing id n with
  | zero => exact ⟨_, Descends.ground hk, fun path => rfl⟩
  | succ k ih =>
    -- the record linked on top of its parent
    have hlink := hl.linked id n (k + 1) hid hk
    unfold linkHeight? at hlink
    split at hlink
    · simp at hlink
    obtain ⟨j, hparent, hj⟩ := Option.map_eq_some_iff.1 hlink
    obtain rfl : j = k := Nat.succ.inj hj
    obtain ⟨i, p, hi, hp, hpk⟩ := (heightOf?_eq_some_iff hl.distinct).1 hparent
    have hfound : a.node? n.parentHash = some p := (node?_eq_some_iff hl.distinct).2 ⟨i, hi, hp⟩
    obtain ⟨chain, hdown, hanc⟩ := ih hi hpk
    refine ⟨chain ++ [n.hash], Descends.down (by rw [hk]; simp) hfound hdown, ?_⟩
    intro path
    rw [ancestry, hfound, List.append_assoc]
    exact hanc (n.hash :: path)

theorem Rests.bare_iff (h : Rests a) (hl : a.Linking []) :
    a.best.isEmpty = true ↔ ∀ x, a.heightOf? x = none := by
  rw [BestChain.isEmpty, List.isEmpty_iff]
  cases htip : a.tip with
  | none =>
    obtain ⟨hbest, hnone⟩ := h.bare htip
    refine iff_of_true hbest ?_
    intro x
    cases hx : a.heightOf? x with
    | none => rfl
    | some k =>
      obtain ⟨id, n, hid, _, hk⟩ := (heightOf?_eq_some_iff hl.distinct).1 hx
      rw [hnone id n hid] at hk
      simp at hk
  | some t =>
    obtain ⟨n, k, hn, hk, _, hlen⟩ := h.held t htip
    refine iff_of_false (fun hbest => by simp [hbest] at hlen) fun hnone => ?_
    have := (heightOf?_eq_some_iff hl.distinct).2 ⟨t, n, hn, rfl, hk⟩
    rw [hnone] at this
    simp at this

/-- The best chain that rests on a tip is the branch of the tip. -/
theorem Rests.branch (h : Rests a) (hl : a.Linking []) (hbest : a.best.isEmpty = false) :
    ∃ t n, a.tip = some t ∧ a.nodes[t]? = some n ∧ a.branchTo n.hash = .ok a.best := by
  cases htip : a.tip with
  | none =>
    rw [BestChain.isEmpty, (h.bare htip).1] at hbest
    simp at hbest
  | some t =>
    obtain ⟨n, k, hn, hk, hrooted, _⟩ := h.held t htip
    have hheight := (heightOf?_eq_some_iff hl.distinct).2 ⟨t, n, hn, rfl, hk⟩
    obtain ⟨chain, hbranch, hchain, _⟩ := branchTo_eq hl hheight
    refine ⟨t, n, rfl, hn, ?_⟩
    rw [hbranch, hrooted.unique hl.distinct.consistent hchain]

theorem Rests.onTip (h : Rests a) (hl : a.Linking []) : OnTip a := by
  constructor
  case bare_iff => exact h.bare_iff hl
  case branch => exact h.branch hl
  case first =>
    intro x hx
    exact (h.grounded 0 x hx).head (by rw [List.getElem?_take_of_lt (by omega)]; exact hx)
  case next =>
    intro i x y hx hy
    refine (h.grounded (i + 1) y hy).succ (i := i) ?_ ?_
    · rw [List.getElem?_take_of_lt (by omega)]
      exact hx
    · rw [List.getElem?_take_of_lt (by omega)]
      exact hy
  case heights =>
    intro i x hx
    refine (heightOf?_iff_rooted hl).2 ⟨_, h.grounded i x hx, ?_⟩
    have hlt := (List.getElem?_eq_some_iff.1 hx).1
    rw [List.length_take]
    omega
  case linked =>
    intro x k hx
    obtain ⟨id, n, hid, rfl, hk⟩ := (heightOf?_eq_some_iff hl.distinct).1 hx
    obtain ⟨chain, hbranch, _, hlen⟩ := branchTo_eq hl hx
    have hfound := (node?_eq_some_iff hl.distinct).2 ⟨id, hid, rfl⟩
    obtain ⟨way, hdown, hanc⟩ := hl.descends hid hk
    have hway : way = chain := by
      rw [branchTo, hfound] at hbranch
      dsimp only at hbranch
      rw [hk] at hbranch
      dsimp only at hbranch
      rw [hanc [], List.append_nil] at hbranch
      simpa using hbranch
    exact ⟨n, chain, hfound, hbranch, hway ▸ hdown, hlen⟩
  case unlinked => exact fun x hx => branchTo_unlinked hx

theorem Tipped.firstHighest (h : Tipped none a) : FirstHighest a := by
  intro t ht
  obtain ⟨n, k, hn, hk, _, _, hleads⟩ := h.ahead t ht
  refine ⟨n, k, hn, hk, ?_⟩
  intro id m j hid hj
  rcases hleads id m j hid hj with hlt | ⟨heq, hbefore⟩
  · exact Or.inl hlt
  · rcases hbefore with hfirst | ⟨_, hle⟩
    · simp at hfirst
    · exact Or.inr ⟨heq, hle⟩

/-- **The best chain is the ancestry of the tip**, whatever is done to an assembler; and unless a
snapshot was replayed, the tip is the first seen of the highest linked records. -/
theorem performAll_onTip (ops : List Operation) :
    OnTip (Assembler.empty.performAll ops) ∧
      ((∀ op ∈ ops, op.isSeed = false) → FirstHighest (Assembler.empty.performAll ops)) := by
  refine ⟨?_, ?_⟩
  · exact (Rests.empty.performAll Linking.empty ops).onTip (Linking.empty.performAll ops)
  · intro hops
    exact (Tipped.empty.performAll Linking.empty hops).firstHighest

/-- A block that waits, a first block, another block on it, and then the one that was waited for. -/
def overtaking : List Operation :=
  [.insert ⟨Hash.repeated 3, Header.on (Hash.repeated 2) 0, 80, 0, 0⟩,
    .insert ⟨Hash.repeated 1, Header.on Hash.zero 0, 80, 0, 88⟩,
    .insert ⟨Hash.repeated 4, Header.on (Hash.repeated 1) 0, 80, 0, 176⟩, .markPersisted,
    .insert ⟨Hash.repeated 2, Header.on (Hash.repeated 1) 0, 80, 0, 264⟩, .drainReorgs]

theorem overtaking_firstHighest :
    (∀ op ∈ overtaking, op.isSeed = false) ∧ FirstHighest (Assembler.empty.performAll overtaking) := by
  have hplain : ∀ op ∈ overtaking, op.isSeed = false := by decide
  exact ⟨hplain, (performAll_onTip overtaking).2 hplain⟩

end Assembler

end BlockIndex
