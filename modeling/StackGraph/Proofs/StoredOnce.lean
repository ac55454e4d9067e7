import Mathlib.Data.Set.Card
import Mathlib.Data.Set.Finite.Lattice
import Mathlib.Data.Sym.Sym2
import StackGraph.Proofs.MergeRuns
import StackGraph.Proofs.Tables

/-!
# A merge stores each pair once

Between the question for a pair and the answer that is stored lie all merges below, and they write to
the same memo. They cannot store the pair itself, in neither order: the pairs they store lie strictly
below both nodes, the one on each side. So whatever a merge stores, it stores as a new entry.

* `MergeTable.TakesNew`, `MergeTable.storeAll` -- a list of entries is given to a memo, each of them
  when the memo knows neither order of its pair;
* `Entry.pair` -- the unordered pair of trees that an entry is about;
* `MergeTable.known?_eq_some_iff` -- a memo that holds each pair once answers with the entry;
* `Stores` -- what a computation gives to its memo;
* `Asks` -- the pairs that a merge may ask for, which lie below both nodes;
* `stores_merge` -- **a merge gives its memo new entries only**, by induction on the left node;
* `Stores.length_le` -- there are no more of them than pairs of trees below both nodes.
-/

namespace StackGraph

open Node

/-! ## 1. Entries that are new -/

namespace MergeTable

variable {t : MergeTable} {a b m : Node} {new new' : List Entry}

/-- Gives a memo entries, one after the other. -/
def storeAll (t : MergeTable) (entries : List Entry) : MergeTable :=
  entries.foldl (fun t e => Memo.store t e.1.1 e.1.2 e.2) t

/-- Each of the entries is given to the memo when it knows its pair in neither order. -/
def TakesNew (t : MergeTable) : List Entry → Prop
  | [] => True
  | e :: rest => Memo.known? t e.1.1 e.1.2 = none ∧ TakesNew (Memo.store t e.1.1 e.1.2 e.2) rest

theorem storeAll_append (t : MergeTable) (new new' : List Entry) :
    t.storeAll (new ++ new') = (t.storeAll new).storeAll new' := List.foldl_append

theorem takesNew_append :
    t.TakesNew (new ++ new') ↔ t.TakesNew new ∧ (t.storeAll new).TakesNew new' := by
  induction new generalizing t with
  | nil => exact (true_and _).symm ▸ Iff.rfl
  | cons e new ih => simp only [List.cons_append, TakesNew, ih, and_assoc]; rfl

/-- An entry about a pair of which the memo knows neither order comes behind the others. -/
theorem entries_store (unknown : Memo.known? t a b = none) (m : Node) :
    (Memo.store t a b m).entries = t.entries ++ [((a, b), m)] :=
  Table.entries_insert_of_find?_eq_none (Option.or_eq_none_iff.mp unknown).1

/-- **New entries come behind the old ones**, and none is replaced. -/
theorem TakesNew.entries_eq (h : t.TakesNew new) : (t.storeAll new).entries = t.entries ++ new := by
  induction new generalizing t with
  | nil => exact (List.append_nil _).symm
  | cons e new ih =>
    refine (ih h.2).trans ?_
    rw [entries_store h.1, List.append_assoc]
    rfl

theorem TakesNew.size_eq (h : t.TakesNew new) : (t.storeAll new).size = t.size + new.length := by
  unfold Table.size
  rw [h.entries_eq, List.length_append]

end MergeTable

/-! ## 2. Unordered pairs -/

/-- The trees that an entry is about, in no order. -/
def Entry.pair (e : Entry) : Sym2 Tree := s(e.1.1.tree, e.1.2.tree)

namespace MergeTable

variable {g : Graph} {t : MergeTable} {a b m : Node} {new : List Entry}

/-- The pairs of trees that a memo has entries for. -/
def pairs (t : MergeTable) : List (Sym2 Tree) := t.entries.map Entry.pair

theorem mem_pairs {z : Sym2 Tree} : z ∈ t.pairs ↔ ∃ e ∈ t.entries, Entry.pair e = z := List.mem_map

/-- An answer for a pair comes from an entry about this order of the pair. -/
theorem Over.exists_entry (h : Over g t) (ha : a ∈ g) (hb : b ∈ g)
    (found : Memo.find? t a b = some m) :
    ∃ e ∈ t.entries, e.2 = m ∧ e.1.1.tree = a.tree ∧ e.1.2.tree = b.tree := by
  have own : t.Every fun pair r => (pair, r) ∈ t.entries := fun _ he => he
  obtain ⟨⟨x, y⟩, eq, mem⟩ := own.find? found
  obtain ⟨⟨hx, hy⟩, _⟩ := h _ mem
  obtain ⟨ex, ey⟩ := Bool.and_eq_true_iff.mp eq
  exact ⟨_, mem, rfl, (Graph.beq_iff hx ha).mp ex, (Graph.beq_iff hy hb).mp ey⟩

/-- Where there is no answer, no entry is about this order of the pair. -/
theorem Over.find?_eq_none_iff (h : Over g t) (ha : a ∈ g) (hb : b ∈ g) :
    Memo.find? t a b = none ↔ ∀ e ∈ t.entries, ¬ (e.1.1.tree = a.tree ∧ e.1.2.tree = b.tree) := by
  refine Table.lookUp_eq_none_iff.trans (forall₂_congr fun e he => ?_)
  obtain ⟨⟨hx, hy⟩, _⟩ := h e he
  rw [← Graph.beq_iff hx ha, ← Graph.beq_iff hy hb, ← Bool.and_eq_true_iff, Bool.not_eq_true]
  rfl

/-- **A memo knows a pair in neither order when no entry is about the pair.** -/
theorem Over.known?_eq_none_iff (h : Over g t) (ha : a ∈ g) (hb : b ∈ g) :
    Memo.known? t a b = none ↔ s(a.tree, b.tree) ∉ t.pairs := by
  unfold Memo.known?
  rw [Option.or_eq_none_iff, h.find?_eq_none_iff ha hb, h.find?_eq_none_iff hb ha, mem_pairs]
  simp only [Entry.pair, Sym2.eq_iff, not_exists, not_and, not_or]
  exact ⟨fun ⟨h₁, h₂⟩ e he => ⟨h₁ e he, h₂ e he⟩, fun h => ⟨fun e he => (h e he).1,
    fun e he => (h e he).2⟩⟩

/-- What a memo answers comes from an entry about the pair. -/
theorem Over.exists_known (h : Over g t) (ha : a ∈ g) (hb : b ∈ g)
    (found : Memo.known? t a b = some m) :
    ∃ e ∈ t.entries, e.2 = m ∧ Entry.pair e = s(a.tree, b.tree) := by
  rcases Option.or_eq_some_iff.mp found with found | ⟨_, found⟩
  · obtain ⟨e, he, em, ea, eb⟩ := h.exists_entry ha hb found
    exact ⟨e, he, em, Sym2.eq_iff.mpr (.inl ⟨ea, eb⟩)⟩
  · obtain ⟨e, he, em, eb, ea⟩ := h.exists_entry hb ha found
    exact ⟨e, he, em, Sym2.eq_iff.mpr (.inr ⟨eb, ea⟩)⟩

/-- **A memo that holds each pair once answers with the entry about the pair**, whichever order it
    is asked in. -/
theorem Over.known?_eq_some_iff (h : Over g t) (once : t.pairs.Nodup) (ha : a ∈ g) (hb : b ∈ g) :
    Memo.known? t a b = some m ↔ ∃ e ∈ t.entries, e.2 = m ∧ Entry.pair e = s(a.tree, b.tree) := by
  refine ⟨h.exists_known ha hb, fun ⟨e, he, em, pair⟩ => ?_⟩
  cases found : Memo.known? t a b with
  | none =>
    have absent := (h.known?_eq_none_iff ha hb).mp found
    exact absurd (mem_pairs.mpr ⟨e, he, pair⟩) absent
  | some r =>
    obtain ⟨e', he', er, pair'⟩ := h.exists_known ha hb found
    have same : e' = e := List.inj_on_of_nodup_map once he' he (pair'.trans pair.symm)
    rw [← er, ← em, same]

/-- New entries are about pairs that the memo has no entry for, and each is about another one. -/
theorem TakesNew.pairs_new (takes : t.TakesNew new) (h : Over g t) (hn : Over g ⟨new⟩) :
    (∀ e ∈ new, Entry.pair e ∉ t.pairs) ∧ (new.map Entry.pair).Nodup := by
  induction new generalizing t with
  | nil => simp
  | cons e new ih =>
    obtain ⟨unknown, rest⟩ := takes
    obtain ⟨⟨hx, hy⟩, hm⟩ := hn e List.mem_cons_self
    have absent := (h.known?_eq_none_iff hx hy).mp unknown
    have stored : (Memo.store t e.1.1 e.1.2 e.2).pairs = t.pairs ++ [Entry.pair e] :=
      (congrArg (List.map Entry.pair) (entries_store unknown e.2)).trans List.map_append
    obtain ⟨later, once⟩ := ih rest (h.store hx hy hm) fun e' he' =>
      hn e' (List.mem_cons_of_mem _ he')
    rw [stored] at later
    simp only [List.mem_append, List.mem_singleton, not_or] at later
    refine ⟨List.forall_mem_cons.mpr ⟨absent, fun e' he' => (later e' he').1⟩, ?_⟩
    refine List.nodup_cons.mpr ⟨fun twice => ?_, once⟩
    obtain ⟨e', he', same⟩ := List.mem_map.mp twice
    exact (later e' he').2 same

/-- A memo that holds each pair once does so after new entries. -/
theorem TakesNew.nodup (takes : t.TakesNew new) (h : Over g t) (hn : Over g ⟨new⟩)
    (once : t.pairs.Nodup) : (t.storeAll new).pairs.Nodup := by
  obtain ⟨absent, apart⟩ := takes.pairs_new h hn
  unfold pairs
  rw [takes.entries_eq, List.map_append, List.nodup_append]
  refine ⟨once, apart, fun z hz z' hz' e => ?_⟩
  obtain ⟨entry, he, rfl⟩ := List.mem_map.mp hz'
  exact absent entry he (e ▸ hz)

end MergeTable

/-! ## 3. What a merge gives to its memo -/

/-- What lies below a node is a smaller tree. -/
theorem Tree.Reaches.sizeOf_le {t u : Tree} (r : t.Reaches u) : sizeOf u ≤ sizeOf t := by
  induction r with
  | refl t => exact Nat.le_refl _
  | step hp _ ih => exact Nat.le_trans ih (Nat.le_of_lt (Tree.sizeOf_lt_of_mem_parents hp))

theorem Node.sizeOf_tree_lt {n p m : Node} (hp : p ∈ n.parents) (r : Reaches p m) :
    sizeOf m.tree < sizeOf n.tree :=
  Nat.lt_of_le_of_lt (tree_reaches_iff.mpr ⟨m, r, rfl⟩).sizeOf_le
    (Tree.sizeOf_lt_of_mem_parents (mem_parents_tree.mpr ⟨p, hp, rfl⟩))

/-- From one arena to the next, the memo was given the entries `new`, each when it knew its pair in
    neither order. -/
structure Stores (s s' : Arena MergeTable) (new : List Entry) : Prop where
  storings_eq : s'.storings = s.storings ++ new
  table_eq : s'.table = s.table.storeAll new
  takes : s.table.TakesNew new

namespace Stores

variable {s s₁ s' : Arena MergeTable} {new new' : List Entry}

theorem of_alike (h : s.Alike s') : Stores s s' [] :=
  ⟨h.storings_eq.trans (List.append_nil _).symm, h.table_eq, trivial⟩

theorem trans (h : Stores s s₁ new) (h' : Stores s₁ s' new') : Stores s s' (new ++ new') where
  storings_eq := by rw [h'.storings_eq, h.storings_eq, List.append_assoc]
  table_eq := by rw [h'.table_eq, h.table_eq, MergeTable.storeAll_append]
  takes := MergeTable.takesNew_append.mpr ⟨h.takes, h.table_eq ▸ h'.takes⟩

/-- One more entry about a pair that the memo does not know. -/
theorem store (h : Stores s s₁ new) {a b m : Node} (unknown : Memo.known? s₁.table a b = none) :
    Stores s ⟨s₁.next, s₁.journal.push (.stored a b m), Memo.store s₁.table a b m⟩
      (new ++ [((a, b), m)]) := by
  refine h.trans ⟨?_, rfl, unknown, trivial⟩
  rw [Arena.storings_push]
  rfl

theorem entries_eq (h : Stores s s' new) : s'.table.entries = s.table.entries ++ new :=
  h.table_eq ▸ h.takes.entries_eq

/-- The journal tells what the memo was given. -/
theorem unique (h : Stores s s' new) (h' : Stores s s' new') : new = new' :=
  List.append_cancel_left (h.storings_eq.symm.trans h'.storings_eq)

end Stores

/-- `Asks mode a b k`: a merge of `a` and `b` may ask its memo for the pair `k`, which is the pair of
    both or one that a merge below a state of both may ask for. -/
inductive Asks (mode : Mode) : Node → Node → Node × Node → Prop where
  | here {a b : Node} (h : atOnce? mode a b = none) : Asks mode a b (a, b)
  | under {a b p q : Node} {k : Node × Node} (meet : Slot.Meet a.slots b.slots p q)
      (h : Asks mode p q k) : Asks mode a b k

/-- The nodes of the pair lie below both nodes, the first one below the first. -/
theorem Asks.reaches {mode : Mode} {a b : Node} {k : Node × Node} (h : Asks mode a b k) :
    Reaches a k.1 ∧ Reaches b k.2 := by
  induction h with
  | here => exact ⟨.refl _, .refl _⟩
  | under meet _ ih => exact ⟨.step meet.mem_parents.1 ih.1, .step meet.mem_parents.2 ih.2⟩

section Merges

variable {mode : Mode} {g : Graph} {a b m : Node} {s s' : Arena MergeTable}

/-- Merges that are made one after the other grow the graph. -/
theorem InTurn.grows {js : List Junction} (h : InTurn mode js s s')
    (hs : (MemoUpkeep.table mode).toUpkeep.At g s) (mem : ∀ j ∈ js, j.left ∈ g ∧ j.right ∈ g) :
    ∃ g', g ≤ g' ∧ (MemoUpkeep.table mode).toUpkeep.At g' s' ∧ ∀ j ∈ js, j.merged ∈ g' := by
  induction h generalizing g with
  | nil s => exact ⟨g, g.le_refl, hs, fun _ hj => absurd hj List.not_mem_nil⟩
  | @cons j js s s₁ s' run _ ih =>
    obtain ⟨⟨hl, hr⟩, mem⟩ := List.forall_mem_cons.mp mem
    obtain ⟨g₁, le, hs₁, hm⟩ := (Grows.merge hl hr).of_ok hs run
    obtain ⟨g₂, le', hs₂, rest⟩ := ih hs₁ fun j hj => ⟨le _ (mem j hj).1, le _ (mem j hj).2⟩
    exact ⟨g₂, g.le_trans le le', hs₂, List.forall_mem_cons.mpr ⟨le' _ hm.mem, rest⟩⟩

/-- What is true of every merge below two nodes is true of all that are made one after the other:
    together they give new entries to the memo, about pairs that they may ask for. -/
theorem InTurn.stores {js : List Junction} (h : InTurn mode js s s')
    (hs : (MemoUpkeep.table mode).toUpkeep.At g s) (mem : ∀ j ∈ js, j.left ∈ g ∧ j.right ∈ g)
    (each : ∀ j ∈ js, ∀ {g s s'}, (MemoUpkeep.table mode).toUpkeep.At g s → j.left ∈ g →
      j.right ∈ g → merge mode j.left j.right s = .ok j.merged s' →
      ∃ new, Stores s s' new ∧ ∀ e ∈ new, Asks mode j.left j.right e.1) :
    ∃ new, Stores s s' new ∧ ∀ e ∈ new, ∃ j ∈ js, Asks mode j.left j.right e.1 := by
  induction h generalizing g with
  | nil s => exact ⟨[], .of_alike (.refl s), fun _ he => absurd he List.not_mem_nil⟩
  | @cons j js s s₁ s' run _ ih =>
    obtain ⟨⟨hl, hr⟩, mem⟩ := List.forall_mem_cons.mp mem
    obtain ⟨first, each⟩ := List.forall_mem_cons.mp each
    obtain ⟨new, stores, below⟩ := first hs hl hr run
    obtain ⟨g₁, le, hs₁, _⟩ := (Grows.merge hl hr).of_ok hs run
    obtain ⟨new', stores', below'⟩ := ih hs₁ (fun j hj => ⟨le _ (mem j hj).1, le _ (mem j hj).2⟩) each
    refine ⟨new ++ new', stores.trans stores', fun e he => ?_⟩
    rcases List.mem_append.mp he with he | he
    · exact ⟨j, List.mem_cons_self, below e he⟩
    · obtain ⟨j', hj', r⟩ := below' e he
      exact ⟨j', List.mem_cons_of_mem _ hj', r⟩

/-- What a merge below two nodes asks for is not the pair of the two, in neither order. -/
theorem Asks.pair_ne {p q : Node} {e : Entry} (h : Asks mode p q e.1) (hp : p ∈ a.parents)
    (hq : q ∈ b.parents) : Entry.pair e ≠ s(a.tree, b.tree) := by
  have left := sizeOf_tree_lt hp h.reaches.1
  have right := sizeOf_tree_lt hq h.reaches.2
  intro same
  rcases Sym2.eq_iff.mp same with ⟨ea, eb⟩ | ⟨eb, ea⟩
  · rw [ea] at left
    omega
  · rw [eb] at left
    rw [ea] at right
    omega

/-- **A merge gives its memo new entries only**, about pairs that it may ask for. -/
theorem stores_merge (hs : (MemoUpkeep.table mode).toUpkeep.At g s) (ha : a ∈ g) (hb : b ∈ g)
    (run : merge mode a b s = .ok m s') :
    ∃ new, Stores s s' new ∧ ∀ e ∈ new, Asks mode a b e.1 := by
  induction a using Node.induction generalizing g b m s s' with
  | step a ih =>
    cases merge_ok hs ha hb run with
    | atOnce _ e => exact ⟨[], .of_alike (e ▸ .refl s), fun _ he => absurd he List.not_mem_nil⟩
    | known _ _ alike => exact ⟨[], .of_alike alike, fun _ he => absurd he List.not_mem_nil⟩
    | @computed js s₂ asks unknown joined e =>
      subst e
      obtain ⟨s₁, turns, alike⟩ := joined.turns
      have asked : (MemoUpkeep.table mode).toUpkeep.At g (s.asked a b) := hs
      have parents : ∀ j ∈ js, j.left ∈ a.parents ∧ j.right ∈ b.parents :=
        fun j hj => (joined.meets j hj).mem_parents
      have mem := joined.mem ha hb
      obtain ⟨new, stores, below⟩ := turns.stores asked mem fun j hj {_ _ _} hs hl hr run =>
        ih j.left (parents j hj).1 hs hl hr run
      obtain ⟨g₁, le, hs₁, _⟩ := turns.grows asked mem
      have all : Stores s s₂ new := by
        have := (Stores.of_alike (s.alike_asked a b)).trans (stores.trans (.of_alike alike))
        rwa [List.append_nil] at this
      -- what was stored meanwhile lies strictly below both nodes, so the pair is still unknown
      have still : Memo.known? s₂.table a b = none := by
        have covered : MergeTable.Over g₁ s₂.table := alike.table_eq ▸ hs₁.2
        rw [covered.known?_eq_none_iff (le a ha) (le b hb)]
        have absent := (MergeTable.Over.known?_eq_none_iff hs.2 ha hb).mp unknown
        unfold MergeTable.pairs
        rw [all.entries_eq, List.map_append, List.mem_append]
        rintro (old | fresh)
        · exact absent old
        · obtain ⟨e, he, same⟩ := List.mem_map.mp fresh
          obtain ⟨j, hj, h⟩ := below e he
          exact h.pair_ne (parents j hj).1 (parents j hj).2 same
      refine ⟨new ++ [((a, b), m)], all.store still, fun e he => ?_⟩
      rcases List.mem_append.mp he with he | he
      · obtain ⟨j, hj, h⟩ := below e he
        exact .under (joined.meets j hj) h
      · rw [List.mem_singleton.mp he]
        exact .here asks

end Merges

/-! ## 4. How many entries there are -/

/-- There are finitely many trees below a tree. -/
theorem Tree.finite_reaches (t : Tree) : {u | t.Reaches u}.Finite := by
  induction t using Tree.induction with
  | step t ih =>
    have below : {u | t.Reaches u} ⊆ {t} ∪ ⋃ p ∈ {p | p ∈ t.parents}, {u | p.Reaches u} := by
      rintro u r
      cases r with
      | refl => exact .inl rfl
      | step hp r => exact .inr (Set.mem_biUnion hp r)
    have finite := Set.Finite.biUnion (List.finite_toSet t.parents) ih
    exact ((Set.finite_singleton t).union finite).subset below

/-- **There are no more new entries than pairs of trees below both nodes.** -/
theorem Stores.length_le {g : Graph} {a b : Node} {s s' : Arena MergeTable} {new : List Entry}
    (h : Stores s s' new) (hs : MergeTable.Over g s.table) (hn : MergeTable.Over g ⟨new⟩)
    (below : ∀ e ∈ new, Reaches a e.1.1 ∧ Reaches b e.1.2) :
    new.length ≤ {t | a.tree.Reaches t}.ncard * {t | b.tree.Reaches t}.ncard := by
  let keys : List (Tree × Tree) := new.map fun e => (e.1.1.tree, e.1.2.tree)
  have once : keys.Nodup := by
    have apart := (h.takes.pairs_new hs hn).2
    have e : new.map Entry.pair = keys.map fun k => s(k.1, k.2) := by
      simp [keys, Function.comp_def, Entry.pair]
    exact .of_map _ (e ▸ apart)
  have within : (↑keys.toFinset : Set (Tree × Tree)) ⊆
      {t | a.tree.Reaches t} ×ˢ {t | b.tree.Reaches t} := by
    intro k hk
    obtain ⟨e, he, rfl⟩ := List.mem_map.mp (List.mem_toFinset.mp hk)
    exact ⟨tree_reaches_iff.mpr ⟨_, (below e he).1, rfl⟩,
      tree_reaches_iff.mpr ⟨_, (below e he).2, rfl⟩⟩
  calc new.length = keys.toFinset.card := by
        rw [List.toFinset_card_of_nodup once, List.length_map]
    _ = (↑keys.toFinset : Set (Tree × Tree)).ncard := (Set.ncard_coe_finset _).symm
    _ ≤ _ := Set.ncard_le_ncard within
        ((Tree.finite_reaches _).prod (Tree.finite_reaches _))
    _ = _ := Set.ncard_prod

end StackGraph
