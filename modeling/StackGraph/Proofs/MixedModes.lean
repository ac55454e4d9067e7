import StackGraph.Proofs.MemoLedgers
import StackGraph.Proofs.ModeConflicts

/-!
# Merges of both modes on one memo

The entries of a memo do not say in which mode they were made, so a merge may be answered by an entry
of the other mode. This does no harm where both modes merge the pair alike. Where they differ, the
answer is wrong for the merge, and so is everything above it.

Whether that happens depends on the merges alone, and not on their order: it happens when two merges
of different modes come to a common pair that the modes merge differently.

* `Deed`, `Undisturbed` -- an entry beside the mode it was made in, and the entries of merges that all
  went right;
* `Meddled` -- a merge that comes to an entry which is wrong for it;
* `outcome_merge` -- **a merge is right exactly when it is not meddled with**, by induction on the
  left node;
* `Session.mergesOn` -- the merges of a run on a memo;
* `Session.merges_right_iff_no_conflict` -- **all merges are right when no two of them conflict**, and
  only then.
-/

namespace StackGraph

open Node

variable {mode : Mode} {g : Graph} {a b m : Node}

/-! ## 1. Questions of nodes and of trees -/

theorem isChoice_tree_iff : a.tree.IsChoice ↔ a.kind = .choice := by
  cases a with
  | bottom i => simp [Tree.IsChoice, tree, kind]
  | frame i k x p => simp [Tree.IsChoice, tree, kind]
  | choice i k slots => exact ⟨fun _ => rfl, fun _ => ⟨_, rfl⟩⟩

/-- A merge ends at once with the same node, or with a bottom that swallows a choice. -/
theorem atOnce?_cases (h : atOnce? mode a b = some m) :
    a.same b = true ∧ m = a ∨ Tree.AtOnce mode a.tree b.tree ∧ m.tree = .bottom := by
  unfold atOnce? at h
  split_ifs at h with same left right
  · exact .inl ⟨same, (Option.some.inj h).symm⟩
  · have bottom := tree_eq_bottom_iff.mpr left.2.1
    obtain rfl := Option.some.inj h
    exact .inr ⟨⟨left.1, .inl ⟨bottom, isChoice_tree_iff.mpr left.2.2⟩⟩, bottom⟩
  · have bottom := tree_eq_bottom_iff.mpr right.2.2
    obtain rfl := Option.some.inj h
    exact .inr ⟨⟨right.1, .inr ⟨bottom, isChoice_tree_iff.mpr right.2.1⟩⟩, bottom⟩

theorem not_atOnce (h : atOnce? mode a b = none) : ¬ Tree.AtOnce mode a.tree b.tree := by
  unfold atOnce? at h
  split_ifs at h with _ left right
  rintro ⟨wild, ⟨bottom, choice⟩ | ⟨bottom, choice⟩⟩
  · exact left ⟨wild, tree_eq_bottom_iff.mp bottom, isChoice_tree_iff.mp choice⟩
  · exact right ⟨wild, isChoice_tree_iff.mp choice, tree_eq_bottom_iff.mp bottom⟩

/-- What may be asked for, the merge of the trees comes to. -/
theorem Asks.comes {k : Node × Node} (h : Asks mode a b k) :
    Tree.Comes mode a.tree b.tree s(k.1.tree, k.2.tree) := by
  induction h with
  | here h => exact .here (not_atOnce h)
  | under meet _ ih =>
    refine .under ?_ ih
    rw [slots_tree, slots_tree, Slot.meet_map]
    exact ⟨_, _, meet, rfl, rfl⟩

/-- A merge that ends at once is right, and comes to nothing that the modes merge differently. -/
theorem right_of_atOnce (ha : a ∈ g) (hb : b ∈ g) (h : atOnce? mode a b = some m) :
    m.tree = Tree.merge mode a.tree b.tree ∧
      ∀ z, Tree.Comes mode a.tree b.tree z → ¬ Tree.ModesDiffer z := by
  rcases atOnce?_cases h with ⟨same, rfl⟩ | ⟨once, bottom⟩
  · obtain rfl := Graph.eq_of_same ha hb same
    exact ⟨(Tree.merge_self (Graph.proper_tree ha)).symm,
      fun z comes => comes.not_modesDiffer_self (Graph.proper_tree ha)⟩
  · have sw : Tree.Swallows mode a.tree b.tree := ⟨once.1, once.2.imp And.left And.left⟩
    exact ⟨bottom.trans (Tree.merge_of_swallows sw).symm, fun z comes => absurd comes once.not_comes⟩

/-! ## 2. Entries beside their modes -/

/-- An entry of a memo beside the mode of the merge that it was stored by. -/
abbrev Deed := Mode × Entry

/-- The pair is in a memo, stored by a merge of this mode. -/
def Covered (deeds : List Deed) (mode : Mode) (z : Sym2 Tree) : Prop :=
  ∃ d ∈ deeds, d.1 = mode ∧ Entry.pair d.2 = z

/-- Every entry is right for its mode, and where it comes to a pair that the modes merge differently,
    this pair is in the memo as well, stored by a merge of the same mode. -/
structure Undisturbed (deeds : List Deed) : Prop where
  right : ∀ d ∈ deeds, d.2.2.tree = Tree.merge d.1 d.2.1.1.tree d.2.1.2.tree
  covers : ∀ d ∈ deeds, ∀ z, Tree.Comes d.1 d.2.1.1.tree d.2.1.2.tree z → Tree.ModesDiffer z →
    Covered deeds d.1 z

/-- A merge of two trees comes to a pair that the modes merge differently, and that is in the memo,
    stored by a merge of the other mode. -/
def Meddled (deeds : List Deed) (mode : Mode) (a b : Tree) : Prop :=
  ∃ z, Tree.Comes mode a b z ∧ Tree.ModesDiffer z ∧ ∃ d ∈ deeds, d.1 ≠ mode ∧ Entry.pair d.2 = z

/-- The entries beside a mode. -/
def inMode (mode : Mode) (entries : List Entry) : List Deed := entries.map fun e => (mode, e)

section Deeds

variable {deeds deeds' : List Deed} {new : List Entry} {z : Sym2 Tree} {t u : Tree}

theorem mem_inMode {d : Deed} : d ∈ inMode mode new ↔ d.1 = mode ∧ d.2 ∈ new := by
  unfold inMode
  rw [List.mem_map]
  constructor
  · rintro ⟨e, he, rfl⟩
    exact ⟨rfl, he⟩
  · rintro ⟨rfl, he⟩
    exact ⟨d.2, he, rfl⟩

theorem Covered.append (h : Covered deeds mode z) (deeds' : List Deed) :
    Covered (deeds ++ deeds') mode z :=
  let ⟨d, hd, found⟩ := h
  ⟨d, List.mem_append_left _ hd, found⟩

/-- Entries of the mode of a merge do not meddle with it. -/
theorem meddled_append (new : List Entry) :
    Meddled (deeds ++ inMode mode new) mode t u ↔ Meddled deeds mode t u := by
  refine exists_congr fun z => and_congr_right fun _ => and_congr_right fun _ => ?_
  constructor
  · rintro ⟨d, hd, ne, pair⟩
    rcases List.mem_append.mp hd with hd | hd
    · exact ⟨d, hd, ne, pair⟩
    · exact absurd (mem_inMode.mp hd).1 ne
  · rintro ⟨d, hd, ne, pair⟩
    exact ⟨d, List.mem_append_left _ hd, ne, pair⟩

theorem Meddled.under {p q : Tree} (h : Meddled deeds mode p q)
    (meet : Slot.Meet t.slots u.slots p q) : Meddled deeds mode t u :=
  let ⟨z, comes, found⟩ := h
  ⟨z, .under meet comes, found⟩

/-- One more merge that was right, after those that it comes to. -/
theorem Undisturbed.add (h : Undisturbed deeds) {a b m : Node}
    (right : m.tree = Tree.merge mode a.tree b.tree)
    (covers : ∀ z, Tree.Comes mode a.tree b.tree z → Tree.ModesDiffer z →
      Covered (deeds ++ [(mode, ((a, b), m))]) mode z) :
    Undisturbed (deeds ++ [(mode, ((a, b), m))]) where
  right d hd := by
    rcases List.mem_append.mp hd with hd | hd
    · exact h.right d hd
    · rwa [List.mem_singleton.mp hd]
  covers d hd z comes differ := by
    rcases List.mem_append.mp hd with hd | hd
    · exact (h.covers d hd z comes differ).append _
    · obtain rfl := List.mem_singleton.mp hd
      exact covers z comes differ

end Deeds

/-- The deeds are the entries of a memo that holds each pair once, and none of them was disturbed. -/
structure Records (deeds : List Deed) (t : MergeTable) : Prop where
  entries : deeds.map Prod.snd = t.entries
  once : t.pairs.Nodup
  undisturbed : Undisturbed deeds

/-- Two deeds about one pair are one. -/
theorem Records.eq_of_pair {deeds : List Deed} {t : MergeTable} (h : Records deeds t) {d d' : Deed}
    (hd : d ∈ deeds) (hd' : d' ∈ deeds) (e : Entry.pair d.2 = Entry.pair d'.2) : d = d' := by
  have once : (deeds.map fun d => Entry.pair d.2).Nodup := by
    have := h.once
    unfold MergeTable.pairs at this
    rwa [← h.entries, List.map_map] at this
  exact List.inj_on_of_nodup_map once hd hd' e

/-- What came of merges in one mode from one arena to the next: they were right exactly when nothing
    meddled with them, and then the memo stays undisturbed, and what they came to where the modes
    differ is in it. -/
structure Outcome (mode : Mode) (deeds : List Deed) (s s' : Arena MergeTable) (right meddled : Prop)
    (comesTo : Sym2 Tree → Prop) : Prop where
  right_iff : right ↔ ¬ meddled
  keeps : ¬ meddled → ∃ new, Stores s s' new ∧ Undisturbed (deeds ++ inMode mode new) ∧
    ∀ z, comesTo z → Tree.ModesDiffer z → Covered (deeds ++ inMode mode new) mode z

/-- The outcome of every merge of two nodes. -/
def MergeOutcome (mode : Mode) (a b m : Node) : Prop :=
  ∀ {g : Graph} {s s' : Arena MergeTable} {deeds : List Deed},
    (MemoUpkeep.table mode).toUpkeep.At g s → a ∈ g → b ∈ g → Records deeds s.table →
    merge mode a b s = .ok m s' →
    Outcome mode deeds s s' (m.tree = Tree.merge mode a.tree b.tree)
      (Meddled deeds mode a.tree b.tree) (Tree.Comes mode a.tree b.tree)

/-- Where nothing differs that a merge comes to, it is right and stores nothing, all is well. -/
theorem Outcome.idle {deeds : List Deed} {s s' : Arena MergeTable} {right : Prop} {t u : Tree}
    (alike : s.Alike s') (clean : Undisturbed deeds) (hr : right)
    (none : ∀ z, Tree.Comes mode t u z → ¬ Tree.ModesDiffer z) :
    Outcome mode deeds s s' right (Meddled deeds mode t u) (Tree.Comes mode t u) where
  right_iff := iff_of_true hr fun ⟨z, comes, differ, _⟩ => none z comes differ
  keeps := fun _ => ⟨[], .of_alike alike, by simpa [inMode] using clean,
    fun z comes differ => absurd differ (none z comes)⟩

variable {s s' : Arena MergeTable} {deeds : List Deed}

theorem Records.stores {new : List Entry} (h : Records deeds s.table) (stores : Stores s s' new)
    (covered : MergeTable.Over g s'.table) (clean : Undisturbed (deeds ++ inMode mode new)) :
    Records (deeds ++ inMode mode new) s'.table where
  entries := by
    rw [stores.entries_eq, List.map_append, h.entries]
    simp [inMode, Function.comp_def]
  once := stores.nodup covered h.once
  undisturbed := clean

/-- **Merges that are made one after the other are all right exactly when nothing meddles with any
    of them.** -/
theorem InTurn.outcome {js : List Junction} (h : InTurn mode js s s')
    (hs : (MemoUpkeep.table mode).toUpkeep.At g s) (mem : ∀ j ∈ js, j.left ∈ g ∧ j.right ∈ g)
    (records : Records deeds s.table)
    (each : ∀ j ∈ js, MergeOutcome mode j.left j.right j.merged) :
    Outcome mode deeds s s' (∀ j ∈ js, j.Right mode)
      (∃ j ∈ js, Meddled deeds mode j.left.tree j.right.tree)
      (fun z => ∃ j ∈ js, Tree.Comes mode j.left.tree j.right.tree z) := by
  induction h generalizing g deeds with
  | nil s =>
    exact {
      right_iff := by simp
      keeps := fun _ => ⟨[], .of_alike (.refl s), by simpa [inMode] using records.undisturbed,
        by simp⟩ }
  | @cons j js s s₁ s' run _ ih =>
    obtain ⟨⟨hl, hr⟩, mem⟩ := List.forall_mem_cons.mp mem
    obtain ⟨first, each⟩ := List.forall_mem_cons.mp each
    have now := first hs hl hr records run
    by_cases meddled : Meddled deeds mode j.left.tree j.right.tree
    · have wrong : ¬ j.Right mode := fun right => now.right_iff.mp right meddled
      exact {
        right_iff := iff_of_false (fun all => wrong (all j List.mem_cons_self))
          fun none => none ⟨j, List.mem_cons_self, meddled⟩
        keeps := fun none => absurd ⟨j, List.mem_cons_self, meddled⟩ none }
    · obtain ⟨new, stores, clean, comesTo⟩ := now.keeps meddled
      obtain ⟨g₁, le, hs₁, _⟩ := (Grows.merge hl hr).of_ok hs run
      have later := ih hs₁ (fun j hj => ⟨le _ (mem j hj).1, le _ (mem j hj).2⟩)
        (records.stores stores hs₁.2 clean) each
      simp only [meddled_append] at later
      have same : (∃ j' ∈ j :: js, Meddled deeds mode j'.left.tree j'.right.tree) ↔
          ∃ j' ∈ js, Meddled deeds mode j'.left.tree j'.right.tree := by
        simp [meddled]
      rw [same]
      refine ⟨?_, fun none => ?_⟩
      · rw [List.forall_mem_cons, ← later.right_iff]
        exact and_iff_right (now.right_iff.mpr meddled)
      · obtain ⟨new', stores', clean', comesTo'⟩ := later.keeps none
        have all : deeds ++ inMode mode (new ++ new') =
            deeds ++ inMode mode new ++ inMode mode new' := by
          simp [inMode]
        refine ⟨new ++ new', stores.trans stores', all ▸ clean', fun z hz differ => ?_⟩
        rw [all]
        obtain ⟨j', hj', comes⟩ := hz
        rcases List.mem_cons.mp hj' with rfl | hj'
        · exact (comesTo z comes differ).append _
        · exact comesTo' z ⟨j', hj', comes⟩ differ

/-- Where the modes differ, a computed merge comes to its own pair and to what the merges below come
    to. -/
theorem Joined.comes {js : List Junction} (joined : Joined mode a b s js m s') (ha : a ∈ g)
    (hb : b ∈ g) {z : Sym2 Tree} (comes : Tree.Comes mode a.tree b.tree z)
    (differ : Tree.ModesDiffer z) :
    z = s(a.tree, b.tree) ∨ ∃ j ∈ js, Tree.Comes mode j.left.tree j.right.tree z := by
  cases comes with
  | here => exact .inl rfl
  | under meet comes =>
    rw [slots_tree, slots_tree, Slot.meet_map] at meet
    obtain ⟨p, q, meet, rfl, rfl⟩ := meet
    have hp := Graph.parent_mem ha meet.mem_parents.1
    have hq := Graph.parent_mem hb meet.mem_parents.2
    rcases joined.covers p q meet with same | ⟨m, hj⟩
    · rw [Graph.eq_of_same hp hq same] at comes
      exact absurd differ (comes.not_modesDiffer_self (Graph.proper_tree hq))
    · exact .inr ⟨_, hj, comes⟩

/-- A merge that the memo knows is right when the entry is of its mode, or the modes do not differ. -/
theorem outcome_known (ha : a ∈ g) (hb : b ∈ g) (hs : (MemoUpkeep.table mode).toUpkeep.At g s)
    (records : Records deeds s.table) (asks : atOnce? mode a b = none)
    (known : Memo.known? s.table a b = some m) (alike : s.Alike s') :
    Outcome mode deeds s s' (m.tree = Tree.merge mode a.tree b.tree)
      (Meddled deeds mode a.tree b.tree) (Tree.Comes mode a.tree b.tree) := by
  have pa := Graph.proper_tree ha
  have pb := Graph.proper_tree hb
  obtain ⟨e, he, rfl, pair⟩ := MergeTable.Over.exists_known hs.2 ha hb known
  rw [← records.entries] at he
  obtain ⟨d, hd, rfl⟩ := List.mem_map.mp he
  have right : d.2.2.tree = Tree.merge d.1 a.tree b.tree :=
    (records.undisturbed.right d hd).trans (Tree.merge_congr pa pb pair.symm).symm
  by_cases own : d.1 = mode
  · subst own
    -- the entry comes to what the merge comes to, and its own mode was there first
    have covers (z) (comes : Tree.Comes d.1 a.tree b.tree z) (differ : Tree.ModesDiffer z) :
        Covered deeds d.1 z :=
      records.undisturbed.covers d hd z (comes.congr pair.symm) differ
    refine ⟨iff_of_true right ?_, fun _ => ⟨[], .of_alike alike, ?_, ?_⟩⟩
    · rintro ⟨z, comes, differ, d', hd', ne, pair'⟩
      obtain ⟨d'', hd'', same, pair''⟩ := covers z comes differ
      obtain rfl := records.eq_of_pair hd' hd'' (pair'.trans pair''.symm)
      exact ne same
    · simpa [inMode] using records.undisturbed
    · exact fun z comes differ => (covers z comes differ).append _
  · rw [right]
    by_cases differ : Tree.ModesDiffer s(a.tree, b.tree)
    · have meddled : Meddled deeds mode a.tree b.tree :=
        ⟨_, .here (not_atOnce asks), differ, d, hd, own, pair⟩
      exact ⟨iff_of_false ((Tree.modesDiffer_iff_of_ne pa pb own).mp differ) (absurd meddled),
        absurd meddled⟩
    · have alike_modes := not_not.mp (mt (Tree.modesDiffer_iff_of_ne pa pb own).mpr differ)
      exact .idle alike records.undisturbed alike_modes fun z comes differ' =>
        differ (comes.modesDiffer pa pb differ')

/-- What meddles with a merge that is computed meddles with one below. -/
theorem Joined.meddled_iff {js : List Junction} (joined : Joined mode a b s js m s') (ha : a ∈ g)
    (hb : b ∈ g) (new : ∀ d ∈ deeds, Entry.pair d.2 ≠ s(a.tree, b.tree)) :
    Meddled deeds mode a.tree b.tree ↔
      ∃ j ∈ js, Meddled deeds mode j.left.tree j.right.tree := by
  constructor
  · rintro ⟨z, comes, differ, d, hd, ne, pair⟩
    rcases joined.comes ha hb comes differ with rfl | ⟨j, hj, comes⟩
    · exact absurd pair (new d hd)
    · exact ⟨j, hj, z, comes, differ, d, hd, ne, pair⟩
  · rintro ⟨j, hj, meddled⟩
    refine meddled.under ?_
    rw [slots_tree, slots_tree, Slot.meet_map]
    exact ⟨_, _, joined.meets j hj, rfl, rfl⟩

/-- A merge that is computed is right when those below are, and then it is one more entry. -/
theorem outcome_computed {js : List Junction} {s₁ : Arena MergeTable} (ha : a ∈ g) (hb : b ∈ g)
    (hs : (MemoUpkeep.table mode).toUpkeep.At g s) (records : Records deeds s.table)
    (unknown : Memo.known? s.table a b = none) (joined : Joined mode a b (s.asked a b) js m s₁)
    {new : List Entry} (stores : Stores s s' new)
    (e : s' = ⟨s₁.next, s₁.journal.push (.stored a b m), Memo.store s₁.table a b m⟩)
    (each : ∀ j ∈ js, MergeOutcome mode j.left j.right j.merged) :
    Outcome mode deeds s s' (m.tree = Tree.merge mode a.tree b.tree)
      (Meddled deeds mode a.tree b.tree) (Tree.Comes mode a.tree b.tree) := by
  obtain ⟨s₂, turns, alike⟩ := joined.turns
  have asked : (MemoUpkeep.table mode).toUpkeep.At g (s.asked a b) := hs
  have below := turns.outcome asked (joined.mem ha hb) records each
  have absent : ∀ d ∈ deeds, Entry.pair d.2 ≠ s(a.tree, b.tree) := fun d hd pair =>
    have stored : d.2 ∈ s.table.entries := records.entries ▸ List.mem_map_of_mem hd
    (MergeTable.Over.known?_eq_none_iff hs.2 ha hb).mp unknown
      (MergeTable.mem_pairs.mpr ⟨d.2, stored, pair⟩)
  rw [joined.meddled_iff ha hb absent]
  refine ⟨joined.right_iff.trans below.right_iff, fun none => ?_⟩
  obtain ⟨new', stores', clean, comesTo⟩ := below.keeps none
  have right := joined.right_iff.mpr (below.right_iff.mpr none)
  -- the journal tells what the memo was given
  have all : new = new' ++ [((a, b), m)] := by
    have before : s₁.storings = s.storings ++ new' := by
      rw [alike.storings_eq, stores'.storings_eq, (s.alike_asked a b).storings_eq]
    have given : s'.storings = s.storings ++ (new' ++ [((a, b), m)]) := by
      rw [e, Arena.storings_push, ← List.append_assoc, ← before]
      rfl
    exact List.append_cancel_left (stores.storings_eq.symm.trans given)
  have deeds_eq : deeds ++ inMode mode new = deeds ++ inMode mode new' ++ [(mode, ((a, b), m))] := by
    simp [all, inMode]
  have covers (z) (comes : Tree.Comes mode a.tree b.tree z) (differ : Tree.ModesDiffer z) :
      Covered (deeds ++ inMode mode new' ++ [(mode, ((a, b), m))]) mode z := by
    rcases joined.comes ha hb comes differ with rfl | below
    · exact ⟨_, List.mem_append_right _ List.mem_cons_self, rfl, rfl⟩
    · exact (comesTo z below differ).append _
  exact ⟨new, stores, deeds_eq ▸ clean.add right covers, deeds_eq ▸ covers⟩

/-- **A merge is right exactly when nothing meddles with it**, and then the memo stays undisturbed. -/
theorem outcome_merge (mode : Mode) (a b m : Node) : MergeOutcome mode a b m := by
  induction a using Node.induction generalizing b m with
  | step a ih =>
    intro g s s' deeds hs ha hb records run
    cases merge_ok hs ha hb run with
    | atOnce h e =>
      obtain ⟨right, none⟩ := right_of_atOnce ha hb h
      exact .idle (e ▸ .refl s) records.undisturbed right none
    | known asks known alike => exact outcome_known ha hb hs records asks known alike
    | computed _ unknown joined e =>
      obtain ⟨new, stores, _⟩ := stores_merge hs ha hb run
      exact outcome_computed ha hb hs records unknown joined stores e fun j hj =>
        ih j.left (joined.meets j hj).mem_parents.1 j.right j.merged

end StackGraph
