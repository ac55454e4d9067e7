import StackGraph.Merge.Basic
import StackGraph.Proofs.FineNodes
import StackGraph.Proofs.Tables

/-!
# Merging with any memo

Merging fine nodes never fails and gives a fine node, whatever the memo answers, as long as it
answers with fine nodes. In particular the list that two slot lists are woven into is always one that
a node can be made of: it ascends, nothing but the bottom state has nothing below, and it is no
shorter than either of the two.

* `FineMemo` -- a memo that answers with fine nodes; `FineMemo.nothing`, `FineMemo.table` and
  `FineMemo.stubborn` are such;
* `FineUnion` -- what a list satisfies that two lists were woven into;
* `Maintains.weave` -- weaving, slot by slot;
* `Maintains.merge` -- **merging never fails**, by induction on the left node.
-/

namespace StackGraph

open Node

variable {μ : Type} {plain : Prop} {fine : μ → Prop} {mode : Mode} {a b m : Node}

/-! ## 1. Weaving -/

/-- A fine node beside an operation that never fails and gives fine nodes. -/
structure FineJoin (plain : Prop) (fine : μ → Prop) (p : Mergeable μ) : Prop where
  node : p.node.Fine plain
  join : ∀ q, q.Fine plain → Maintains False fine (p.join q) fun m => m.Fine plain

/-- What the list satisfies that two ascending lists of these states were woven into. -/
structure FineUnion (plain : Prop) (xs ys : List State) (woven : List (Slot Node)) : Prop where
  ascending : Slot.Ascending woven
  states : ∀ x ∈ Slot.states woven, x ∈ xs ∨ x ∈ ys
  slots : ∀ s ∈ woven, FineSlot plain s
  left_le : xs.length ≤ woven.length
  right_le : ys.length ≤ woven.length

/-- A slot in front of all others is one more state of either list or of both. -/
theorem FineUnion.cons {xs ys xs' ys' : List State} {woven : List (Slot Node)} {s : Slot Node}
    (h : FineUnion plain xs ys woven) (hs : FineSlot plain s)
    (before : ∀ x, x ∈ xs ∨ x ∈ ys → s.state < x) (first : s.state ∈ xs' ∨ s.state ∈ ys')
    (hx : xs ⊆ xs') (hy : ys ⊆ ys') (lx : xs'.length ≤ xs.length + 1)
    (ly : ys'.length ≤ ys.length + 1) : FineUnion plain xs' ys' (s :: woven) where
  ascending := Slot.ascending_cons.mpr ⟨fun x hx => before x (h.states x hx), h.ascending⟩
  states x hx' := by
    rcases List.mem_cons.mp hx' with rfl | hx'
    · exact first
    · exact (h.states x hx').imp (hx ·) (hy ·)
  slots := List.forall_mem_cons.mpr ⟨hs, h.slots⟩
  left_le := lx.trans (Nat.succ_le_succ h.left_le)
  right_le := ly.trans (Nat.succ_le_succ h.right_le)

namespace Maintains

theorem joinParents {p : Option (Mergeable μ)} {q : Option Node} {x : State}
    (hp : FineSlot plain ⟨x, p.map Mergeable.node⟩) (hj : ∀ p', p = some p' → FineJoin plain fine p')
    (hq : FineSlot plain ⟨x, q⟩) :
    Maintains False fine (StackGraph.joinParents p q) fun r => FineSlot plain ⟨x, r⟩ := by
  cases p with
  | none => exact .pure hq
  | some p' =>
    cases q with
    | none => exact .pure hp
    | some q' =>
      by_cases same : p'.node.same q' = true
      · simp only [StackGraph.joinParents, if_pos same]
        exact .pure hp
      · simp only [StackGraph.joinParents, if_neg same]
        refine .map (((hj p' rfl).join q' (hq.below q' rfl)).weaken fun m hm => ?_)
        exact hp.replace rfl fun n e => Option.some.inj e ▸ hm

/-- A slot is put in its place among fine slots. -/
theorem place {s : Slot (Mergeable μ)} {rest : List (Slot Node) → GraphM μ (List (Slot Node))}
    {xs : List State} {right : List (Slot Node)} (hs : FineSlot plain (Mergeable.slot s))
    (hj : ∀ p, s.parent = some p → FineJoin plain fine p) (before : ∀ x ∈ xs, s.state < x)
    (hrest : ∀ right, Slot.Ascending right → (∀ t ∈ right, FineSlot plain t) →
      Maintains False fine (rest right) (FineUnion plain xs (Slot.states right)))
    (asc : Slot.Ascending right) (hr : ∀ t ∈ right, FineSlot plain t) :
    Maintains False fine (StackGraph.place s rest right)
      (FineUnion plain (s.state :: xs) (Slot.states right)) := by
  induction right with
  | nil =>
    refine .map ((hrest [] asc hr).weaken fun woven h => ?_)
    exact h.cons hs (fun x hx => before x (hx.resolve_right List.not_mem_nil))
      (.inl List.mem_cons_self) (List.subset_cons_self _ _) (List.Subset.refl _) (Nat.le_refl _)
      (Nat.le_succ _)
  | cons t right ih =>
    obtain ⟨after, asc'⟩ := Slot.ascending_cons.mp asc
    obtain ⟨ht, hr'⟩ := List.forall_mem_cons.mp hr
    unfold StackGraph.place
    by_cases lt : t.state < s.state
    · rw [if_pos lt]
      refine .map ((ih asc' hr').weaken fun woven h => ?_)
      refine h.cons ht (fun x hx => ?_) (.inr List.mem_cons_self) (List.Subset.refl _)
        (List.subset_cons_self _ _) (Nat.le_succ _) (Nat.le_refl _)
      rcases hx with hx | hx
      · rcases List.mem_cons.mp hx with rfl | hx
        · exact lt
        · exact UInt64.lt_trans lt (before x hx)
      · exact after x hx
    · rw [if_neg lt]
      by_cases e : t.state = s.state
      · rw [if_pos e]
        have ht' : FineSlot plain ⟨s.state, t.parent⟩ := e ▸ ht
        refine (joinParents hs hj ht').bind fun r hr'' => .map ?_
        refine (hrest right asc' hr').weaken fun woven h => ?_
        exact h.cons hr'' (fun x hx => hx.elim (before x) fun hx => e ▸ after x hx)
          (.inl List.mem_cons_self) (List.subset_cons_self _ _) (List.subset_cons_self _ _)
          (Nat.le_refl _) (Nat.le_refl _)
      · rw [if_neg e]
        have gt : s.state < t.state := (UInt64.lt_or_lt_of_ne e).resolve_left lt
        refine .map ((hrest _ asc hr).weaken fun woven h => ?_)
        refine h.cons hs (fun x hx => ?_) (.inl List.mem_cons_self) (List.subset_cons_self _ _)
          (List.Subset.refl _) (Nat.le_refl _) (Nat.le_succ _)
        rcases hx with hx | hx
        · exact before x hx
        · rcases List.mem_cons.mp hx with rfl | hx
          · exact gt
          · exact UInt64.lt_trans gt (after x hx)

/-- **Weaving fine slots never fails**, and what comes of it is a list that a node can have. -/
theorem weave {left : List (Slot (Mergeable μ))} {right : List (Slot Node)}
    (hl : ∀ s ∈ left, FineSlot plain (Mergeable.slot s))
    (hj : ∀ s ∈ left, ∀ p, s.parent = some p → FineJoin plain fine p)
    (ascl : Slot.Ascending left) (ascr : Slot.Ascending right)
    (hr : ∀ t ∈ right, FineSlot plain t) :
    Maintains False fine (StackGraph.weave left right)
      (FineUnion plain (Slot.states left) (Slot.states right)) := by
  induction left generalizing right with
  | nil => exact .pure ⟨ascr, fun x hx => .inr hx, hr, Nat.zero_le _, by simp [Slot.states]⟩
  | cons s left ih =>
    obtain ⟨before, ascl'⟩ := Slot.ascending_cons.mp ascl
    obtain ⟨hs, hl'⟩ := List.forall_mem_cons.mp hl
    obtain ⟨hjs, hj'⟩ := List.forall_mem_cons.mp hj
    exact place hs hjs before (fun right ascr hr => ih hl' hj' ascl' ascr hr) ascr hr

end Maintains

/-! ## 2. The three ways to merge -/

/-- The earliest equal node is fine when all are. -/
theorem fine_earliest {nodes : List Node} (h : ∀ n ∈ nodes, n.Fine plain) {n : Node}
    (hn : n.Fine plain) : (earliest nodes n).Fine plain := by
  unfold earliest
  cases found : nodes.find? (· == n) with
  | none => exact hn
  | some m => exact h m (List.mem_of_find?_eq_some found)

/-- Joining equal nodes below fine slots leaves fine slots. -/
theorem fineSlot_coalesce {woven : List (Slot Node)} (h : ∀ s ∈ woven, FineSlot plain s) :
    ∀ s ∈ coalesce woven, FineSlot plain s := by
  have below : ∀ n ∈ Slot.parents woven, n.Fine plain := fun n hn => by
    obtain ⟨s, hs, e⟩ := Slot.mem_parents.mp hn
    exact (h s hs).below n e
  intro t ht
  obtain ⟨s, hs, rfl⟩ := List.mem_map.mp ht
  refine (h s hs).replace (Slot.map_map _ _ s) fun p hp => ?_
  obtain ⟨n, hn, rfl⟩ := Option.map_eq_some_iff.mp hp
  exact fine_earliest below ((h s hs).below n hn)

/-- What a merge reuses is an operand or the merged node. -/
theorem fine_reuse (ha : a.Fine plain) (hb : b.Fine plain) (hm : m.Fine plain) :
    (reuse a b m).Fine plain := by
  unfold reuse
  split
  · exact ha
  · split
    · exact hb
    · exact hm

namespace Maintains

/-- Two nodes, one of them a choice, are merged slot by slot. -/
theorem joinSlots {slots : List (Slot (Mergeable μ))} (ha : a.Fine plain) (hb : b.Fine plain)
    (hs : slots.map Mergeable.slot = a.slots)
    (hj : ∀ s ∈ slots, ∀ p, s.parent = some p → FineJoin plain fine p)
    (two : 2 ≤ a.slots.length ∨ 2 ≤ b.slots.length) :
    Maintains False fine (StackGraph.joinSlots a b slots) fun m => m.Fine plain := by
  have states : Slot.states slots = Slot.states a.slots := by
    rw [← hs]
    simp [Slot.states, Mergeable.slot, Function.comp_def]
  have asc : Slot.Ascending slots := by
    unfold Slot.Ascending
    rw [states]
    exact ha.ascending
  have left : ∀ s ∈ slots, FineSlot plain (Mergeable.slot s) := fun s h =>
    ha.slot (hs ▸ List.mem_map_of_mem h)
  unfold StackGraph.joinSlots
  refine (weave left hj asc hb.ascending fun _ => hb.slot).bind fun woven h => ?_
  have long : 2 ≤ woven.length := by
    have l := h.left_le
    have r := h.right_le
    rw [states] at l
    simp only [Slot.states, List.length_map] at l r
    omega
  have normal : NormalSlots (coalesce woven) := by
    have proper : NormalSlots woven :=
      Tree.ProperSlots.normal ⟨long, h.ascending, fun s hs => (h.slots s hs).no_orphan⟩
    exact (normalSlots_map _).mpr proper
  refine (ofNormal normal (fineSlot_coalesce h.slots)).bind fun m hm => ?_
  exact (emit _).bind fun _ _ => .pure (fine_reuse ha hb hm)

/-- A frame is kept beside the end of a stack. -/
theorem frameAndEnd {i : Nat} {k : Key} {x : State} {p : Node} (h : (frame i k x p).Fine plain) :
    Maintains False fine (Node.ofSlots [⟨x, some p⟩, ⟨State.bottom, none⟩])
      fun m => m.Fine plain :=
  ofPair (Tree.lt_bottom h.sound.1) (h.slot List.mem_cons_self) .atEnd

/-- A bottom is merged with a bottom or a frame. -/
theorem joinRoots (ha : a.Fine plain) (hb : b.Fine plain) (ka : a.kind ≠ .choice)
    (kb : b.kind ≠ .choice) :
    Maintains False fine (StackGraph.joinRoots mode a b) fun m => m.Fine plain := by
  unfold StackGraph.joinRoots
  refine (emit _).bind fun _ _ => ?_
  cases mode with
  | wildcard => exact .pure fine_empty
  | exact =>
    cases a with
    | choice i k slots => exact absurd rfl ka
    | frame i k x p => exact frameAndEnd ha
    | bottom i =>
      cases b with
      | choice j k slots => exact absurd rfl kb
      | bottom j => exact .pure fine_empty
      | frame j k y q => exact frameAndEnd hb

/-- Two frames are merged. -/
theorem joinFrames {i j : Nat} {k k' : Key} {x y : State} {p : Mergeable μ} {q : Node}
    (ha : (frame i k x p.node).Fine plain) (hb : (frame j k' y q).Fine plain)
    (hp : FineJoin plain fine p) :
    Maintains False fine (StackGraph.joinFrames (.frame i k x p.node) x p (.frame j k' y q) y q)
      fun m => m.Fine plain := by
  have sa := ha.slot List.mem_cons_self
  have sb := hb.slot List.mem_cons_self
  unfold StackGraph.joinFrames
  by_cases e : x = y
  · rw [if_pos e]
    refine (hp.join q (sb.below q rfl)).bind fun m hm => ?_
    by_cases ep : (m == p.node) = true
    · rw [if_pos ep]
      exact .pure ha
    · rw [if_neg ep]
      by_cases eq : (m == q) = true
      · rw [if_pos eq]
        exact .pure hb
      · rw [if_neg eq]
        exact (push hm x).mayFailFor fun h => ha.sound.1 h.1
  · rw [if_neg e]
    by_cases lt : x < y
    · rw [if_pos lt]
      exact ofPair lt sa sb
    · rw [if_neg lt]
      exact ofPair ((UInt64.lt_or_lt_of_ne e).resolve_left lt) sb sa

end Maintains

/-! ## 3. Memos -/

variable [Memo μ]

/-- Where the memo is fine it answers with fine nodes, and storing the merge of fine nodes keeps it
    so. -/
structure FineMemo (plain : Prop) (fine : μ → Prop) : Prop where
  find? : ∀ {t : μ} {a b m : Node}, fine t → a.Fine plain → b.Fine plain →
    Memo.find? t a b = some m → m.Fine plain
  store : ∀ {t : μ} {a b m : Node}, fine t → a.Fine plain → b.Fine plain → m.Fine plain →
    fine (Memo.store t a b m)

namespace Maintains

theorem ask (memo : FineMemo plain fine) (ha : a.Fine plain) (hb : b.Fine plain) :
    Maintains False fine (StackGraph.ask a b) fun found => ∀ m, found = some m → m.Fine plain := by
  unfold StackGraph.ask
  exact table.bind fun t ht => (emit _).bind fun _ _ => .pure fun m h => memo.find? ht ha hb h

theorem lookUp (memo : FineMemo plain fine) (ha : a.Fine plain) (hb : b.Fine plain) :
    Maintains False fine (StackGraph.lookUp a b)
      fun found => ∀ m, found = some m → m.Fine plain := by
  unfold StackGraph.lookUp
  have report : ∀ found : Option Node, (∀ m, found = some m → m.Fine plain) →
      Maintains False fine
        (if found.isSome = true then do
          GraphM.emit (.memoHit a.key b.key)
          pure found
        else pure found)
        fun found => ∀ m, found = some m → m.Fine plain := by
    intro found h
    split
    · exact (emit _).bind fun _ _ => .pure h
    · exact .pure h
  refine (ask memo ha hb).bind fun found h => ?_
  cases found with
  | some merged => exact (Maintains.pure h).bind fun found' h' => report found' h'
  | none => exact (ask memo hb ha).bind fun found' h' => report found' h'

theorem memoized (memo : FineMemo plain fine) (ha : a.Fine plain) (hb : b.Fine plain)
    {compute : GraphM μ Node} (h : Maintains False fine compute fun m => m.Fine plain) :
    Maintains False fine (StackGraph.memoized a b compute) fun m => m.Fine plain := by
  unfold StackGraph.memoized
  refine (lookUp memo ha hb).bind fun found hf => ?_
  cases found with
  | some merged => exact .pure (hf merged rfl)
  | none =>
    refine h.bind fun merged hm => ?_
    have stored : Maintains False fine (remember a b merged) fun _ => True :=
      (change fun t ht => memo.store ht ha hb hm).bind fun _ _ => emit _
    exact stored.bind fun _ _ => .pure hm

/-! ## 4. Merging -/

variable (memo : FineMemo plain fine)

include memo

theorem mergeBottom {i : Nat} (hb : b.Fine plain) :
    Maintains False fine (StackGraph.mergeBottom mode (.bottom i) b) fun m => m.Fine plain := by
  have ha : (bottom i).Fine plain := fine_bottom i
  unfold StackGraph.mergeBottom
  by_cases same : (bottom i).same b = true
  · rw [if_pos same]
    exact .pure ha
  · rw [if_neg same]
    cases b with
    | bottom j => exact memoized memo ha hb (joinRoots ha hb nofun nofun)
    | frame j k y q => exact memoized memo ha hb (joinRoots ha hb nofun nofun)
    | choice j k slots =>
      cases mode with
      | wildcard => exact .pure ha
      | exact =>
        refine memoized memo ha hb (joinSlots ha hb rfl (fun s hs p hp => ?_) (.inr hb.sound.1))
        rw [List.mem_singleton.mp hs] at hp
        cases hp

theorem mergeFrame {i : Nat} {k : Key} {x : State} {p : Mergeable μ}
    (ha : (frame i k x p.node).Fine plain) (hb : b.Fine plain) (hp : FineJoin plain fine p) :
    Maintains False fine (StackGraph.mergeFrame mode (.frame i k x p.node) x p b)
      fun m => m.Fine plain := by
  unfold StackGraph.mergeFrame
  by_cases same : (frame i k x p.node).same b = true
  · rw [if_pos same]
    exact .pure ha
  · rw [if_neg same]
    cases b with
    | bottom j => exact memoized memo ha hb (joinRoots ha hb nofun nofun)
    | frame j k' y q => exact memoized memo ha hb (joinFrames ha hb hp)
    | choice j k' slots =>
      refine memoized memo ha hb (joinSlots ha hb rfl (fun s hs p' hp' => ?_) (.inr hb.sound.1))
      rw [List.mem_singleton.mp hs] at hp'
      exact Option.some.inj hp' ▸ hp

theorem mergeChoice {i : Nat} {k : Key} {slots : List (Slot Node)}
    (ha : (choice i k slots).Fine plain) (hb : b.Fine plain)
    (hp : ∀ p ∈ Slot.parents slots, FineJoin plain fine (mergeable mode p)) :
    Maintains False fine
      (StackGraph.mergeChoice mode (.choice i k slots) (mergeables mode slots) b)
      fun m => m.Fine plain := by
  unfold StackGraph.mergeChoice
  by_cases same : (choice i k slots).same b = true
  · rw [if_pos same]
    exact .pure ha
  · rw [if_neg same]
    by_cases bot : b.isBottom = true ∧ mode = .wildcard
    · rw [if_pos bot]
      exact .pure hb
    · rw [if_neg bot]
      refine memoized memo ha hb
        (joinSlots ha hb (map_slot_mergeables mode slots) (fun s hs p e => ?_) (.inl ha.sound.1))
      rw [mergeables_eq_map] at hs
      obtain ⟨t, ht, rfl⟩ := List.mem_map.mp hs
      obtain ⟨q, hq, rfl⟩ := Option.map_eq_some_iff.mp e
      exact hp q (Slot.mem_parents.mpr ⟨t, ht, hq⟩)

/-- **Merging fine nodes never fails and gives a fine node**, whatever a fine memo answers. -/
theorem merge (ha : a.Fine plain) (hb : b.Fine plain) :
    Maintains False fine (StackGraph.merge mode a b) fun m => m.Fine plain := by
  induction a using Node.induction generalizing b with
  | step a ih =>
    have joins : ∀ p ∈ a.parents, FineJoin plain fine (mergeable mode p) := fun p hp =>
      ⟨ha.parent hp, fun q hq => ih p hp (ha.parent hp) hq⟩
    cases a with
    | bottom i => exact mergeBottom memo hb
    | frame i k x p => exact mergeFrame memo ha hb (joins p List.mem_cons_self)
    | choice i k slots => exact mergeChoice memo ha hb joins

/-- Merging a list of fine nodes never fails. -/
theorem mergeAll {nodes : List Node} (h : ∀ n ∈ nodes, n.Fine plain) :
    Maintains False fine (StackGraph.mergeAll mode nodes) fun m => m.Fine plain := by
  cases nodes with
  | nil => exact .pure fine_empty
  | cons first rest =>
    obtain ⟨hf, hr⟩ := List.forall_mem_cons.mp h
    exact foldlM (fun m hm n hn => merge memo hm (hr n hn)) hf

end Maintains

/-! ## 5. Kinds of memos -/

/-- A memo that remembers nothing is fine. -/
theorem FineMemo.nothing : FineMemo plain fun _ : Unit => True :=
  ⟨fun _ _ _ found => absurd found (by simp [Memo.find?]), fun _ _ _ _ => trivial⟩

/-- A memo that has one answer to every question and stores nothing. -/
structure Stubborn where
  answer : Node

instance : Memo Stubborn where
  find? t _ _ := some t.answer
  store t _ _ _ := t

/-- A stubborn memo is fine when its answer is. -/
theorem FineMemo.stubborn : FineMemo plain fun t : Stubborn => t.answer.Fine plain :=
  ⟨fun ht _ _ found => Option.some.inj found ▸ ht, fun ht _ _ _ => ht⟩

/-- A table of fine nodes. -/
def MergeTable.Fine (plain : Prop) (t : MergeTable) : Prop :=
  t.Every fun pair m => (pair.1.Fine plain ∧ pair.2.Fine plain) ∧ m.Fine plain

theorem MergeTable.fine_empty : MergeTable.Fine plain .empty := Table.every_empty

theorem MergeTable.Fine.find? {t : MergeTable} (h : MergeTable.Fine plain t)
    (found : Memo.find? t a b = some m) : m.Fine plain :=
  let ⟨_, _, hm⟩ := Table.Every.find? h found
  hm.2

theorem MergeTable.Fine.store {t : MergeTable} (h : MergeTable.Fine plain t) (ha : a.Fine plain)
    (hb : b.Fine plain) (hm : m.Fine plain) : MergeTable.Fine plain (Memo.store t a b m) :=
  h.insert ⟨⟨ha, hb⟩, hm⟩ fun _ _ _ old => ⟨old.1, hm⟩

/-- A table of fine nodes answers with fine nodes, whether they are merges or not. -/
theorem FineMemo.table : FineMemo plain (MergeTable.Fine plain) :=
  ⟨fun h _ _ found => h.find? found, fun h ha hb hm => h.store ha hb hm⟩

end StackGraph
