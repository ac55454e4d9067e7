import Mathlib.Data.Set.Function
import StackGraph.Proofs.DiagramText
import StackGraph.Proofs.Discovery

/-!
# A diagram is a graph up to names

The identities of nodes do not show in a diagram. Two diagrams have the same text when the nodes
below the one are those below the other by other names, and only then: the walk that numbers the
nodes goes by kinds, states and sharing alone; and the labels and arrows tell for every vertex which
kind of node it is, which states it has, and at which of its slots which vertex lies below.

* `Node.Renames` -- the same graph by other names;
* `Graph.discover_renamed`, `Graph.diagram_renamed` -- **the diagram does not depend on names**;
* `Graph.bijOn_positionIn`, `Graph.labels_diagram`, `Graph.mem_arrows_diagram` -- what a diagram
  shows: one vertex for each node, and one arrow for each slot with a node below;
* `Graph.renames_counterpart` -- **the diagram tells the graph**;
* `Session.dot_eq_iff_renames` -- **diagrams in a session**.
-/

namespace StackGraph

namespace Node

variable {a b m n p : Node} {f : Node → Node} {k : Nat} {nodes pending found result : List Node}

/-- The function `f` maps the nodes that can be reached from `a` to those that can be reached from
    `b`, each to a node of its own, and only names are changed: `a` becomes `b`, and a node becomes
    one of the same kind, with the same states and, at each slot, nothing below when nothing was
    below and else what the node below becomes. -/
structure Renames (f : Node → Node) (a b : Node) : Prop where
  top : f a = b
  bij : Set.BijOn f {m | Reaches a m} {m | Reaches b m}
  kind : ∀ m, Reaches a m → (f m).kind = m.kind
  slots : ∀ m, Reaches a m → (f m).slots = m.slots.map (Slot.map f)

/-! ## 1. The diagram does not depend on names -/

theorem parents_of_slots_eq (h : n.slots = m.slots.map (Slot.map f)) :
    n.parents = m.parents.map f := by
  rw [parents, h, parents, Slot.parents, Slot.parents, List.filterMap_map, List.map_filterMap]
  rfl

/-- The vertices of a diagram are numbered as the recursive walk comes to them. -/
theorem diagram_eq_preorder (n : Node) :
    n.diagram = ⟨n.preorder.map label, n.preorder.flatMap (arrows n.preorder)⟩ := by
  rw [diagram, discover_eq_preorder]

end Node

namespace Graph

open Node

variable {g g' : Graph} {a b m n p : Node} {f : Node → Node} {k : Nat}
  {nodes pending found result : List Node}

section Renamed

variable (hb : b ∈ g') (ha : a ∈ g) (h : Renames f a b)

include hb ha h

theorem same_renamed (rm : Reaches a m) (rn : Reaches a n) : (f m).same (f n) = m.same n := by
  rw [Bool.eq_iff_iff]
  constructor
  · intro same
    have hm := mem_of_reaches hb (h.bij.mapsTo rm)
    have hn := mem_of_reaches hb (h.bij.mapsTo rn)
    have one := eq_of_same hm hn same
    rw [h.bij.injOn rm rn one]
    exact same_refl n
  · intro same
    rw [eq_of_same (mem_of_reaches ha rm) (mem_of_reaches ha rn) same]
    exact same_refl (f n)

theorem isAmong_renamed (rn : Reaches a n) (hf : ∀ m ∈ found, Reaches a m) :
    (f n).isAmong (found.map f) = n.isAmong found := by
  induction found with
  | nil => rfl
  | cons m found ih =>
    obtain ⟨rm, hf⟩ := List.forall_mem_cons.mp hf
    have rest := ih hf
    simp only [isAmong, List.map_cons, List.any_cons] at rest ⊢
    rw [rest, same_renamed hb ha h rm rn]

/-- The same node stands at the same position. -/
theorem positionIn_renamed (rn : Reaches a n) (hf : ∀ m ∈ nodes, Reaches a m) :
    (f n).positionIn (nodes.map f) = n.positionIn nodes := by
  induction nodes with
  | nil => rfl
  | cons m nodes ih =>
    obtain ⟨rm, hf⟩ := List.forall_mem_cons.mp hf
    have rest := ih hf
    simp only [positionIn, List.map_cons, List.findIdx_cons] at rest ⊢
    rw [rest, same_renamed hb ha h rm rn]

/-- **The loop finds the renamed nodes in the same order.** -/
theorem turns_renamed (turns : Turns k pending found result) (hp : ∀ n ∈ pending, Reaches a n)
    (hf : ∀ n ∈ found, Reaches a n) : Turns k (pending.map f) (found.map f) (result.map f) := by
  induction turns with
  | done found =>
    rw [List.map_reverse]
    exact .done (found.map f)
  | pass known _ ih =>
    obtain ⟨hn, hp⟩ := List.forall_mem_cons.mp hp
    rw [← isAmong_renamed hb ha h hn hf] at known
    exact .pass known (ih hp hf)
  | take new _ ih =>
    obtain ⟨hn, hp⟩ := List.forall_mem_cons.mp hp
    rw [← isAmong_renamed hb ha h hn hf] at new
    have rest := ih (List.forall_mem_append.mpr ⟨fun p hp => hn.parent hp, hp⟩)
      (List.forall_mem_cons.mpr ⟨hn, hf⟩)
    rw [List.map_append, ← parents_of_slots_eq (h.slots _ hn)] at rest
    exact .take new rest

/-- **The nodes are numbered alike.** -/
theorem discover_renamed : b.discover = a.discover.map f := by
  have turns := turns_renamed hb ha h (turns_discover a)
    (List.forall_mem_singleton.mpr (.refl a)) (fun _ mem => absurd mem List.not_mem_nil)
  rw [List.map_singleton, h.top] at turns
  exact turns.eq_discoverFrom.symm

theorem arrows_renamed (rn : Reaches a n) (hf : ∀ m ∈ nodes, Reaches a m) :
    arrows (nodes.map f) (f n) = arrows nodes n := by
  have slots : (f n).slots = n.slots.map (Slot.map f) := h.slots n rn
  have labels : ∀ index, (f n).slotLabel index = n.slotLabel index := by
    simp [slotLabel, size, slots]
  have each : ∀ s ∈ n.slots, ∀ index,
      arrow? (nodes.map f) (f n) (s.map f) index = arrow? nodes n s index := by
    intro s hs index
    cases e : s.parent with
    | none => simp [arrow?, e]
    | some p =>
      have below : Reaches a p := rn.parent (mem_parents_of_slot hs e)
      simp [arrow?, e, labels, positionIn_renamed hb ha h rn hf,
        positionIn_renamed hb ha h below hf]
  unfold arrows
  congr 1
  rw [slots]
  refine List.ext_getElem (by simp) fun i lt lt' => ?_
  simp at lt lt'
  simp [each _ (List.getElem_mem lt)]

/-- **The diagram does not depend on names.** -/
theorem diagram_renamed : b.diagram = a.diagram := by
  have order := discover_renamed hb ha h
  have inside : ∀ m ∈ a.discover, Reaches a m := fun m hm => reaches_of_mem_discover hm
  have labels : b.discover.map label = a.discover.map label := by
    rw [order, List.map_map]
    refine List.map_congr_left fun m hm => ?_
    refine label_eq (h.kind m (inside m hm)) ?_
    rw [states, h.slots m (inside m hm), Slot.states_map]
    rfl
  have arrows :
      b.discover.flatMap (arrows b.discover) = a.discover.flatMap (arrows a.discover) := by
    rw [order, List.flatMap_map]
    exact List.flatMap_congr fun m hm => arrows_renamed hb ha h (inside m hm) inside
  rw [diagram, diagram, labels, arrows]

end Renamed

/-! ## 2. What a diagram shows -/

section Shown

variable (ha : a ∈ g)

include ha

theorem getElem_positionIn_discover (r : Reaches a m) :
    ∃ h : m.positionIn a.discover < a.discover.length,
      a.discover[m.positionIn a.discover] = m :=
  getElem_positionIn (fun _ hn => mem_of_reaches ha (reaches_of_mem_discover hn))
    ((mem_discover_iff ha).mpr r)

/-- Every number below the number of nodes is that of a node. -/
theorem positionIn_getElem_discover (lt : k < a.discover.length) :
    (a.discover[k]).positionIn a.discover = k := by
  have r : Reaches a a.discover[k] := reaches_of_mem_discover (List.getElem_mem lt)
  obtain ⟨lt', e⟩ := getElem_positionIn_discover ha r
  have once : a.discover.Nodup := (nodup_discover a).of_map
  exact (once.getElem_inj_iff).mp e

theorem positionIn_inj (rm : Reaches a m) (rn : Reaches a n)
    (h : m.positionIn a.discover = n.positionIn a.discover) : m = n := by
  obtain ⟨lt, e⟩ := getElem_positionIn_discover ha rm
  obtain ⟨lt', e'⟩ := getElem_positionIn_discover ha rn
  rw [← e, ← e']
  simp only [h]

/-- **There is one vertex for each node**, of whatever structure the nodes are. -/
theorem bijOn_positionIn :
    Set.BijOn (fun m => m.positionIn a.discover) {m | Reaches a m}
      (Set.Iio a.diagram.labels.length) := by
  have vertices : a.diagram.labels.length = a.discover.length := List.length_map label
  rw [vertices]
  refine ⟨fun m r => (getElem_positionIn_discover ha r).1,
    fun m rm n rn h => positionIn_inj ha rm rn h, fun k lt => ?_⟩
  exact ⟨a.discover[k], reaches_of_mem_discover (List.getElem_mem lt),
    positionIn_getElem_discover ha lt⟩

/-- The vertex of a node has the label of the node. -/
theorem labels_diagram (r : Reaches a m) :
    a.diagram.labels[m.positionIn a.discover]? = some m.label := by
  obtain ⟨lt, e⟩ := getElem_positionIn_discover ha r
  have found : a.discover[m.positionIn a.discover]? = some m :=
    (List.getElem?_eq_getElem lt).trans (congrArg some e)
  simp [diagram, found]

/-- **There is an arrow for each slot with a node below.** -/
theorem mem_arrows_diagram {x : Arrow} :
    x ∈ a.diagram.arrows ↔ ∃ m i s p, Reaches a m ∧ m.slots[i]? = some s ∧ s.parent = some p ∧
      x = ⟨m.positionIn a.discover, p.positionIn a.discover, m.slotLabel i⟩ := by
  have of_node : ∀ m, x ∈ arrows a.discover m ↔ ∃ i s p, m.slots[i]? = some s ∧
      s.parent = some p ∧
      x = ⟨m.positionIn a.discover, p.positionIn a.discover, m.slotLabel i⟩ := by
    intro m
    simp only [arrows, List.mem_filterMap, List.mem_mapIdx, arrow?, exists_eq_right,
      Option.map_eq_some_iff]
    constructor
    · intro ⟨i, lt, p, hp, e⟩
      exact ⟨i, m.slots[i], p, List.getElem?_eq_getElem lt, hp, e.symm⟩
    · intro ⟨i, s, p, hs, hp, e⟩
      obtain ⟨lt, hs⟩ := List.getElem?_eq_some_iff.mp hs
      exact ⟨i, lt, p, hs ▸ hp, e.symm⟩
  simp only [diagram, List.mem_flatMap, of_node, mem_discover_iff ha]
  constructor
  · intro ⟨m, r, i, s, p, rest⟩
    exact ⟨m, i, s, p, r, rest⟩
  · intro ⟨m, i, s, p, r, rest⟩
    exact ⟨m, r, i, s, p, rest⟩

/-- The labels of a diagram have no line break and no `>`. -/
theorem plain_diagram : a.diagram.Plain := by
  constructor
  · intro text mem
    obtain ⟨m, hm, e⟩ := List.mem_map.mp mem
    have sound := g.sound (mem_of_reaches ha (reaches_of_mem_discover hm))
    rw [← e]
    exact ⟨fun hc => (sound.inLabel hc).ne.1 rfl, fun hc => (sound.inLabel hc).ne.2 rfl⟩
  · intro x mem
    obtain ⟨m, i, s, p, _, _, _, e⟩ := (mem_arrows_diagram ha).mp mem
    rw [e]
    show '\n' ∉ (m.slotLabel i).toList
    rw [toList_slotLabel]
    split
    · exact not_mem_digits rfl
    · exact List.not_mem_nil

end Shown

/-! ## 3. The diagram tells the graph -/

/-- The node below `b` that has the number of a node below `a`. -/
def counterpart (a b m : Node) : Node := b.discover.getD (m.positionIn a.discover) b

theorem slotLabel_inj {i j : Nat} (size : m.size = n.size) (hi : i < m.size) (hj : j < n.size)
    (h : m.slotLabel i = n.slotLabel j) : i = j := by
  have chars := congrArg String.toList h
  rw [toList_slotLabel, toList_slotLabel, size] at chars
  by_cases several : 1 < n.size
  · rw [if_pos several, if_pos several] at chars
    exact digits_inj chars
  · omega

section Told

variable (ha : a ∈ g) (hb : b ∈ g') (h : a.diagram = b.diagram)

include ha hb h

omit ha hb in
theorem length_discover_eq : a.discover.length = b.discover.length := by
  have labels := congrArg (fun d => d.labels.length) h
  simpa [diagram] using labels

/-- The counterpart of a node has its number. -/
theorem counterpart_reached (r : Reaches a m) : Reaches b (counterpart a b m) ∧
    (counterpart a b m).positionIn b.discover = m.positionIn a.discover := by
  obtain ⟨lt, _⟩ := getElem_positionIn_discover ha r
  have lt' : m.positionIn a.discover < b.discover.length := by
    rw [← length_discover_eq h]
    exact lt
  have e : counterpart a b m = b.discover[m.positionIn a.discover] := by
    simp [counterpart, lt']
  rw [e]
  exact ⟨reaches_of_mem_discover (List.getElem_mem lt'), positionIn_getElem_discover hb lt'⟩

/-- Counterparts are counterparts of each other. -/
theorem counterpart_counterpart (r : Reaches a m) : counterpart b a (counterpart a b m) = m := by
  obtain ⟨lt, e⟩ := getElem_positionIn_discover ha r
  rw [counterpart, (counterpart_reached ha hb h r).2]
  simp [lt, e]

/-- The counterpart of a node has the same kind and the same states. -/
theorem kind_states_counterpart (r : Reaches a m) :
    (counterpart a b m).kind = m.kind ∧ (counterpart a b m).states = m.states := by
  obtain ⟨r', position⟩ := counterpart_reached ha hb h r
  have label := labels_diagram hb r'
  rw [← h, position, labels_diagram ha r] at label
  exact label_inj (g'.sound (mem_of_reaches hb r')) (g.sound (mem_of_reaches ha r))
    (Option.some.inj label).symm

theorem size_counterpart (r : Reaches a m) : (counterpart a b m).size = m.size := by
  have lengths := congrArg List.length (kind_states_counterpart ha hb h r).2
  simpa [states, Slot.states, size] using lengths

/-- **What lies below a slot has its counterpart below the same slot.** -/
theorem slot_counterpart (r : Reaches a m) {i : Nat} {s : Slot Node} (hs : m.slots[i]? = some s)
    (hp : s.parent = some p) :
    ∃ t, (counterpart a b m).slots[i]? = some t ∧ t.parent = some (counterpart a b p) := by
  obtain ⟨rm, position⟩ := counterpart_reached ha hb h r
  have below : Reaches a p := r.parent (mem_parents_of_slot (List.mem_of_getElem? hs) hp)
  obtain ⟨rp, position'⟩ := counterpart_reached ha hb h below
  -- the arrow of the slot is one of `b`: its ends tell the nodes, and its label tells the slot
  have shown := (mem_arrows_diagram ha).mpr ⟨m, i, s, p, r, hs, hp, rfl⟩
  rw [h] at shown
  obtain ⟨m', j, t, q, rm', ht, hq, e⟩ := (mem_arrows_diagram hb).mp shown
  obtain ⟨source, target, label⟩ := Arrow.mk.inj e
  have same : m' = counterpart a b m := positionIn_inj hb rm' rm (source.symm.trans position.symm)
  rw [same] at ht label
  have rq : Reaches b q := rm'.parent (by
    rw [same]
    exact mem_parents_of_slot (List.mem_of_getElem? ht) hq)
  have same' : q = counterpart a b p := positionIn_inj hb rq rp (target.symm.trans position'.symm)
  have index : i = j := slotLabel_inj (size_counterpart ha hb h r).symm
    (List.getElem?_eq_some_iff.mp hs).1 (List.getElem?_eq_some_iff.mp ht).1 label
  rw [index, ← same']
  exact ⟨t, ht, hq⟩

theorem slots_counterpart (r : Reaches a m) :
    (counterpart a b m).slots = m.slots.map (Slot.map (counterpart a b)) := by
  obtain ⟨rm, _⟩ := counterpart_reached ha hb h r
  have states := (kind_states_counterpart ha hb h r).2
  refine List.ext_getElem ?_ fun i lt lt' => ?_
  · rw [List.length_map]
    exact size_counterpart ha hb h r
  · rw [List.length_map] at lt'
    have hs : m.slots[i]? = some m.slots[i] := List.getElem?_eq_getElem lt'
    have ht : (counterpart a b m).slots[i]? = some (counterpart a b m).slots[i] :=
      List.getElem?_eq_getElem lt
    have state : (counterpart a b m).slots[i].state = m.slots[i].state := by
      have at_index := congrArg (·[i]?) states
      simp [Node.states, Slot.states, hs, ht] at at_index
      exact at_index
    have parent : (counterpart a b m).slots[i].parent =
        m.slots[i].parent.map (counterpart a b) := by
      cases hp : m.slots[i].parent with
      | some p =>
        obtain ⟨t, ht', hq⟩ := slot_counterpart ha hb h r hs hp
        rw [Option.some.inj (ht.symm.trans ht'), hq]
        rfl
      | none =>
        cases hq : (counterpart a b m).slots[i].parent with
        | none => rfl
        | some q =>
          -- a node below would have a counterpart below the slot of `m`
          obtain ⟨s, hs', hp'⟩ := slot_counterpart hb ha h.symm rm ht hq
          rw [counterpart_counterpart ha hb h r, hs] at hs'
          rw [← Option.some.inj hs', hp] at hp'
          cases hp'
    rw [List.getElem_map, Slot.map, ← state, ← parent]

/-- **Nodes of one diagram are the same up to names.** -/
theorem renames_counterpart : Renames (counterpart a b) a b where
  top := by
    obtain ⟨rest, e⟩ := discover_eq_cons a
    obtain ⟨rest', e'⟩ := discover_eq_cons b
    have first : a.positionIn a.discover = 0 := by
      simp [e, positionIn, List.findIdx_cons, same_refl]
    rw [counterpart, first, e']
    rfl
  bij := Set.InvOn.bijOn
    ⟨fun _ r => counterpart_counterpart ha hb h r,
      fun _ r => counterpart_counterpart hb ha h.symm r⟩
    (fun _ r => (counterpart_reached ha hb h r).1)
    (fun _ r => (counterpart_reached hb ha h.symm r).1)
  kind _ r := (kind_states_counterpart ha hb h r).1
  slots _ r := slots_counterpart ha hb h r

end Told

end Graph

/-! ## 4. Diagrams in a session -/

namespace Session

open Node

variable {a b : Node}

/-- **Two diagrams have the same text when their graphs are the same up to the names of nodes**, and
    only then. A diagram has one vertex for each node that can be reached, and one only, with the
    label of the node, and an arrow for each slot with a node below. -/
theorem dot_eq_iff_renames (commands commands' : List (Command × Option String))
    (ha : (replay commands).Holds a) (hb : (replay commands').Holds b) :
    (a.diagram.dot = b.diagram.dot ↔ ∃ f, Renames f a b) ∧
    Set.BijOn (fun m => m.positionIn a.discover) {m | Reaches a m}
      (Set.Iio a.diagram.labels.length) ∧
    (∀ m, Reaches a m → a.diagram.labels[m.positionIn a.discover]? = some m.label) ∧
    ∀ x, x ∈ a.diagram.arrows ↔ ∃ m i s p, Reaches a m ∧ m.slots[i]? = some s ∧
      s.parent = some p ∧
      x = ⟨m.positionIn a.discover, p.positionIn a.discover, m.slotLabel i⟩ := by
  obtain ⟨g, hs⟩ := over_replay commands
  obtain ⟨g', hs'⟩ := over_replay commands'
  have ha := hs.mem ha
  have hb := hs'.mem hb
  refine ⟨?_, Graph.bijOn_positionIn ha, fun m r => Graph.labels_diagram ha r,
    fun x => Graph.mem_arrows_diagram ha⟩
  constructor
  · intro text
    have same := Diagram.dot_inj (Graph.plain_diagram ha) (Graph.plain_diagram hb) text
    exact ⟨_, Graph.renames_counterpart ha hb same⟩
  · intro ⟨f, h⟩
    rw [Graph.diagram_renamed hb ha h]

/-- A session with three equal choices, of which two share what lies below and one does not. -/
def diamonds : List (Command × Option String) :=
  [(.push "$" 1, some "low"), (.ofLists [2, State.bottom] [some "low", none], some "left"),
    (.ofLists [3, 4, 5] [some "left", some "low", some "left"], some "a"),
    (.push "$" 1, some "low'"), (.ofLists [2, State.bottom] [some "low'", none], some "left'"),
    (.ofLists [3, 4, 5] [some "left'", some "low'", some "left'"], some "b"),
    (.ofLists [3, 4, 5] [some "left", some "low'", some "left'"], some "c")]

theorem dot_eq_iff_renames_diamonds :
    ∃ a b c, (replay diamonds).Holds a ∧ (replay diamonds).Holds b ∧ (replay diamonds).Holds c ∧
      a.same b = false ∧ (a == b) = true ∧ (a == c) = true ∧ (∃ f, Renames f a b) ∧
      ¬ ∃ f, Renames f a c := by
  refine ⟨_, _, _, ⟨"a", rfl⟩, ⟨"b", rfl⟩, ⟨"c", rfl⟩, by decide, by decide +kernel,
    by decide +kernel, ?_, ?_⟩
  · refine (dot_eq_iff_renames diamonds diamonds ⟨"a", rfl⟩ ⟨"b", rfl⟩).1.mp ?_
    rw [diagram_eq_preorder, diagram_eq_preorder]
    decide +kernel
  · intro renamed
    have text := (dot_eq_iff_renames diamonds diamonds ⟨"a", rfl⟩ ⟨"c", rfl⟩).1.mpr renamed
    rw [diagram_eq_preorder, diagram_eq_preorder] at text
    revert text
    decide +kernel

end Session

end StackGraph
