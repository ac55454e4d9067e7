import StackGraph.CallStack
import StackGraph.Proofs.Maintenance
import StackGraph.Proofs.Trees

/-!
# Fine nodes

A node is fine when everything that can be reached from it is sound and, where nothing has yet been
put below a slot of the bottom state, has nothing there. As with honest memos, `plain` is the
proposition under which nothing has been put there, and both cases are treated at once. Making nodes
over fine nodes gives fine nodes, in any arena and with any identities.

* `Node.Fine`, `FineSlot` -- fine nodes and the slots that they have, `Node.fine_iff`;
* `Maintains.push`, `Maintains.ofNormal` -- one state over a fine node, and a normal list of fine
  slots, which never fails;
* `Maintains.chain`, `Maintains.ofLists`, `Maintains.tower`, `Maintains.toNode` -- the makers put
  together from these.
-/

namespace StackGraph

open Node

variable {plain : Prop} {n p : Node} {s : Slot Node} {slots : List (Slot Node)}

/-! ## 1. Nodes and their slots -/

/-- Everything that can be reached from the node is sound, and where `plain` is known, nothing lies
    below a slot of the bottom state. -/
def Node.Fine (plain : Prop) (n : Node) : Prop :=
  ∀ m, Reaches n m → m.Sound ∧ (plain → ∀ s ∈ m.slots, s.state = State.bottom → s.parent = none)

/-- A slot that a fine node may have. -/
structure FineSlot (plain : Prop) (s : Slot Node) : Prop where
  no_orphan : ¬ s.IsOrphan
  below : ∀ p, s.parent = some p → p.Fine plain
  bare : plain → s.state = State.bottom → s.parent = none

namespace Node

theorem Fine.sound (h : n.Fine plain) : n.Sound := (h n (.refl n)).1

theorem Fine.parent (h : n.Fine plain) (hp : p ∈ n.parents) : p.Fine plain :=
  fun m r => h m (.step hp r)

theorem Fine.wellFormed (h : n.Fine plain) : n.WellFormed := fun m r => (h m r).1

theorem WellFormed.fine (h : n.WellFormed) : n.Fine False := fun m r => ⟨h m r, False.elim⟩

/-- **A node is fine when it is sound and its slots are fine.** -/
theorem fine_iff : n.Fine plain ↔ n.Sound ∧ ∀ s ∈ n.slots, FineSlot plain s := by
  constructor
  · refine fun h => ⟨h.sound, fun s hs => ⟨h.sound.normal.no_orphan s hs, fun p hp => ?_, ?_⟩⟩
    · exact h.parent (mem_parents_of_slot hs hp)
    · exact fun pl => (h n (.refl n)).2 pl s hs
  · rintro ⟨sound, fine⟩ m r
    cases r with
    | refl => exact ⟨sound, fun pl s hs => (fine s hs).bare pl⟩
    | step hp r =>
      obtain ⟨s, hs, e⟩ := mem_parents.mp hp
      exact (fine s hs).below _ e m r

theorem Fine.slot (h : n.Fine plain) (hs : s ∈ n.slots) : FineSlot plain s := (fine_iff.mp h).2 s hs

theorem Fine.ascending (h : n.Fine plain) : Slot.Ascending n.slots := h.sound.normal.ascending

theorem Fine.mono {plain' : Prop} (h : n.Fine plain) (weaker : plain' → plain) : n.Fine plain' :=
  fun m r => ⟨(h m r).1, fun pl => (h m r).2 (weaker pl)⟩

theorem fine_bottom (id : Nat) : (bottom id).Fine plain :=
  fine_iff.mpr ⟨trivial, fun s hs => by
    rw [List.mem_singleton.mp hs]
    exact ⟨fun o => o.2 rfl, nofun, fun _ _ => rfl⟩⟩

theorem fine_empty : empty.Fine plain := fine_bottom 0

end Node

theorem FineSlot.over {x : State} (hx : x ≠ State.bottom) (hp : p.Fine plain) :
    FineSlot plain ⟨x, some p⟩ :=
  ⟨Slot.not_isOrphan_some, fun _ e => Option.some.inj e ▸ hp, fun _ e => absurd e hx⟩

theorem FineSlot.atEnd : FineSlot plain ⟨State.bottom, none⟩ :=
  ⟨fun o => o.2 rfl, nofun, fun _ _ => rfl⟩

/-- Other fine nodes may take the place of those below a fine slot. -/
theorem FineSlot.replace {t : Slot Node} (h : FineSlot plain s)
    (shape : t.map (fun _ => ()) = s.map fun _ => ()) (below : ∀ p, t.parent = some p → p.Fine plain) :
    FineSlot plain t := by
  obtain ⟨states, parents⟩ := Slot.mk.inj shape
  have none_iff : t.parent = none ↔ s.parent = none := by
    rw [← Option.map_eq_none_iff, parents, Option.map_eq_none_iff]
  refine ⟨fun o => h.no_orphan ⟨none_iff.mp o.1, fun e => o.2 (states.trans e)⟩, below, ?_⟩
  exact fun pl e => none_iff.mpr (h.bare pl (states.symm.trans e))

/-! ## 2. Making nodes -/

namespace Maintains

variable {τ : Type} {ok : τ → Prop}

theorem make {fails : Prop} {mk : Nat → Node} (h : ∀ id, (mk id).Fine plain) :
    Maintains fails ok (do return mk (← GraphM.fresh)) fun n => n.Fine plain :=
  fresh.bind fun id _ => .pure (h id)

theorem push {below : Node} (hb : below.Fine plain) (state : State) :
    Maintains (state = State.bottom ∧ below.isBottom = false) ok (Node.push below state)
      fun n => n.Fine plain := by
  unfold Node.push
  by_cases e : state = State.bottom
  · rw [if_pos e]
    by_cases h : below.isBottom = true
    · rw [if_pos h]
      exact .pure fine_empty
    · rw [if_neg h]
      exact .throw ⟨e, Bool.eq_false_iff.mpr h⟩
  · rw [if_neg e]
    refine make fun id => fine_iff.mpr ⟨⟨e, rfl⟩, fun s hs => ?_⟩
    exact List.mem_singleton.mp hs ▸ .over e hb

/-- **A normal list of fine slots becomes a fine node.** -/
theorem ofNormal (h : NormalSlots slots) (hs : ∀ s ∈ slots, FineSlot plain s) :
    Maintains False ok (Node.ofSlots slots) fun n => n.Fine plain := by
  have fault := fault?_eq_none_iff.mpr ⟨h.ne_nil, h.ascending, h.no_orphan⟩
  unfold Node.ofSlots
  rw [fault]
  rcases h.kinds with rfl | ⟨x, p, hx, rfl⟩ | proper
  · show Maintains False ok (ofSlot ⟨State.bottom, none⟩) _
    rw [ofSlot_bottom]
    exact .pure fine_empty
  · exact (push ((hs _ List.mem_cons_self).below p rfl) x).mayFailFor fun h => hx h.1
  · match slots, proper.1 with
    | _ :: _ :: _, _ => exact make fun id => fine_iff.mpr ⟨⟨by simp, fault, rfl⟩, hs⟩

/-- Two slots in their order make a choice. -/
theorem ofPair {t : Slot Node} (lt : s.state < t.state) (hs : FineSlot plain s)
    (ht : FineSlot plain t) :
    Maintains False fine (Node.ofSlots [s, t]) fun m => m.Fine plain :=
  ofNormal (normalSlots_pair lt hs.no_orphan ht.no_orphan)
    (List.forall_mem_cons.mpr ⟨hs, List.forall_mem_singleton.mpr ht⟩)

theorem ofSlots (hs : ∀ s ∈ slots, s.IsOrphan ∨ FineSlot plain s) :
    Maintains True ok (Node.ofSlots slots) fun n => n.Fine plain := by
  by_cases normal : NormalSlots slots
  · refine (ofNormal normal fun s h => ?_).mayFail
    exact (hs s h).resolve_left (normal.no_orphan s h)
  · unfold Node.ofSlots
    cases fault : fault? slots with
    | some failure => exact .throw trivial
    | none =>
      obtain ⟨ne, asc, orphan⟩ := fault?_eq_none_iff.mp fault
      match slots with
      | [] => exact absurd rfl ne
      | [⟨x, none⟩] =>
        obtain rfl : x = State.bottom := by
          by_contra ne
          exact orphan _ List.mem_cons_self ⟨rfl, ne⟩
        exact absurd normalSlots_bottom normal
      | [⟨x, some p⟩] =>
        have fine := (hs _ List.mem_cons_self).resolve_left Slot.not_isOrphan_some
        exact (push (fine.below p rfl) x).mayFail
      | s :: t :: rest => exact absurd (Tree.ProperSlots.normal ⟨by simp, asc, orphan⟩) normal

theorem chain {states : List State} {base : Node} (hb : base.Fine plain) :
    Maintains True ok (Node.chain base states) fun n => n.Fine plain :=
  foldlM (fun _ hn x _ => (push hn x).mayFail) hb

/-- A node from two lists is fine, unless something is put below the bottom state. -/
theorem ofLists {states : List State} {parents : List (Option Node)}
    (hp : ∀ o ∈ parents, ∀ p, o = some p → p.Fine plain) :
    Maintains True ok (Node.ofLists states parents) fun n =>
      (plain → ∀ o, (State.bottom, o) ∈ states.zip parents → o = none) → n.Fine plain := by
  have made : ∀ plain' : Prop, (plain' → plain) →
      (plain' → ∀ o, (State.bottom, o) ∈ states.zip parents → o = none) →
      Maintains True ok (Node.ofLists states parents) fun n => n.Fine plain' := by
    intro plain' weaker bare
    unfold Node.ofLists
    split
    · refine ofSlots fun s hs => or_iff_not_imp_left.mpr fun o => ?_
      rw [← List.map_uncurry_zip_eq_zipWith] at hs
      obtain ⟨⟨x, parent⟩, mem, rfl⟩ := List.mem_map.mp hs
      refine ⟨o, fun p e => (hp parent (List.of_mem_zip mem).2 p e).mono weaker, fun pl e => ?_⟩
      exact bare pl parent ((show x = State.bottom from e) ▸ mem)
    · exact .throw trivial
  exact under (made plain id) ((made False False.elim False.elim).weaken fun _ _ => trivial)

/-- Levels of a choice are fine, unless one of the states is the bottom. -/
theorem tower {states : List State} {depth : Nat} {base : Node} (hb : base.Fine plain) :
    Maintains True ok (Node.tower base states depth) fun n =>
      (plain → depth ≠ 0 → State.bottom ∉ states) → n.Fine plain := by
  have made : ∀ plain' : Prop, (plain' → depth ≠ 0 → State.bottom ∉ states) →
      ∀ {base : Node}, base.Fine plain' →
      Maintains True ok (Node.tower base states depth) fun n => n.Fine plain' := by
    intro plain' bare
    induction depth with
    | zero => exact .pure
    | succ depth ih =>
      intro base hb
      have level : Maintains True ok (Node.ofLists states (states.map fun _ => some base)) _ :=
        ofLists fun o ho p e => by
          obtain ⟨_, _, rfl⟩ := List.mem_map.mp ho
          exact Option.some.inj e ▸ hb
      refine level.bind fun n hn => ih (fun pl _ => bare pl (Nat.succ_ne_zero depth)) (hn ?_)
      exact fun pl o mem => absurd (List.of_mem_zip mem).1 (bare pl (Nat.succ_ne_zero depth))
  exact under (fun bare => made plain bare hb)
    ((made False False.elim (hb.mono False.elim)).weaken fun _ _ => trivial)

/-- The node of a call stack. -/
theorem toNode (net : Network) (stack : CallStack) :
    Maintains True ok (CallStack.toNode net stack) fun n => n.Fine plain := by
  unfold CallStack.toNode
  exact lift.mayFail.bind fun states _ => (emit _).bind fun _ _ => chain fine_empty

theorem anotherBottom : Maintains False ok Node.anotherBottom fun n => n.Fine plain :=
  make fine_bottom

end Maintains

end StackGraph
