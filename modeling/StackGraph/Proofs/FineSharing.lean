import StackGraph.Proofs.FineNodes
import StackGraph.Proofs.Sharing

/-!
# Sharing with any pool and any trail

Sharing a fine node never fails and gives a fine node, whatever fine nodes the pool and the trail
hold: what they answer is taken as it is, and a node is rebuilt over slots that have the states of
its own and something below where its own have.

* `Pool.Fine`, `Trail.Fine`, `Sharing.Fine` -- pools and trails of fine nodes;
* `Maintains.intern`, `Maintains.settle` -- one node;
* `Maintains.share` -- **sharing never fails**, by induction on the node.
-/

namespace StackGraph

open Node

variable {plain : Prop} {n c : Node} {slots : List (Slot Node)}

/-! ## 1. Pools and trails -/

/-- A pool of fine nodes. -/
def Pool.Fine (plain : Prop) (p : Pool) : Prop := ∀ n ∈ p.nodes, n.Fine plain

/-- A trail on which fine nodes became fine nodes. -/
def Trail.Fine (plain : Prop) (t : Trail) : Prop :=
  ∀ step ∈ t.steps, step.1.Fine plain ∧ step.2.Fine plain

/-- A pool and a trail of fine nodes. -/
structure Sharing.Fine (plain : Prop) (x : Sharing) : Prop where
  pool : x.pool.Fine plain
  trail : x.trail.Fine plain

theorem Pool.fine_empty : Pool.empty.Fine plain := fun _ h => absurd h List.not_mem_nil

theorem Trail.fine_empty : Trail.empty.Fine plain := fun _ h => absurd h List.not_mem_nil

theorem Pool.Fine.find? {p : Pool} (h : p.Fine plain) (found : p.find? n = some c) : c.Fine plain :=
  h c (Pool.mem_of_find?_eq_some found)

theorem Pool.Fine.intern {p : Pool} (h : p.Fine plain) (hn : n.Fine plain) :
    (p.intern n).1.Fine plain ∧ (p.intern n).2.Fine plain := by
  unfold Pool.intern
  split
  · exact ⟨Node.fine_empty, h⟩
  · split
    · exact ⟨h.find? ‹_›, h⟩
    · refine ⟨hn, fun m hm => ?_⟩
      rcases List.mem_append.mp hm with hm | hm
      · exact h m hm
      · exact List.mem_singleton.mp hm ▸ hn

theorem Trail.Fine.find? {t : Trail} (h : t.Fine plain) (found : t.find? n = some c) :
    c.Fine plain := by
  obtain ⟨step, hs, rfl⟩ := Option.map_eq_some_iff.mp found
  exact (h step (List.mem_of_find?_eq_some hs)).2

theorem Trail.Fine.insert {t : Trail} (h : t.Fine plain) (hn : n.Fine plain) (hc : c.Fine plain) :
    (t.insert n c).Fine plain := by
  obtain ⟨steps⟩ := t
  show ∀ step ∈ Trail.put n c steps, step.1.Fine plain ∧ step.2.Fine plain
  induction steps with
  | nil =>
    intro step hs
    rw [List.mem_singleton.mp hs]
    exact ⟨hn, hc⟩
  | cons first rest ih =>
    obtain ⟨hfirst, hrest⟩ := List.forall_mem_cons.mp h
    unfold Trail.put
    split
    · exact List.forall_mem_cons.mpr ⟨⟨hfirst.1, hc⟩, hrest⟩
    · exact List.forall_mem_cons.mpr ⟨hfirst, ih hrest⟩

/-- Either a node or what it became takes its place. -/
theorem fine_replacement (hn : n.Fine plain) (hc : c.Fine plain) :
    (replacement n c).Fine plain := by
  unfold replacement
  split
  · exact hn
  · exact hc

/-! ## 2. One node -/

namespace Maintains

theorem intern (hn : n.Fine plain) :
    Maintains False (Sharing.Fine plain) (StackGraph.intern n) fun c => c.Fine plain := by
  intro s hs
  obtain ⟨journal, run⟩ := Shares.intern_run n s
  obtain ⟨hc, hp⟩ := hs.pool.intern hn
  rw [run]
  exact ⟨⟨hp, hs.trail⟩, hc⟩

theorem noteStep (hn : n.Fine plain) (hc : c.Fine plain) :
    Maintains False (Sharing.Fine plain) (StackGraph.noteStep n c) fun _ => True :=
  change fun _ hx => ⟨hx.pool, hx.trail.insert hn hc⟩

theorem recallOr (hn : n.Fine plain) {otherwise : GraphM Sharing Node}
    (h : Maintains False (Sharing.Fine plain) otherwise fun c => c.Fine plain) :
    Maintains False (Sharing.Fine plain) (StackGraph.recallOr n otherwise)
      fun c => c.Fine plain := by
  unfold StackGraph.recallOr
  refine table.bind fun x hx => ?_
  cases seen : x.trail.find? n with
  | some c => exact .pure (hx.trail.find? seen)
  | none =>
    cases found : x.pool.find? n with
    | some c =>
      have hc := hx.pool.find? found
      exact (noteStep hn hc).bind fun _ _ => .pure hc
    | none => exact h

/-- A node over other fine slots of the same shape is settled. -/
theorem settle (hn : n.Fine plain) (shape : Slot.shape slots = Slot.shape n.slots)
    (hs : ∀ s ∈ slots, FineSlot plain s) :
    Maintains False (Sharing.Fine plain) (StackGraph.settle n slots) fun c => c.Fine plain := by
  unfold StackGraph.settle
  split
  · exact (intern hn).bind fun c hc => (noteStep hn hc).bind fun _ _ => .pure hc
  · refine (ofNormal (hn.sound.normal.of_shape_eq shape) hs).bind fun rebuilt hr => ?_
    refine (intern hr).bind fun c hc => (emit _).bind fun _ _ => ?_
    exact (noteStep hr hc).bind fun _ _ => (noteStep hn hc).bind fun _ _ => .pure hc

/-! ## 3. A whole ancestry -/

/-- What lies below fine slots is shared, slot by slot. -/
theorem shareSlots (hs : ∀ s ∈ slots, FineSlot plain s)
    (ih : ∀ p ∈ Slot.parents slots,
      Maintains False (Sharing.Fine plain) (StackGraph.share p) fun c => c.Fine plain) :
    Maintains False (Sharing.Fine plain) (StackGraph.shareSlots slots) fun shared =>
      Slot.shape shared = Slot.shape slots ∧ ∀ s ∈ shared, FineSlot plain s := by
  induction slots with
  | nil => exact .pure ⟨rfl, hs⟩
  | cons first rest ihs =>
    obtain ⟨hfirst, hrest⟩ := List.forall_mem_cons.mp hs
    obtain ⟨x, parent⟩ := first
    cases parent with
    | none =>
      refine (ihs hrest ih).bind fun shared ⟨shape, fine⟩ => .pure ⟨?_, ?_⟩
      · exact congrArg (List.cons _) shape
      · exact List.forall_mem_cons.mpr ⟨hfirst, fine⟩
    | some p =>
      have below : p ∈ Slot.parents (⟨x, some p⟩ :: rest) :=
        Slot.mem_parents.mpr ⟨_, List.mem_cons_self, rfl⟩
      refine (ih p below).bind fun c hc => ?_
      refine (ihs hrest fun q hq => ih q (List.mem_cons_of_mem p hq)).bind
        fun shared ⟨shape, fine⟩ => .pure ⟨?_, ?_⟩
      · exact congrArg (List.cons _) shape
      · exact List.forall_mem_cons.mpr
          ⟨hfirst.replace rfl fun q e => Option.some.inj e ▸ fine_replacement (hfirst.below p rfl) hc,
            fine⟩

/-- **Sharing a fine node never fails and gives a fine node**, whatever fine nodes pool and trail
    hold. -/
theorem share (hn : n.Fine plain) :
    Maintains False (Sharing.Fine plain) (StackGraph.share n) fun c => c.Fine plain := by
  induction n using Node.induction with
  | step n ih =>
    have ih : ∀ p ∈ n.parents,
        Maintains False (Sharing.Fine plain) (StackGraph.share p) fun c => c.Fine plain :=
      fun p hp => ih p hp (hn.parent hp)
    cases n with
    | bottom i => exact .pure hn
    | frame i k x p =>
      have slot := hn.slot List.mem_cons_self
      refine recallOr hn ((ih p List.mem_cons_self).bind fun c hc => settle hn rfl ?_)
      exact List.forall_mem_singleton.mpr (slot.replace rfl fun q e =>
        Option.some.inj e ▸ fine_replacement (slot.below p rfl) hc)
    | choice i k slots =>
      refine recallOr hn ((shareSlots (fun _ => hn.slot) ih).bind fun shared h => ?_)
      exact settle hn h.1 h.2

end Maintains

end StackGraph
