import StackGraph.Node.Equal
import StackGraph.Proofs.Graph

/-!
# Structural equality is equality of trees

The comparison of two nodes of a graph stops early for the same node, for unequal keys and for a
pair that was found equal before. None of this changes the answer, since an identity belongs to one
node, a key is a function of the tree, and every remembered pair has one tree.

* `Node.Knows` -- what the remembered pairs stand for, the invariant of the walk;
* `Graph.verdict_iff` -- a walk that stops early stops with the right answer;
* `Graph.decides_agree` -- the walk decides equality of trees and keeps the invariant;
* `Graph.beq_iff` -- `==` is equality of trees.
-/

namespace StackGraph

/-- Every remembered pair of a node below `a` and a node below `b` is a pair of nodes with the same
    tree. -/
def Node.Knows (a b : Node) (known : Node.Pairs) : Prop :=
  ∀ m, Node.Reaches a m → ∀ n, Node.Reaches b n → (m.id, n.id) ∈ known → m.tree = n.tree

/-- A walk that begins knows nothing yet. -/
theorem Node.knows_nil (a b : Node) : a.Knows b [] := fun _ _ _ _ h => absurd h List.not_mem_nil

namespace Graph

open Node

variable {g : Graph} {a b m n : Node}

/-- The outcome of a comparison below `a` and `b` decides `p`, and what it remembers is right. -/
def Decides (a b : Node) (p : Prop) : Option Pairs → Prop
  | none => ¬ p
  | some known => p ∧ a.Knows b known

theorem Decides.congr {p q : Prop} (h : p ↔ q) {outcome : Option Pairs}
    (d : Decides a b p outcome) : Decides a b q outcome := by
  rw [← propext h]
  exact d

/-- An outcome that decides `p` is there when `p` holds. -/
theorem Decides.isSome_iff {p : Prop} {outcome : Option Pairs} (d : Decides a b p outcome) :
    outcome.isSome = true ↔ p := by
  cases outcome with
  | none => exact ⟨fun h => absurd h Bool.false_ne_true, fun h => absurd h d⟩
  | some known => exact ⟨fun _ => d.1, fun _ => rfl⟩

section Walk

variable (ha : a ∈ g) (hb : b ∈ g)

include ha hb

/-- **The early verdicts are right**: the one on the same node, the one on unequal keys, and the one
    on a remembered pair. -/
theorem verdict_iff (ra : Reaches a m) (rb : Reaches b n) {known : Pairs} (hk : a.Knows b known)
    {verdict : Bool} (h : verdict? m n known = some verdict) : verdict = true ↔ m.tree = n.tree := by
  have hm := mem_of_reaches ha ra
  have hn := mem_of_reaches hb rb
  unfold verdict? at h
  by_cases same : m.same n = true
  · rw [if_pos same] at h
    rw [← Option.some.inj h, eq_of_same hm hn same]
    exact ⟨fun _ => rfl, fun _ => rfl⟩
  · rw [if_neg same] at h
    by_cases key : m.key ≠ n.key
    · rw [if_pos key] at h
      rw [← Option.some.inj h]
      refine ⟨fun e => absurd e Bool.false_ne_true, fun e => ?_⟩
      rw [key_eq hm, key_eq hn, e] at key
      exact absurd rfl key
    · rw [if_neg key] at h
      by_cases seen : known.contains (m.id, n.id) = true
      · rw [if_pos seen] at h
        rw [← Option.some.inj h]
        exact ⟨fun _ => hk m ra n rb (List.contains_iff_mem.mp seen), fun _ => rfl⟩
      · rw [if_neg seen] at h
        cases h

/-- Where there is no early verdict the walk decides, and it may be remembered. -/
theorem decides_agreeBy (ra : Reaches a m) (rb : Reaches b n) {known : Pairs}
    (hk : a.Knows b known) {walk : Pairs → Option Pairs}
    (hw : Decides a b (m.tree = n.tree) (walk known)) :
    Decides a b (m.tree = n.tree) (agreeBy m n known walk) := by
  unfold agreeBy
  cases early : verdict? m n known with
  | some verdict =>
    have right := verdict_iff ha hb ra rb hk early
    cases verdict with
    | true => exact ⟨right.mp rfl, hk⟩
    | false => exact fun e => absurd (right.mpr e) Bool.false_ne_true
  | none =>
    cases h : walk known with
    | none =>
      rw [h] at hw
      exact hw
    | some known' =>
      rw [h] at hw
      refine ⟨hw.1, fun m' ra' n' rb' mem => ?_⟩
      rcases List.mem_cons.mp mem with e | mem
      · obtain ⟨e₁, e₂⟩ := Prod.mk.inj e
        rw [g.eq_of_id (mem_of_reaches ha ra') (mem_of_reaches ha ra) e₁,
          g.eq_of_id (mem_of_reaches hb rb') (mem_of_reaches hb rb) e₂]
        exact hw.1
      · exact hw.2 m' ra' n' rb' mem

omit ha hb in
/-- The walk over two lists of slots of the same states decides equality of what lies below. -/
theorem decides_agreeSlots {ss ts : List (Slot Node)}
    (ih : ∀ s ∈ ss, ∀ p, s.parent = some p → ∀ t ∈ ts, ∀ q, t.parent = some q → ∀ known,
      a.Knows b known → Decides a b (p.tree = q.tree) (agree p q known))
    (states : Slot.states ss = Slot.states ts) {known : Pairs} (hk : a.Knows b known) :
    Decides a b (ss.map (Slot.map tree) = ts.map (Slot.map tree)) (agreeSlots ss ts known) := by
  induction ss generalizing ts known with
  | nil =>
    cases ts with
    | nil => exact ⟨rfl, hk⟩
    | cons t ts => cases states
  | cons s ss ihs =>
    cases ts with
    | nil => cases states
    | cons t ts =>
      obtain ⟨x, p⟩ := s
      obtain ⟨y, q⟩ := t
      obtain ⟨rfl, states'⟩ := List.cons.inj states
      have rest : ∀ {known}, a.Knows b known →
          Decides a b (ss.map (Slot.map tree) = ts.map (Slot.map tree)) (agreeSlots ss ts known) :=
        ihs (fun s hs p hp t ht => ih s (List.mem_cons_of_mem _ hs) p hp t
          (List.mem_cons_of_mem _ ht)) states'
      cases p with
      | none =>
        cases q with
        | none => exact (rest hk).congr (by simp [Slot.map])
        | some q => exact fun e => by simp [Slot.map] at e
      | some p =>
        cases q with
        | none => exact fun e => by simp [Slot.map] at e
        | some q =>
          have top := ih _ List.mem_cons_self p rfl _ List.mem_cons_self q rfl known hk
          rw [agreeSlots]
          cases h : agree p q known with
          | none =>
            rw [h] at top
            exact fun e => top (by simp [Slot.map] at e; exact e.1)
          | some known' =>
            rw [h] at top
            exact (rest top.2).congr (by simp [Slot.map, top.1])

/-- **The walk decides equality of trees**, at every two nodes that it may come to and whatever it
    rightly remembers. -/
theorem decides_agree (ra : Reaches a m) (rb : Reaches b n) {known : Pairs}
    (hk : a.Knows b known) : Decides a b (m.tree = n.tree) (agree m n known) := by
  induction m using Node.induction generalizing n known with
  | step m ih =>
    cases m with
    | bottom i =>
      rw [agree]
      refine decides_agreeBy ha hb ra rb hk ?_
      cases n with
      | bottom j => exact ⟨rfl, hk⟩
      | frame j k y q => exact fun e => by cases e
      | choice j k ts => exact fun e => by cases e
    | frame i k x p =>
      rw [agree]
      refine decides_agreeBy ha hb ra rb hk ?_
      cases n with
      | bottom j => exact fun e => by cases e
      | frame j k' y q =>
        by_cases e : x = y
        · subst e
          have below : p ∈ (frame i k x p).parents := List.mem_cons_self
          have below' : q ∈ (frame j k' x q).parents := List.mem_cons_self
          have d := ih p below (ra.parent below) (rb.parent below') hk
          simp only [if_pos]
          exact d.congr (by simp [tree])
        · simp only [if_neg e]
          exact fun e' => e (Tree.frame.inj e').1
      | choice j k' ts => exact fun e => by cases e
    | choice i k ss =>
      rw [agree]
      refine decides_agreeBy ha hb ra rb hk ?_
      cases n with
      | bottom j => exact fun e => by cases e
      | frame j k' y q => exact fun e => by cases e
      | choice j k' ts =>
        have trees : (choice i k ss).tree = (choice j k' ts).tree ↔
            ss.map (Slot.map tree) = ts.map (Slot.map tree) := by
          simp [tree, treeSlots_eq_map]
        by_cases e : Slot.states ss = Slot.states ts
        · simp only [if_pos e]
          refine (decides_agreeSlots (fun s hs p hp t ht q hq known hk => ?_) e hk).congr trees.symm
          have below : p ∈ (choice i k ss).parents := mem_parents_of_slot hs hp
          have below' : q ∈ (choice j k' ts).parents := mem_parents_of_slot ht hq
          exact ih p below (ra.parent below) (rb.parent below') hk
        · simp only [if_neg e]
          intro e'
          have e'' := congrArg Slot.states (trees.mp e')
          rw [Slot.states_map, Slot.states_map] at e''
          exact e e''

/-- **Two nodes of a graph are equal when they have the same tree.** -/
theorem beq_iff : (a == b) = true ↔ a.tree = b.tree := by
  rw [beq_def]
  exact (decides_agree ha hb (.refl a) (.refl b) (knows_nil a b)).isSome_iff

/-- Equality does not depend on the order. -/
theorem beq_comm : (a == b) = (b == a) :=
  Bool.eq_iff_iff.mpr (by rw [beq_iff ha hb, beq_iff hb ha, eq_comm])

theorem beq_trans {c : Node} (hc : c ∈ g) (h : (a == b) = true) (h' : (b == c) = true) :
    (a == c) = true :=
  (beq_iff ha hc).mpr (((beq_iff ha hb).mp h).trans ((beq_iff hb hc).mp h'))

/-- **Equal nodes have equal keys**, though unequal nodes may have equal keys, too. -/
theorem key_eq_of_beq (h : (a == b) = true) : a.key = b.key := by
  rw [key_eq ha, key_eq hb, (beq_iff ha hb).mp h]

end Walk

end Graph

end StackGraph
