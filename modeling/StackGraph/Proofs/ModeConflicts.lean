import Mathlib.Data.Sym.Sym2
import StackGraph.Proofs.TreeMerge

/-!
# Where the modes differ

A merge of two trees comes to pairs of trees: the two themselves, and what the merges below a state
of both come to. With wildcards a bottom and a choice are no pair that it comes to, since a bottom
swallows a choice at once. Where the modes merge a pair differently, they merge every pair
differently that comes to it.

* `Tree.Comes` -- the pairs that a merge comes to, in no order;
* `Tree.ModesDiffer` -- the pairs that the modes merge differently;
* `Tree.Comes.modesDiffer` -- **a difference goes upwards**.
-/

namespace StackGraph

namespace Tree

variable {mode mode' : Mode} {a b p q : Tree} {z : Sym2 Tree}

/-- Whether the tree is a choice. -/
def IsChoice (t : Tree) : Prop := ∃ slots, t = .choice slots

/-- A bottom swallows a choice at once. -/
def AtOnce (mode : Mode) (a b : Tree) : Prop :=
  mode = .wildcard ∧ (a = .bottom ∧ b.IsChoice ∨ b = .bottom ∧ a.IsChoice)

/-- `Comes mode a b z`: the merge of `a` and `b` comes to the pair `z`, in whichever order. -/
inductive Comes (mode : Mode) : Tree → Tree → Sym2 Tree → Prop where
  | here {a b : Tree} (h : ¬ AtOnce mode a b) : Comes mode a b s(a, b)
  | under {a b p q : Tree} {z : Sym2 Tree} (meet : Slot.Meet a.slots b.slots p q)
      (h : Comes mode p q z) : Comes mode a b z

/-- The modes merge the two trees differently. -/
def ModesDiffer (z : Sym2 Tree) : Prop :=
  ∃ a b, z = s(a, b) ∧ merge .wildcard a b ≠ merge .exact a b

theorem AtOnce.symm (h : AtOnce mode a b) : AtOnce mode b a := ⟨h.1, h.2.symm⟩

theorem Comes.symm (h : Comes mode a b z) : Comes mode b a z := by
  induction h with
  | here h =>
    rw [Sym2.eq_swap]
    exact .here fun h' => h h'.symm
  | under meet _ ih => exact .under meet.symm ih

/-- Equal pairs come to the same pairs. -/
theorem Comes.congr {a' b' : Tree} (h : Comes mode a b z) (e : s(a, b) = s(a', b')) :
    Comes mode a' b' z := by
  rcases Sym2.eq_iff.mp e with ⟨rfl, rfl⟩ | ⟨rfl, rfl⟩
  · exact h
  · exact h.symm

/-- Trees of one pair have one merge. -/
theorem merge_congr {a' b' : Tree} (ha : Proper a) (hb : Proper b) (e : s(a, b) = s(a', b')) :
    merge mode a b = merge mode a' b' := by
  rcases Sym2.eq_iff.mp e with ⟨rfl, rfl⟩ | ⟨rfl, rfl⟩
  · rfl
  · exact merge_comm ha hb

/-- Whether the modes differ does not depend on the order of the trees. -/
theorem modesDiffer_iff (ha : Proper a) (hb : Proper b) :
    ModesDiffer s(a, b) ↔ merge .wildcard a b ≠ merge .exact a b := by
  constructor
  · rintro ⟨a', b', e, differ⟩
    rw [merge_congr ha hb e, merge_congr ha hb e]
    exact differ
  · exact fun differ => ⟨a, b, rfl, differ⟩

/-- The modes differ at a bottom and a frame. -/
example : ModesDiffer s(.bottom, .frame 1 .bottom) := ⟨.bottom, .frame 1 .bottom, rfl, by decide⟩

/-- Different modes merge two trees differently when the modes differ. -/
theorem modesDiffer_iff_of_ne (ha : Proper a) (hb : Proper b) (ne : mode ≠ mode') :
    ModesDiffer s(a, b) ↔ merge mode a b ≠ merge mode' a b := by
  rw [modesDiffer_iff ha hb]
  cases mode <;> cases mode'
  · exact absurd rfl ne
  · rfl
  · exact ne_comm
  · exact absurd rfl ne

/-- Where both trees hold a state over a tree, their merge holds it over the merge of these. -/
theorem Proper.at?_merge_meet (ha : Proper a) (hb : Proper b) {x : State}
    (hp : Slot.at? x a.slots = some (some p)) (hq : Slot.at? x b.slots = some (some q)) :
    Slot.at? x (Tree.merge mode a b).slots = some (some (Tree.merge mode p q)) := by
  have sw : ¬ Swallows mode a b := by
    rintro ⟨_, rfl | rfl⟩
    · exact Slot.not_meet_end_left ⟨x, hp, hq⟩
    · exact Slot.not_meet_end_right ⟨x, hp, hq⟩
  rw [ha.at?_merge hb sw, hp, hq]
  rfl

/-- **A difference goes upwards**: trees that come to a pair which the modes merge differently are
    merged differently themselves. -/
theorem Comes.modesDiffer (h : Comes mode a b z) (ha : Proper a) (hb : Proper b)
    (differ : ModesDiffer z) : ModesDiffer s(a, b) := by
  induction h with
  | here => exact differ
  | under meet _ ih =>
    obtain ⟨x, hp, hq⟩ := meet
    have pp := ha.parent (mem_parents_of_at? hp)
    have pq := hb.parent (mem_parents_of_at? hq)
    have below := (modesDiffer_iff pp pq).mp (ih pp pq differ)
    rw [modesDiffer_iff ha hb]
    intro same
    have held (mode : Mode) : Slot.at? x (merge mode _ _).slots = _ := ha.at?_merge_meet hb hp hq
    have two := (held .wildcard).symm.trans ((congrArg (Slot.at? x ∘ slots) same).trans (held .exact))
    exact below (Option.some.inj (Option.some.inj two))

/-- A tree and itself come to nothing that the modes merge differently. -/
theorem Comes.not_modesDiffer_self (h : Comes mode a a z) (ha : Proper a) : ¬ ModesDiffer z := by
  intro differ
  refine (modesDiffer_iff ha ha).mp (h.modesDiffer ha ha differ) ?_
  rw [merge_self ha, merge_self ha]

/-- A bottom that swallows a choice comes to nothing. -/
theorem AtOnce.not_comes (h : AtOnce mode a b) : ¬ Comes mode a b z := by
  intro comes
  cases comes with
  | here no => exact no h
  | under meet =>
    rcases h.2 with ⟨rfl, _⟩ | ⟨rfl, _⟩
    · exact Slot.not_meet_end_left meet
    · exact Slot.not_meet_end_right meet

end Tree

end StackGraph
