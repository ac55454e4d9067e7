import StackGraph.Proofs.TreeMerge
import StackGraph.Tree.Histories

/-!
# The histories of merged trees

A history is followed through a tree from its top: it may end where there is a slot of the bottom
state, and it goes on below the slot of its next state. So a statement about the histories of a
merge is proved by induction on the history.

* `Tree.mem_histories_merge_exact` -- an exact merge has the histories of both trees, no more and
  no less;
* `Tree.mem_of_mem_histories_merge`, `Tree.covered_by_merge` -- the merge with wildcards has only
  histories of the two trees, and covers all of them;
* `Tree.NoChoiceEnds` -- the trees in which only a bottom ends a stack. No history of such a tree
  covers another (`Tree.NoChoiceEnds.eq_of_covers`), and the merge with wildcards keeps the shape.
-/

namespace StackGraph

theorem Slot.mem_histories {x : State} {below : List History} {h : History} :
    h ∈ Slot.histories x below ↔
      x = State.bottom ∧ h = [] ∨ x ≠ State.bottom ∧ ∃ t ∈ below, x :: t = h := by
  unfold Slot.histories
  by_cases e : x = State.bottom
  · simp [e]
  · simp [e]

/-- A history that is covered by one below a state is so under the state, too. -/
theorem Covers.cons {x : State} {t s : History} (h : Covers t s) : Covers (x :: t) (x :: s) :=
  covers_cons_iff.mpr h

namespace Tree

/-! ## 1. Following a history -/

theorem histories_eq (t : Tree) : t.histories = historiesOfSlots t.slots := by
  cases t with
  | bottom => rfl
  | frame x p => exact (List.append_nil _).symm
  | choice slots => rfl

theorem mem_historiesOfSlots {h : History} {slots : List (Slot Tree)} :
    h ∈ historiesOfSlots slots ↔
      ∃ s ∈ slots, s.parent = none ∧ h = [] ∨
        ∃ p, s.parent = some p ∧ h ∈ Slot.histories s.state p.histories := by
  induction slots with
  | nil => simp [historiesOfSlots]
  | cons s rest ih =>
    obtain ⟨state, parent⟩ := s
    cases parent with
    | none => simp [historiesOfSlots, ih]
    | some p => simp [historiesOfSlots, ih]

/-- A history may end in a tree where a slot has the bottom state. -/
theorem Proper.nil_mem_histories {t : Tree} (ht : Proper t) :
    [] ∈ t.histories ↔ State.bottom ∈ Slot.states t.slots := by
  rw [histories_eq, mem_historiesOfSlots, Slot.mem_states]
  constructor
  · rintro ⟨s, hs, ⟨hp, _⟩ | ⟨p, _, h⟩⟩
    · refine ⟨s, hs, ?_⟩
      by_cases e : s.state = State.bottom
      · exact e
      · exact absurd ⟨hp, e⟩ (ht.normal.no_orphan s hs)
    · rcases Slot.mem_histories.mp h with ⟨e, _⟩ | ⟨_, _, _, e⟩
      · exact ⟨s, hs, e⟩
      · exact absurd e (List.cons_ne_nil _ _)
  · rintro ⟨s, hs, e⟩
    refine ⟨s, hs, ?_⟩
    cases hp : s.parent with
    | none => exact .inl ⟨rfl, rfl⟩
    | some p => exact .inr ⟨p, rfl, Slot.mem_histories.mpr (.inl ⟨e, rfl⟩)⟩

/-- **A history goes on below the slot of its next state.** -/
theorem Proper.cons_mem_histories {t : Tree} (ht : Proper t) {x : State} {h : History} :
    x :: h ∈ t.histories ↔
      x ≠ State.bottom ∧ ∃ p, Slot.at? x t.slots = some (some p) ∧ h ∈ p.histories := by
  rw [histories_eq, mem_historiesOfSlots]
  constructor
  · rintro ⟨s, hs, ⟨_, e⟩ | ⟨p, hp, hm⟩⟩
    · exact absurd e (List.cons_ne_nil _ _)
    · rcases Slot.mem_histories.mp hm with ⟨_, e⟩ | ⟨hb, h', hh, e⟩
      · exact absurd e (List.cons_ne_nil _ _)
      · obtain ⟨rfl, rfl⟩ := List.cons.inj e
        have at? := ht.normal.ascending.at?_of_mem hs
        rw [hp] at at?
        exact ⟨hb, p, at?, hh⟩
  · rintro ⟨hb, p, hp, hh⟩
    exact ⟨⟨x, some p⟩, Slot.mem_of_at?_eq_some hp, .inr ⟨p, rfl,
      Slot.mem_histories.mpr (.inr ⟨hb, h, hh, rfl⟩)⟩⟩

theorem nil_mem_histories_bottom : [] ∈ histories .bottom := List.mem_singleton_self _

/-! ## 2. Merges -/

section Merge

variable {mode : Mode} {a b : Tree}

theorem Proper.nil_mem_histories_merge (ha : Proper a) (hb : Proper b)
    (sw : ¬ Swallows mode a b) :
    [] ∈ (Tree.merge mode a b).histories ↔ [] ∈ a.histories ∨ [] ∈ b.histories := by
  rw [(ha.merge hb).nil_mem_histories, ha.nil_mem_histories, hb.nil_mem_histories,
    ha.slots_merge hb sw, mem_states_mergeSlots]

/-- What the left tree has below a state is found again in the merge, as it is or merged. -/
theorem Proper.at?_merge_left (ha : Proper a) (hb : Proper b) (sw : ¬ Swallows mode a b)
    {x : State} {p : Tree} (h : Slot.at? x a.slots = some (some p)) :
    ∃ t, Slot.at? x (Tree.merge mode a b).slots = some (some t) ∧
      (t = p ∨ ∃ q, Slot.at? x b.slots = some (some q) ∧ t = Tree.merge mode p q) := by
  rw [ha.at?_merge hb sw, h]
  cases Slot.at? x b.slots with
  | none => exact ⟨p, rfl, .inl rfl⟩
  | some below =>
    cases below with
    | none => exact ⟨p, rfl, .inl rfl⟩
    | some q => exact ⟨Tree.merge mode p q, rfl, .inr ⟨q, rfl, rfl⟩⟩

/-- **No history is invented**: a merge has only histories of the two trees. -/
theorem mem_of_mem_histories_merge {h : History} (ha : Proper a) (hb : Proper b)
    (hh : h ∈ (merge mode a b).histories) : h ∈ a.histories ∨ h ∈ b.histories := by
  induction h generalizing a b with
  | nil =>
    by_cases sw : Swallows mode a b
    · obtain ⟨_, rfl | rfl⟩ := sw
      · exact .inl nil_mem_histories_bottom
      · exact .inr nil_mem_histories_bottom
    · exact (ha.nil_mem_histories_merge hb sw).mp hh
  | cons x h ih =>
    by_cases sw : Swallows mode a b
    · rw [merge_of_swallows sw] at hh
      exact absurd (List.mem_singleton.mp hh) (List.cons_ne_nil _ _)
    · obtain ⟨hx, t, ht, hm⟩ := (ha.merge hb).cons_mem_histories.mp hh
      rw [ha.slots_merge hb sw] at ht
      rw [ha.cons_mem_histories, hb.cons_mem_histories]
      rcases at?_mergeSlots_cases ha.normal.ascending hb.normal.ascending ht with
        ht | ht | ⟨p, q, hp, hq, rfl⟩
      · exact .inl ⟨hx, t, ht, hm⟩
      · exact .inr ⟨hx, t, ht, hm⟩
      · have pp := ha.parent (mem_parents_of_at? hp)
        have pq := hb.parent (mem_parents_of_at? hq)
        rcases ih pp pq hm with hm | hm
        · exact .inl ⟨hx, p, hp, hm⟩
        · exact .inr ⟨hx, q, hq, hm⟩

theorem mem_histories_merge_exact_left {h : History} (ha : Proper a) (hb : Proper b)
    (hh : h ∈ a.histories) : h ∈ (merge .exact a b).histories := by
  have sw : ∀ {a b}, ¬ Swallows .exact a b := fun h => nomatch h.1
  induction h generalizing a b with
  | nil => exact (ha.nil_mem_histories_merge hb sw).mpr (.inl hh)
  | cons x h ih =>
    obtain ⟨hx, p, hp, hm⟩ := ha.cons_mem_histories.mp hh
    obtain ⟨t, ht, e⟩ := ha.at?_merge_left hb sw hp
    refine (ha.merge hb).cons_mem_histories.mpr ⟨hx, t, ht, ?_⟩
    rcases e with rfl | ⟨q, hq, rfl⟩
    · exact hm
    · exact ih (ha.parent (mem_parents_of_at? hp)) (hb.parent (mem_parents_of_at? hq)) hm

/-- **The histories of an exact merge are those of both trees.** -/
theorem mem_histories_merge_exact {h : History} (ha : Proper a) (hb : Proper b) :
    h ∈ (merge .exact a b).histories ↔ h ∈ a.histories ∨ h ∈ b.histories := by
  constructor
  · exact mem_of_mem_histories_merge ha hb
  · rintro (hh | hh)
    · exact mem_histories_merge_exact_left ha hb hh
    · rw [merge_comm ha hb]
      exact mem_histories_merge_exact_left hb ha hh

theorem covered_by_merge_left {h : History} (ha : Proper a) (hb : Proper b)
    (hh : h ∈ a.histories) : ∃ t ∈ (merge .wildcard a b).histories, Covers t h := by
  induction h generalizing a b with
  | nil =>
    by_cases sw : Swallows .wildcard a b
    · rw [merge_of_swallows sw]
      exact ⟨[], nil_mem_histories_bottom, .nil []⟩
    · exact ⟨[], (ha.nil_mem_histories_merge hb sw).mpr (.inl hh), .nil []⟩
  | cons x h ih =>
    by_cases sw : Swallows .wildcard a b
    · rw [merge_of_swallows sw]
      exact ⟨[], nil_mem_histories_bottom, .nil (x :: h)⟩
    · obtain ⟨hx, p, hp, hm⟩ := ha.cons_mem_histories.mp hh
      obtain ⟨t, ht, e⟩ := ha.at?_merge_left hb sw hp
      have below : ∃ t' ∈ t.histories, Covers t' h := by
        rcases e with rfl | ⟨q, hq, rfl⟩
        · exact ⟨h, hm, .refl h⟩
        · exact ih (ha.parent (mem_parents_of_at? hp)) (hb.parent (mem_parents_of_at? hq)) hm
      obtain ⟨t', hm', cover⟩ := below
      exact ⟨x :: t', (ha.merge hb).cons_mem_histories.mpr ⟨hx, t, ht, hm'⟩, cover.cons⟩

/-- **No history is lost**: the merge with wildcards covers the histories of both trees. -/
theorem covered_by_merge {h : History} (ha : Proper a) (hb : Proper b)
    (hh : h ∈ a.histories ∨ h ∈ b.histories) :
    ∃ t ∈ (merge .wildcard a b).histories, Covers t h := by
  rcases hh with hh | hh
  · exact covered_by_merge_left ha hb hh
  · rw [merge_comm ha hb]
    exact covered_by_merge_left hb ha hh

end Merge

/-! ## 3. Trees in which only bottoms end a stack -/

/-- No choice of the tree has a slot of the bottom state. -/
inductive NoChoiceEnds : Tree → Prop where
  | bottom : NoChoiceEnds .bottom
  | frame {x : State} {p : Tree} (below : NoChoiceEnds p) : NoChoiceEnds (.frame x p)
  | choice {slots : List (Slot Tree)} (ends : State.bottom ∉ Slot.states slots)
      (below : ∀ s ∈ slots, ∀ p, s.parent = some p → NoChoiceEnds p) : NoChoiceEnds (.choice slots)

theorem NoChoiceEnds.parent {t p : Tree} (h : NoChoiceEnds t) (hp : p ∈ t.parents) :
    NoChoiceEnds p := by
  obtain ⟨s, hs, e⟩ := mem_parents.mp hp
  cases h with
  | bottom =>
    rw [List.mem_singleton.mp hs] at e
    cases e
  | frame below =>
    rw [List.mem_singleton.mp hs] at e
    cases e
    exact below
  | choice _ below => exact below s hs p e

theorem NoChoiceEnds.eq_bottom {t : Tree} (h : NoChoiceEnds t) (ht : Proper t)
    (hs : State.bottom ∈ Slot.states t.slots) : t = .bottom := by
  cases h with
  | bottom => rfl
  | frame _ =>
    cases ht with
    | frame hx _ => exact absurd (List.mem_singleton.mp hs).symm hx
  | choice ends _ => exact absurd hs ends

theorem Proper.noChoiceEnds {t : Tree} (ht : Proper t) (ends : State.bottom ∉ Slot.states t.slots)
    (below : ∀ p ∈ t.parents, NoChoiceEnds p) : NoChoiceEnds t := by
  cases ht with
  | bottom => exact .bottom
  | frame _ _ => exact .frame (below _ List.mem_cons_self)
  | choice _ _ => exact .choice ends fun s hs p hp => below p (mem_parents.mpr ⟨s, hs, hp⟩)

/-- **The merge with wildcards adds no end of a stack to a choice.** -/
theorem NoChoiceEnds.merge {a b : Tree} (na : NoChoiceEnds a) (nb : NoChoiceEnds b)
    (ha : Proper a) (hb : Proper b) : NoChoiceEnds (Tree.merge .wildcard a b) := by
  induction a using Tree.induction generalizing b with
  | step a ih =>
    by_cases sw : Swallows .wildcard a b
    · rw [merge_of_swallows sw]
      exact .bottom
    · refine (ha.merge hb).noChoiceEnds (fun ends => ?_) fun t ht => ?_
      · rw [ha.slots_merge hb sw] at ends
        rcases mem_states_mergeSlots.mp ends with ends | ends
        · exact sw ⟨rfl, .inl (na.eq_bottom ha ends)⟩
        · exact sw ⟨rfl, .inr (nb.eq_bottom hb ends)⟩
      · obtain ⟨s, hs, e⟩ := mem_parents.mp ht
        have h := (ha.merge hb).normal.ascending.at?_of_mem hs
        rw [e, ha.slots_merge hb sw] at h
        rcases at?_mergeSlots_cases ha.normal.ascending hb.normal.ascending h with
          h | h | ⟨p, q, hp, hq, rfl⟩
        · exact na.parent (mem_parents_of_at? h)
        · exact nb.parent (mem_parents_of_at? h)
        · have hp' := mem_parents_of_at? hp
          have hq' := mem_parents_of_at? hq
          exact ih p hp' (na.parent hp') (nb.parent hq') (ha.parent hp') (hb.parent hq')

/-- **Where only bottoms end a stack, no history covers another.** -/
theorem NoChoiceEnds.eq_of_covers {t : Tree} (n : NoChoiceEnds t) (ht : Proper t) {h h' : History}
    (hh : h ∈ t.histories) (hh' : h' ∈ t.histories) (cover : Covers h h') : h = h' := by
  induction h generalizing t h' with
  | nil =>
    rw [n.eq_bottom ht (ht.nil_mem_histories.mp hh)] at hh'
    exact (List.mem_singleton.mp hh').symm
  | cons x h ih =>
    cases h' with
    | nil => exact absurd (List.prefix_nil.mp cover) (List.cons_ne_nil _ _)
    | cons y h' =>
      obtain ⟨rfl, cover'⟩ := List.cons_prefix_cons.mp cover
      obtain ⟨_, p, hp, hm⟩ := ht.cons_mem_histories.mp hh
      obtain ⟨_, q, hq, hm'⟩ := ht.cons_mem_histories.mp hh'
      obtain rfl : p = q := by
        rw [hp] at hq
        exact Option.some.inj (Option.some.inj hq)
      have hp' := mem_parents_of_at? hp
      rw [ih (n.parent hp') (ht.parent hp') hm hm' cover']

/-- **The histories of a merge with wildcards are the minimal ones of the two trees.** -/
theorem NoChoiceEnds.mem_histories_merge {a b : Tree} (na : NoChoiceEnds a) (nb : NoChoiceEnds b)
    (ha : Proper a) (hb : Proper b) {h : History} :
    h ∈ (Tree.merge .wildcard a b).histories ↔
      (h ∈ a.histories ∨ h ∈ b.histories) ∧
        ∀ t, t ∈ a.histories ∨ t ∈ b.histories → Covers t h → t = h := by
  have nm := na.merge nb ha hb
  constructor
  · intro hh
    refine ⟨mem_of_mem_histories_merge ha hb hh, fun t ht cover => ?_⟩
    obtain ⟨t', ht', cover'⟩ := covered_by_merge ha hb ht
    have e : t' = h := nm.eq_of_covers (ha.merge hb) ht' hh (cover'.trans cover)
    exact cover.eq_of_length_le (e ▸ cover'.length_le)
  · rintro ⟨hh, least⟩
    obtain ⟨t, ht, cover⟩ := covered_by_merge ha hb hh
    rw [← least t (mem_of_mem_histories_merge ha hb ht) cover]
    exact ht

end Tree

end StackGraph
