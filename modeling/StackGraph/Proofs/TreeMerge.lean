import StackGraph.Tree.Merge
import StackGraph.Proofs.Trees

/-!
# The merge of trees is a semilattice

Where no bottom swallows the other tree, the merge of two proper trees holds at each state what the
two hold there, merged (`Tree.at?_mergeSlots`). Every law of the merge is read off this: the trees
are compared state by state, and below a state the law holds by induction.

* `Tree.merge_eq` -- one equation for all kinds of trees;
* `Tree.Proper.merge` -- the merge of proper trees is proper;
* `Tree.merge_self`, `Tree.merge_comm`, `Tree.merge_assoc` -- the laws, in both modes.
-/

namespace StackGraph

namespace Tree

variable {mode : Mode}

/-! ## 1. Merging slot by slot -/

theorem mem_states_insertSlot {x y : State} {f : Option Tree → Option Tree} :
    ∀ {slots : List (Slot Tree)},
      x ∈ Slot.states (insertSlot y f slots) ↔ x = y ∨ x ∈ Slot.states slots
  | [] => by simp [insertSlot]
  | t :: rest => by
    unfold insertSlot
    split
    · simp
    · split
      · rename_i e
        simp [e]
      · rw [Slot.states_cons, List.mem_cons, mem_states_insertSlot, Slot.states_cons, List.mem_cons]
        exact or_left_comm

theorem ascending_insertSlot {y : State} {f : Option Tree → Option Tree} :
    ∀ {slots : List (Slot Tree)}, Slot.Ascending slots → Slot.Ascending (insertSlot y f slots)
  | [], _ => List.pairwise_singleton _ _
  | t :: rest, h => by
    obtain ⟨before, asc⟩ := Slot.ascending_cons.mp h
    unfold insertSlot
    split
    · rename_i lt
      refine Slot.ascending_cons.mpr ⟨fun x hx => ?_, h⟩
      rcases List.mem_cons.mp hx with rfl | hx
      · exact lt
      · exact UInt64.lt_trans lt (before x hx)
    · rename_i le
      split
      · rename_i e
        exact Slot.ascending_cons.mpr ⟨fun x hx => e ▸ before x hx, asc⟩
      · rename_i ne
        refine Slot.ascending_cons.mpr ⟨fun x hx => ?_, ascending_insertSlot asc⟩
        rcases mem_states_insertSlot.mp hx with rfl | hx
        · rcases UInt64.lt_or_lt_of_ne ne with lt | lt
          · exact absurd lt le
          · exact lt
        · exact before x hx

theorem at?_insertSlot {x y : State} {f : Option Tree → Option Tree} :
    ∀ {slots : List (Slot Tree)}, Slot.Ascending slots →
      Slot.at? x (insertSlot y f slots) =
        if y = x then some (f (Slot.at? x slots).join) else Slot.at? x slots
  | [], _ => by
    unfold insertSlot
    rw [Slot.at?_cons]
    rfl
  | t :: rest, h => by
    obtain ⟨before, asc⟩ := Slot.ascending_cons.mp h
    unfold insertSlot
    split
    · rename_i lt
      rw [Slot.at?_cons]
      by_cases e : y = x
      · -- the state comes before every state of the list, which therefore does not hold it
        have absent : Slot.at? x (t :: rest) = none := by
          refine Slot.at?_eq_none_iff.mpr fun hx => ?_
          rcases List.mem_cons.mp hx with rfl | hx
          · exact UInt64.lt_irrefl _ (e ▸ lt)
          · exact UInt64.lt_irrefl _ (e ▸ UInt64.lt_trans lt (before x hx))
        rw [if_pos e, if_pos e, absent]
        rfl
      · rw [if_neg e, if_neg e]
    · split
      · rename_i e
        rw [Slot.at?_cons, Slot.at?_cons, ← e]
        by_cases ex : y = x
        · rw [if_pos ex, if_pos ex, if_pos ex]
          rfl
        · rw [if_neg ex, if_neg ex, if_neg ex]
      · rename_i ne
        rw [Slot.at?_cons, Slot.at?_cons, at?_insertSlot asc]
        by_cases ex : t.state = x
        · rw [if_pos ex, if_pos ex, if_neg (fun e => ne (e.trans ex.symm))]
        · rw [if_neg ex, if_neg ex]

/-- A slot of the left list is inserted, whatever lies below it. -/
theorem mergeSlots_cons (s : Slot Tree) (left right : List (Slot Tree)) :
    mergeSlots mode (s :: left) right =
      insertSlot s.state (Option.merge (merge mode) s.parent) (mergeSlots mode left right) := by
  obtain ⟨state, parent⟩ := s
  cases parent with
  | none =>
    have e : (fun q => q) = Option.merge (merge mode) none := by
      funext q
      rw [Option.merge_none_left]
    rw [← e]
    rfl
  | some p =>
    have e : joinWith p (merge mode p) = Option.merge (merge mode) (some p) := by
      funext q
      cases q <;> rfl
    rw [← e]
    rfl

theorem mem_states_mergeSlots {x : State} {left right : List (Slot Tree)} :
    x ∈ Slot.states (mergeSlots mode left right) ↔
      x ∈ Slot.states left ∨ x ∈ Slot.states right := by
  induction left with
  | nil => simp [mergeSlots]
  | cons s left ih =>
    rw [mergeSlots_cons, mem_states_insertSlot, ih, Slot.states_cons, List.mem_cons, or_assoc]

theorem ascending_mergeSlots {left right : List (Slot Tree)} (h : Slot.Ascending right) :
    Slot.Ascending (mergeSlots mode left right) := by
  induction left with
  | nil => exact h
  | cons s left ih =>
    rw [mergeSlots_cons]
    exact ascending_insertSlot ih

/-! The two lists are merged from the front, the smaller state first. -/

theorem insertSlot_of_lt {y : State} {f : Option Tree → Option Tree} {slots : List (Slot Tree)}
    (h : ∀ x ∈ Slot.states slots, y < x) : insertSlot y f slots = ⟨y, f none⟩ :: slots := by
  cases slots with
  | nil => rfl
  | cons t rest => exact if_pos (h t.state List.mem_cons_self)

/-- A left slot before all others comes first. -/
theorem mergeSlots_cons_left {s : Slot Tree} {left right : List (Slot Tree)}
    (hl : ∀ x ∈ Slot.states left, s.state < x) (hr : ∀ x ∈ Slot.states right, s.state < x) :
    mergeSlots mode (s :: left) right = s :: mergeSlots mode left right := by
  have first : ∀ x ∈ Slot.states (mergeSlots mode left right), s.state < x :=
    fun x hx => (mem_states_mergeSlots.mp hx).elim (hl x) (hr x)
  rw [mergeSlots_cons, insertSlot_of_lt first, Option.merge_none_right]

/-- A right slot before all left ones comes first. -/
theorem mergeSlots_cons_right {t : Slot Tree} {left right : List (Slot Tree)}
    (hl : ∀ x ∈ Slot.states left, t.state < x) :
    mergeSlots mode left (t :: right) = t :: mergeSlots mode left right := by
  induction left with
  | nil => rfl
  | cons s left ih =>
    have lt : t.state < s.state := hl s.state List.mem_cons_self
    rw [mergeSlots_cons, mergeSlots_cons, ih fun x hx => hl x (List.mem_cons_of_mem _ hx)]
    conv_lhs => unfold insertSlot
    rw [if_neg (UInt64.lt_asymm lt), if_neg fun e => UInt64.lt_irrefl _ (e ▸ lt)]

/-- Two slots of one state before all others come first, joined. -/
theorem mergeSlots_cons_cons {s t : Slot Tree} {left right : List (Slot Tree)}
    (e : s.state = t.state) (hl : ∀ x ∈ Slot.states left, s.state < x) :
    mergeSlots mode (s :: left) (t :: right) =
      ⟨s.state, Option.merge (merge mode) s.parent t.parent⟩ :: mergeSlots mode left right := by
  rw [mergeSlots_cons, mergeSlots_cons_right (e ▸ hl)]
  unfold insertSlot
  rw [if_neg (e ▸ UInt64.lt_irrefl _), if_pos e]

/-- **Merged lists hold at each state what the two lists hold there, merged.** -/
theorem at?_mergeSlots {left right : List (Slot Tree)} (hl : Slot.Ascending left)
    (hr : Slot.Ascending right) (x : State) :
    Slot.at? x (mergeSlots mode left right) =
      Option.merge (Option.merge (merge mode)) (Slot.at? x left) (Slot.at? x right) := by
  induction left with
  | nil => simp [mergeSlots]
  | cons s left ih =>
    obtain ⟨before, asc⟩ := Slot.ascending_cons.mp hl
    rw [mergeSlots_cons, at?_insertSlot (ascending_mergeSlots hr), Slot.at?_cons, ih asc]
    by_cases e : s.state = x
    · have absent : Slot.at? x left = none :=
        Slot.at?_eq_none_iff.mpr fun hx => UInt64.lt_irrefl _ (e ▸ before x hx)
      rw [if_pos e, if_pos e, absent, Option.merge_none_left]
      cases Slot.at? x right <;> simp
    · rw [if_neg e, if_neg e]

/-- What merged lists hold above a tree comes from one side, or from both. -/
theorem at?_mergeSlots_cases {left right : List (Slot Tree)} (hl : Slot.Ascending left)
    (hr : Slot.Ascending right) {x : State} {t : Tree}
    (h : Slot.at? x (mergeSlots mode left right) = some (some t)) :
    Slot.at? x left = some (some t) ∨ Slot.at? x right = some (some t) ∨
      ∃ p q, Slot.at? x left = some (some p) ∧ Slot.at? x right = some (some q) ∧
        merge mode p q = t := by
  rw [at?_mergeSlots hl hr] at h
  cases el : Slot.at? x left with
  | none =>
    rw [el, Option.merge_none_left] at h
    exact .inr (.inl h)
  | some below =>
    cases er : Slot.at? x right with
    | none =>
      rw [el, er, Option.merge_none_right] at h
      exact .inl h
    | some below' =>
      rw [el, er, Option.merge_some_some, Option.some.injEq] at h
      cases below with
      | none =>
        rw [Option.merge_none_left] at h
        exact .inr (.inl (by rw [h]))
      | some p =>
        cases below' with
        | none =>
          rw [Option.merge_none_right] at h
          exact .inl (by rw [h])
        | some q => exact .inr (.inr ⟨p, q, rfl, rfl, Option.some.inj h⟩)

/-- The merge of normal lists is normal. -/
theorem normalSlots_mergeSlots {left right : List (Slot Tree)} (hl : NormalSlots left)
    (hr : NormalSlots right) : NormalSlots (mergeSlots mode left right) := by
  have asc : Slot.Ascending (mergeSlots mode left right) := ascending_mergeSlots hr.ascending
  have lookUp (x : State) : Slot.at? x (mergeSlots mode left right) = _ :=
    at?_mergeSlots hl.ascending hr.ascending x
  refine ⟨fun e => ?_, asc, fun s hs o => ?_, fun s e hb => ?_⟩
  · obtain ⟨t, rest, et⟩ := List.exists_cons_of_ne_nil hl.ne_nil
    have mem : t.state ∈ Slot.states (mergeSlots mode left right) :=
      mem_states_mergeSlots.mpr (.inl (by rw [et]; exact List.mem_cons_self))
    rw [e] at mem
    exact List.not_mem_nil mem
  · -- nothing lies below a merged slot only when nothing lies below it on either side
    have h := asc.at?_of_mem hs
    rw [o.1, lookUp] at h
    rcases Option.merge_eq_some_iff.mp h with ⟨h, _⟩ | ⟨_, h⟩ | ⟨p, q, h, _, e⟩
    · exact o.2 (hl.eq_bottom_of_at? h)
    · exact o.2 (hr.eq_bottom_of_at? h)
    · rw [(Option.merge_eq_none_iff.mp e).1] at h
      exact o.2 (hl.eq_bottom_of_at? h)
  · have only : ∀ x ∈ Slot.states (mergeSlots mode left right), x = State.bottom := by
      intro x hx
      rw [e] at hx
      exact (List.mem_singleton.mp hx).trans hb
    have el := hl.eq_bottom_of_states fun x hx => only x (mem_states_mergeSlots.mpr (.inl hx))
    have er := hr.eq_bottom_of_states fun x hx => only x (mem_states_mergeSlots.mpr (.inr hx))
    have h := asc.at?_of_mem (s := s) (by rw [e]; exact List.mem_cons_self)
    rw [lookUp, el, er, hb] at h
    exact (Option.some.inj h).symm

/-! ## 2. Merging trees -/

/-- **The merge of two trees of any kind**: a bottom that swallows, or the merged slots. -/
theorem merge_eq (a b : Tree) :
    merge mode a b =
      if Swallows mode a b then .bottom else ofSlots (mergeSlots mode a.slots b.slots) := by
  cases a with
  | bottom =>
    unfold merge
    rfl
  | frame x p =>
    unfold merge
    rfl
  | choice slots =>
    unfold merge
    rfl

theorem Swallows.symm {a b : Tree} (h : Swallows mode a b) : Swallows mode b a := ⟨h.1, h.2.symm⟩

theorem merge_of_swallows {a b : Tree} (h : Swallows mode a b) : merge mode a b = .bottom := by
  rw [merge_eq, if_pos h]

theorem Proper.slots_merge {a b : Tree} (ha : Proper a) (hb : Proper b)
    (h : ¬ Swallows mode a b) : (merge mode a b).slots = mergeSlots mode a.slots b.slots := by
  rw [merge_eq, if_neg h, slots_ofSlots (normalSlots_mergeSlots ha.normal hb.normal)]

theorem Proper.at?_merge {a b : Tree} (ha : Proper a) (hb : Proper b) (h : ¬ Swallows mode a b)
    (x : State) :
    Slot.at? x (merge mode a b).slots =
      Option.merge (Option.merge (merge mode)) (Slot.at? x a.slots) (Slot.at? x b.slots) := by
  rw [ha.slots_merge hb h, at?_mergeSlots ha.normal.ascending hb.normal.ascending]

/-- **The merge of proper trees is proper.** -/
theorem Proper.merge {a b : Tree} (ha : Proper a) (hb : Proper b) :
    Proper (merge mode a b) := by
  induction a using Tree.induction generalizing b with
  | step a ih =>
    rw [merge_eq]
    split
    · exact .bottom
    · refine proper_ofSlots (normalSlots_mergeSlots ha.normal hb.normal) fun s hs t ht => ?_
      have h := (ascending_mergeSlots hb.normal.ascending).at?_of_mem hs
      rw [ht] at h
      rcases at?_mergeSlots_cases ha.normal.ascending hb.normal.ascending h with
        h | h | ⟨p, q, hp, hq, rfl⟩
      · exact ha.parent (mem_parents_of_at? h)
      · exact hb.parent (mem_parents_of_at? h)
      · have below := mem_parents_of_at? hp
        exact ih p below (ha.parent below) (hb.parent (mem_parents_of_at? hq))

/-- The merge is a bottom only where a bottom was merged. -/
theorem Proper.eq_bottom_of_merge {a b : Tree} (ha : Proper a) (hb : Proper b)
    (h : Tree.merge mode a b = .bottom) : a = .bottom ∨ b = .bottom := by
  by_cases sw : Swallows mode a b
  · exact sw.2
  · have e := ha.slots_merge hb sw
    rw [h] at e
    refine .inl (ha.eq_bottom_of_states fun x hx => ?_)
    have hx' : x ∈ Slot.states (mergeSlots mode a.slots b.slots) :=
      mem_states_mergeSlots.mpr (.inl hx)
    rw [← e] at hx'
    exact List.mem_singleton.mp hx'

/-! Frames and bottoms. -/

theorem lt_bottom {x : State} (hx : x ≠ State.bottom) : x < State.bottom :=
  UInt64.lt_of_le_of_ne (State.le_bottom x) hx

theorem not_swallows_frame {x y : State} {p q : Tree} :
    ¬ Swallows mode (.frame x p) (.frame y q) := by
  rintro ⟨_, h | h⟩ <;> cases h

theorem merge_frame_same {x : State} (hx : x ≠ State.bottom) (p q : Tree) :
    merge mode (.frame x p) (.frame x q) = .frame x (merge mode p q) := by
  rw [merge_eq, if_neg not_swallows_frame]
  simp only [slots]
  rw [mergeSlots_cons_cons (s := ⟨x, some p⟩) (t := ⟨x, some q⟩) rfl
    fun _ h => absurd h List.not_mem_nil]
  exact ofSlots_frame hx _

theorem merge_frame_lt {x y : State} (lt : x < y) (p q : Tree) :
    merge mode (.frame x p) (.frame y q) = .choice [⟨x, some p⟩, ⟨y, some q⟩] := by
  rw [merge_eq, if_neg not_swallows_frame]
  simp only [slots]
  rw [mergeSlots_cons_left (fun _ h => absurd h List.not_mem_nil)
    fun _ h => List.mem_singleton.mp h ▸ lt]
  rfl

theorem merge_frame_gt {x y : State} (lt : y < x) (p q : Tree) :
    merge mode (.frame x p) (.frame y q) = .choice [⟨y, some q⟩, ⟨x, some p⟩] := by
  rw [merge_eq, if_neg not_swallows_frame]
  simp only [slots]
  rw [mergeSlots_cons_right fun _ h => List.mem_singleton.mp h ▸ lt]
  rfl

theorem merge_exact_bottom_frame {y : State} (hy : y ≠ State.bottom) (q : Tree) :
    merge .exact .bottom (.frame y q) = .choice [⟨y, some q⟩, ⟨State.bottom, none⟩] := by
  rw [merge_eq, if_neg fun h => nomatch h.1]
  simp only [slots]
  rw [mergeSlots_cons_right fun _ h => List.mem_singleton.mp h ▸ lt_bottom hy]
  rfl

theorem merge_exact_frame_bottom {x : State} (hx : x ≠ State.bottom) (p : Tree) :
    merge .exact (.frame x p) .bottom = .choice [⟨x, some p⟩, ⟨State.bottom, none⟩] := by
  rw [merge_eq, if_neg fun h => nomatch h.1]
  simp only [slots]
  rw [mergeSlots_cons_left (fun _ h => absurd h List.not_mem_nil)
    fun _ h => List.mem_singleton.mp h ▸ lt_bottom hx]
  rfl

/-! ## 3. The laws -/

section Option

variable {α : Type} {f : α → α → α} {o o' o'' : Option α}

theorem optionMerge_self (h : ∀ p, o = some p → f p p = p) : Option.merge f o o = o := by
  cases o with
  | none => rfl
  | some p => rw [Option.merge_some_some, h p rfl]

theorem optionMerge_comm (h : ∀ p q, o = some p → o' = some q → f p q = f q p) :
    Option.merge f o o' = Option.merge f o' o := by
  cases o with
  | none => simp
  | some p =>
    cases o' with
    | none => simp
    | some q => rw [Option.merge_some_some, Option.merge_some_some, h p q rfl rfl]

theorem optionMerge_assoc
    (h : ∀ p q r, o = some p → o' = some q → o'' = some r → f (f p q) r = f p (f q r)) :
    Option.merge f (Option.merge f o o') o'' = Option.merge f o (Option.merge f o' o'') := by
  cases o with
  | none => simp
  | some p =>
    cases o' with
    | none => simp
    | some q =>
      cases o'' with
      | none => simp
      | some r => simp only [Option.merge_some_some, h p q r rfl rfl rfl]

end Option

/-- **A tree merged with itself is the tree.** -/
theorem merge_self {a : Tree} (ha : Proper a) : merge mode a a = a := by
  induction a using Tree.induction with
  | step a ih =>
    by_cases sw : Swallows mode a a
    · rw [merge_of_swallows sw]
      exact (sw.2.elim id id).symm
    · refine (ha.merge ha).ext ha fun x => ?_
      rw [ha.at?_merge ha sw]
      refine optionMerge_self fun below h => optionMerge_self fun p hp => ?_
      have hp' := mem_parents_of_at? (hp ▸ h)
      exact ih p hp' (ha.parent hp')

/-- **The merge does not depend on the order of the trees.** -/
theorem merge_comm {a b : Tree} (ha : Proper a) (hb : Proper b) :
    merge mode a b = merge mode b a := by
  induction a using Tree.induction generalizing b with
  | step a ih =>
    by_cases sw : Swallows mode a b
    · rw [merge_of_swallows sw, merge_of_swallows sw.symm]
    · refine (ha.merge hb).ext (hb.merge ha) fun x => ?_
      rw [ha.at?_merge hb sw, hb.at?_merge ha (fun h => sw h.symm)]
      refine optionMerge_comm fun below below' h h' => optionMerge_comm fun p q hp hq => ?_
      have hp' := mem_parents_of_at? (hp ▸ h)
      have hq' := mem_parents_of_at? (hq ▸ h')
      exact ih p hp' (ha.parent hp') (hb.parent hq')

theorem merge_bottom_left (b : Tree) : merge .wildcard .bottom b = .bottom :=
  merge_of_swallows ⟨rfl, .inl rfl⟩

theorem merge_bottom_right (a : Tree) : merge .wildcard a .bottom = .bottom :=
  merge_of_swallows ⟨rfl, .inr rfl⟩

/-- **The merge does not depend on the bracketing.** -/
theorem merge_assoc {a b c : Tree} (ha : Proper a) (hb : Proper b) (hc : Proper c) :
    merge mode (merge mode a b) c = merge mode a (merge mode b c) := by
  induction a using Tree.induction generalizing b c with
  | step a ih =>
    by_cases sw : mode = .wildcard ∧ (a = .bottom ∨ b = .bottom ∨ c = .bottom)
    · -- a bottom among the three swallows everything in both bracketings
      obtain ⟨rfl, rfl | rfl | rfl⟩ := sw
      · simp only [merge_bottom_left]
      · simp only [merge_bottom_left, merge_bottom_right]
      · simp only [merge_bottom_right]
    · have hab : ¬ Swallows mode a b := fun h => sw ⟨h.1, h.2.imp_right .inl⟩
      have hbc : ¬ Swallows mode b c := fun h => sw ⟨h.1, .inr h.2⟩
      have hab_c : ¬ Swallows mode (merge mode a b) c := by
        rintro ⟨hm, h | h⟩
        · exact hab ⟨hm, ha.eq_bottom_of_merge hb h⟩
        · exact hbc ⟨hm, .inr h⟩
      have ha_bc : ¬ Swallows mode a (merge mode b c) := by
        rintro ⟨hm, h | h⟩
        · exact hab ⟨hm, .inl h⟩
        · exact hbc ⟨hm, hb.eq_bottom_of_merge hc h⟩
      refine ((ha.merge hb).merge hc).ext (ha.merge (hb.merge hc)) fun x => ?_
      rw [(ha.merge hb).at?_merge hc hab_c, ha.at?_merge hb hab, ha.at?_merge (hb.merge hc) ha_bc,
        hb.at?_merge hc hbc]
      refine optionMerge_assoc fun _ _ _ h h' h'' => optionMerge_assoc fun p q r hp hq hr => ?_
      have hp' := mem_parents_of_at? (hp ▸ h)
      have hq' := mem_parents_of_at? (hq ▸ h')
      have hr' := mem_parents_of_at? (hr ▸ h'')
      exact ih p hp' (ha.parent hp') (hb.parent hq') (hc.parent hr')

end Tree

end StackGraph
