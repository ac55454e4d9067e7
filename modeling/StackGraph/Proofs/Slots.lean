import Mathlib.Data.List.Sort
import StackGraph.Tree.Basic

/-!
# Slot lists as finite maps

A strictly ascending list of slots is a finite map from return states to what lies below them. Every
statement about such lists is made by looking up a state:

* `Slot.at?` -- what a list holds at a state;
* `Slot.Ascending.ext_at?` -- two ascending lists that hold the same at every state are equal;
* `Slot.Meet` -- what lies below a state of both of two lists;
* `NormalSlots` -- the lists that nodes and trees have for slots. It speaks about states and about
  which slots have something below, so it is kept by `Slot.map` (`normalSlots_map`), and two lists
  of one `Slot.shape` are normal together (`NormalSlots.of_shape_eq`).
-/

namespace StackGraph

namespace Slot

variable {α β : Type}

/-- A slot with something below it is no orphan. -/
theorem not_isOrphan_some {x : State} {p : α} : ¬ (⟨x, some p⟩ : Slot α).IsOrphan :=
  fun o => Option.some_ne_none p o.1

/-! ## 1. Ascending lists -/

/-- The states ascend strictly. -/
def Ascending (slots : List (Slot α)) : Prop := (states slots).Pairwise (· < ·)

@[simp] theorem states_nil : states ([] : List (Slot α)) = [] := rfl

@[simp] theorem states_cons (s : Slot α) (rest : List (Slot α)) :
    states (s :: rest) = s.state :: states rest := rfl

theorem mem_states {x : State} {slots : List (Slot α)} :
    x ∈ states slots ↔ ∃ s ∈ slots, s.state = x := List.mem_map

@[simp] theorem states_map (f : α → β) (slots : List (Slot α)) :
    states (slots.map (Slot.map f)) = states slots := by
  simp [states]

theorem ascending_cons {s : Slot α} {rest : List (Slot α)} :
    Ascending (s :: rest) ↔ (∀ x ∈ states rest, s.state < x) ∧ Ascending rest :=
  List.pairwise_cons

theorem ascending_map (f : α → β) {slots : List (Slot α)} :
    Ascending (slots.map (Slot.map f)) ↔ Ascending slots := by
  unfold Ascending
  rw [states_map]

/-! ## 2. Looking up a state -/

/-- What a list of slots holds at a state: nothing, or what lies below the first slot of the
    state. -/
def at? (x : State) (slots : List (Slot α)) : Option (Option α) :=
  (slots.find? (·.state = x)).map (·.parent)

@[simp] theorem at?_nil (x : State) : at? x ([] : List (Slot α)) = none := rfl

theorem at?_cons (x : State) (s : Slot α) (rest : List (Slot α)) :
    at? x (s :: rest) = if s.state = x then some s.parent else at? x rest := by
  unfold at?
  by_cases h : s.state = x
  · rw [if_pos h, List.find?_cons_of_pos (by simpa using h)]
    rfl
  · rw [if_neg h, List.find?_cons_of_neg (by simpa using h)]

theorem at?_map (f : α → β) (x : State) (slots : List (Slot α)) :
    at? x (slots.map (Slot.map f)) = (at? x slots).map (Option.map f) := by
  induction slots with
  | nil => rfl
  | cons s rest ih =>
    rw [List.map_cons, at?_cons, at?_cons, ih]
    by_cases e : s.state = x <;> simp [e]

/-- What a list holds is held by its first slot or by the rest. -/
theorem at?_cons_cases {x : State} {s : Slot α} {rest : List (Slot α)} {p : Option α}
    (h : at? x (s :: rest) = some p) : (s.state = x ∧ s.parent = p) ∨ at? x rest = some p := by
  rw [at?_cons] at h
  by_cases e : s.state = x
  · rw [if_pos e] at h
    exact .inl ⟨e, Option.some.inj h⟩
  · rw [if_neg e] at h
    exact .inr h

theorem at?_eq_none_iff {x : State} {slots : List (Slot α)} :
    at? x slots = none ↔ x ∉ states slots := by
  simp [at?, mem_states]

/-- What is looked up is a slot of the list. -/
theorem mem_of_at?_eq_some {x : State} {p : Option α} {slots : List (Slot α)}
    (h : at? x slots = some p) : ⟨x, p⟩ ∈ slots := by
  obtain ⟨s, hs, rfl⟩ := Option.map_eq_some_iff.mp h
  have e : s.state = x := by simpa using List.find?_some hs
  subst e
  exact List.mem_of_find?_eq_some hs

theorem mem_states_of_at? {x : State} {p : Option α} {slots : List (Slot α)}
    (h : at? x slots = some p) : x ∈ states slots :=
  mem_states.mpr ⟨_, mem_of_at?_eq_some h, rfl⟩

/-- What is held after the first slot is held by the whole list. -/
theorem at?_cons_of_lt {x : State} {s : Slot α} {rest : List (Slot α)} {p : Option α}
    (before : ∀ y ∈ states rest, s.state < y) (h : at? x rest = some p) :
    at? x (s :: rest) = some p := by
  have lt := before x (mem_states_of_at? h)
  rw [at?_cons, if_neg fun e => UInt64.lt_irrefl _ (e ▸ lt), h]

/-- Every slot of an ascending list is found at its state. -/
theorem Ascending.at?_of_mem {slots : List (Slot α)} (h : Ascending slots) {s : Slot α}
    (hs : s ∈ slots) : at? s.state slots = some s.parent := by
  induction slots with
  | nil => exact absurd hs List.not_mem_nil
  | cons t rest ih =>
    obtain ⟨before, asc⟩ := ascending_cons.mp h
    rw [at?_cons]
    rcases List.mem_cons.mp hs with rfl | hs
    · rw [if_pos rfl]
    · have lt := before s.state (mem_states.mpr ⟨s, hs, rfl⟩)
      rw [if_neg (fun e => UInt64.lt_irrefl _ (e ▸ lt))]
      exact ih asc hs

theorem Ascending.mem_iff {slots : List (Slot α)} (h : Ascending slots) {s : Slot α} :
    s ∈ slots ↔ at? s.state slots = some s.parent :=
  ⟨h.at?_of_mem, mem_of_at?_eq_some⟩

/-- **Ascending lists are equal when they hold the same at every state.** -/
theorem Ascending.ext_at? {ss ts : List (Slot α)} (hs : Ascending ss) (ht : Ascending ts)
    (h : ∀ x, at? x ss = at? x ts) : ss = ts := by
  have irrefl : Std.Irrefl fun s t : Slot α => s.state < t.state :=
    ⟨fun s => UInt64.lt_irrefl s.state⟩
  have antisymm : Std.Antisymm fun s t : Slot α => s.state < t.state :=
    ⟨fun _ _ lt lt' => absurd lt' (UInt64.lt_asymm lt)⟩
  refine (List.pairwise_map.mp hs).eq_of_mem_iff (List.pairwise_map.mp ht) fun s => ?_
  rw [hs.mem_iff, ht.mem_iff, h]

/-! ## 3. Below a state of both lists -/

/-- Both lists hold a state, the one over `p` and the other over `q`. -/
def Meet (ss ts : List (Slot α)) (p q : α) : Prop :=
  ∃ x, at? x ss = some (some p) ∧ at? x ts = some (some q)

theorem Meet.symm {ss ts : List (Slot α)} {p q : α} (h : Meet ss ts p q) : Meet ts ss q p :=
  let ⟨x, hp, hq⟩ := h
  ⟨x, hq, hp⟩

theorem Meet.mem_parents {ss ts : List (Slot α)} {p q : α} (h : Meet ss ts p q) :
    p ∈ parents ss ∧ q ∈ parents ts :=
  let ⟨_, hp, hq⟩ := h
  ⟨Slot.mem_parents.mpr ⟨_, mem_of_at?_eq_some hp, rfl⟩,
    Slot.mem_parents.mpr ⟨_, mem_of_at?_eq_some hq, rfl⟩⟩

/-- First slots of one state meet. -/
theorem Meet.of_heads {s t : Slot α} {ss ts : List (Slot α)} {p q : α} (e : s.state = t.state)
    (hp : s.parent = some p) (hq : t.parent = some q) : Meet (s :: ss) (t :: ts) p q := by
  refine ⟨s.state, ?_, ?_⟩
  · rw [at?_cons, if_pos rfl, hp]
  · rw [at?_cons, if_pos e.symm, hq]

theorem Meet.cons {s t : Slot α} {ss ts : List (Slot α)} {p q : α}
    (before : ∀ x ∈ states ss, s.state < x) (before' : ∀ x ∈ states ts, t.state < x)
    (h : Meet ss ts p q) : Meet (s :: ss) (t :: ts) p q :=
  let ⟨x, hp, hq⟩ := h
  ⟨x, at?_cons_of_lt before hp, at?_cons_of_lt before' hq⟩

theorem Meet.cons_left {s : Slot α} {ss ts : List (Slot α)} {p q : α}
    (before : ∀ x ∈ states ss, s.state < x) (h : Meet ss ts p q) : Meet (s :: ss) ts p q :=
  let ⟨x, hp, hq⟩ := h
  ⟨x, at?_cons_of_lt before hp, hq⟩

/-- A first slot before all states of the other list meets nothing. -/
theorem Meet.of_cons_left {s : Slot α} {ss ts : List (Slot α)} {p q : α}
    (before : ∀ x ∈ states ts, s.state < x) (h : Meet (s :: ss) ts p q) : Meet ss ts p q := by
  obtain ⟨x, hp, hq⟩ := h
  rcases at?_cons_cases hp with ⟨rfl, _⟩ | hp
  · exact absurd (before _ (mem_states_of_at? hq)) (UInt64.lt_irrefl _)
  · exact ⟨x, hp, hq⟩

/-- First slots of one state meet each other, or the rest of both lists meets. -/
theorem Meet.of_cons {s t : Slot α} {ss ts : List (Slot α)} {p q : α} (e : s.state = t.state)
    (before : ∀ x ∈ states ss, s.state < x) (before' : ∀ x ∈ states ts, s.state < x)
    (h : Meet (s :: ss) (t :: ts) p q) :
    (s.parent = some p ∧ t.parent = some q) ∨ Meet ss ts p q := by
  obtain ⟨x, hp, hq⟩ := h
  rcases at?_cons_cases hp with ⟨ep, hp⟩ | hp
  · rcases at?_cons_cases hq with ⟨_, hq⟩ | hq
    · exact .inl ⟨hp, hq⟩
    · exact absurd (before' x (mem_states_of_at? hq)) (ep ▸ UInt64.lt_irrefl _)
  · rcases at?_cons_cases hq with ⟨eq, _⟩ | hq
    · exact absurd (before x (mem_states_of_at? hp)) (eq ▸ e ▸ UInt64.lt_irrefl _)
    · exact .inr ⟨x, hp, hq⟩

theorem not_meet_end_left {x : State} {ts : List (Slot α)} {p q : α} :
    ¬ Meet [⟨x, none⟩] ts p q := by
  rintro ⟨y, hp, _⟩
  rcases at?_cons_cases hp with ⟨_, hp⟩ | hp <;> cases hp

theorem not_meet_end_right {x : State} {ss : List (Slot α)} {p q : α} :
    ¬ Meet ss [⟨x, none⟩] p q := fun h => not_meet_end_left h.symm

/-- What meets in the images of two lists are the images of what meets in the lists. -/
theorem meet_map (f : α → β) {ss ts : List (Slot α)} {u v : β} :
    Meet (ss.map (Slot.map f)) (ts.map (Slot.map f)) u v ↔
      ∃ p q, Meet ss ts p q ∧ f p = u ∧ f q = v := by
  simp only [Meet, at?_map, Option.map_eq_some_iff]
  constructor
  · rintro ⟨x, ⟨_, hp, p, rfl, rfl⟩, _, hq, q, rfl, rfl⟩
    exact ⟨p, q, ⟨x, hp, hq⟩, rfl, rfl⟩
  · rintro ⟨p, q, ⟨x, hp, hq⟩, rfl, rfl⟩
    exact ⟨x, ⟨_, hp, p, rfl, rfl⟩, _, hq, q, rfl, rfl⟩

/-! ## 4. Shapes -/

/-- A list of slots without what lies below them, though still with where something does. -/
def shape (slots : List (Slot α)) : List (Slot Unit) := slots.map (Slot.map fun _ => ())

end Slot

/-! ## 5. Normal lists -/

/-- What the slots of every node and of every tree satisfy: there is one, their states ascend, and
    only the bottom state may have nothing below. When the bottom is the only state, nothing lies
    below it. -/
structure NormalSlots {α : Type} (slots : List (Slot α)) : Prop where
  ne_nil : slots ≠ []
  ascending : Slot.Ascending slots
  no_orphan : ∀ s ∈ slots, ¬ s.IsOrphan
  lone_bottom : ∀ s, slots = [s] → s.state = State.bottom → s.parent = none

section Normal

variable {α β : Type}

/-- **Normality is a fact about states and about where something lies below.** -/
theorem normalSlots_map (f : α → β) {slots : List (Slot α)} :
    NormalSlots (slots.map (Slot.map f)) ↔ NormalSlots slots := by
  constructor
  · intro h
    refine ⟨fun e => h.ne_nil (by rw [e]; rfl), (Slot.ascending_map f).mp h.ascending, ?_, ?_⟩
    · intro s hs o
      exact h.no_orphan _ (List.mem_map_of_mem hs) ((Slot.isOrphan_map f s).mpr o)
    · rintro s rfl hb
      exact Option.map_eq_none_iff.mp (h.lone_bottom (s.map f) rfl hb)
  · intro h
    refine ⟨fun e => h.ne_nil (List.map_eq_nil_iff.mp e), (Slot.ascending_map f).mpr h.ascending,
      ?_, ?_⟩
    · intro t ht o
      obtain ⟨s, hs, rfl⟩ := List.mem_map.mp ht
      exact h.no_orphan s hs ((Slot.isOrphan_map f s).mp o)
    · intro t e hb
      obtain ⟨s, rfl, rfl⟩ := List.map_eq_singleton_iff.mp e
      exact Option.map_eq_none_iff.mpr (h.lone_bottom s rfl hb)

/-- Two lists of one shape are normal together. -/
theorem NormalSlots.of_shape_eq {ss : List (Slot α)} {ts : List (Slot β)} (h : NormalSlots ts)
    (e : Slot.shape ss = Slot.shape ts) : NormalSlots ss := by
  have h' : NormalSlots (Slot.shape ts) := (normalSlots_map _).mpr h
  rw [← e] at h'
  exact (normalSlots_map _).mp h'

/-- A slot that was looked up in a normal list has nothing below at the bottom state only. -/
theorem NormalSlots.eq_bottom_of_at? {slots : List (Slot α)} (h : NormalSlots slots) {x : State}
    (hx : Slot.at? x slots = some none) : x = State.bottom := by
  by_cases e : x = State.bottom
  · exact e
  · exact absurd ⟨rfl, e⟩ (h.no_orphan _ (Slot.mem_of_at?_eq_some hx))

theorem normalSlots_bottom : NormalSlots [(⟨State.bottom, none⟩ : Slot α)] := by
  refine ⟨List.cons_ne_nil _ _, List.pairwise_singleton _ _, ?_, ?_⟩
  · intro s hs o
    rw [List.mem_singleton.mp hs] at o
    exact o.2 rfl
  · intro s e _
    rw [← List.singleton_inj.mp e]

theorem normalSlots_frame {x : State} (hx : x ≠ State.bottom) (p : α) :
    NormalSlots [⟨x, some p⟩] := by
  refine ⟨List.cons_ne_nil _ _, List.pairwise_singleton _ _, ?_, ?_⟩
  · intro s hs o
    rw [List.mem_singleton.mp hs] at o
    exact Slot.not_isOrphan_some o
  · intro s e hb
    rw [← List.singleton_inj.mp e] at hb
    exact absurd hb hx

theorem normalSlots_pair {s t : Slot α} (lt : s.state < t.state) (hs : ¬ s.IsOrphan)
    (ht : ¬ t.IsOrphan) : NormalSlots [s, t] := by
  have asc : Slot.Ascending [s, t] :=
    Slot.ascending_cons.mpr ⟨fun _ h => List.mem_singleton.mp h ▸ lt, List.pairwise_singleton _ _⟩
  refine ⟨List.cons_ne_nil _ _, asc, fun u hu => ?_, fun _ e => nomatch e⟩
  rcases List.mem_cons.mp hu with rfl | hu
  · exact hs
  · exact List.mem_singleton.mp hu ▸ ht

theorem Tree.ProperSlots.normal {slots : List (Slot α)} (h : Tree.ProperSlots slots) :
    NormalSlots slots := by
  obtain ⟨two, asc, orphan⟩ := h
  refine ⟨fun e => ?_, asc, orphan, fun s e => ?_⟩
  · simp [e] at two
  · simp [e] at two

/-- **The three kinds of normal lists**: the slot of a bottom, the slot of a frame, the slots of a
    choice. -/
theorem NormalSlots.kinds {slots : List (Slot α)} (h : NormalSlots slots) :
    slots = [⟨State.bottom, none⟩] ∨ (∃ x p, x ≠ State.bottom ∧ slots = [⟨x, some p⟩]) ∨
      Tree.ProperSlots slots := by
  match slots with
  | [] => exact absurd rfl h.ne_nil
  | [⟨x, none⟩] =>
    have e : x = State.bottom := by
      by_cases e : x = State.bottom
      · exact e
      · exact absurd ⟨rfl, e⟩ (h.no_orphan _ List.mem_cons_self)
    exact .inl (by rw [e])
  | [⟨x, some p⟩] =>
    have hx : x ≠ State.bottom := fun e => by cases h.lone_bottom _ rfl e
    exact .inr (.inl ⟨x, p, hx, rfl⟩)
  | _ :: _ :: _ => exact .inr (.inr ⟨by simp, h.ascending, h.no_orphan⟩)

/-- A normal list with no state but the bottom is the one of a bottom. -/
theorem NormalSlots.eq_bottom_of_states {slots : List (Slot α)} (h : NormalSlots slots)
    (hs : ∀ x ∈ Slot.states slots, x = State.bottom) : slots = [⟨State.bottom, none⟩] := by
  rcases h.kinds with e | ⟨x, p, hx, rfl⟩ | ⟨two, asc, _⟩
  · exact e
  · exact absurd (hs x List.mem_cons_self) hx
  · match slots, two with
    | s :: t :: _, _ =>
      have lt : s.state < t.state := (Slot.ascending_cons.mp asc).1 _ List.mem_cons_self
      have es := hs s.state List.mem_cons_self
      have et := hs t.state (List.mem_cons_of_mem _ List.mem_cons_self)
      rw [es, et] at lt
      exact absurd lt (UInt64.lt_irrefl _)

end Normal

end StackGraph
