import StackGraph.Proofs.Merging

/-!
# Runs of a merge

A merge that ran to its end is told apart by what it did to its memo. It ended at once, it was
answered by the memo, or it was computed: then it merged pairs of nodes below both operands, one pair
after the other, put a node together, and told the memo.

* `Arena.storings` -- what was given to memos, read off the journal;
* `Arena.Alike`, `GraphM.Silent` -- computations that leave the memo and what was given to it;
* `memoized_ok` -- a memoized computation was answered, or it ran and was remembered;
* `WeaveRun`, `InTurn` -- the merges below two lists of slots, one after the other;
* `merge_eq` -- one equation for all kinds of nodes;
* `MergeRun`, `merge_ok` -- **the three ways a merge goes**. A computed merge is right exactly when
  all merges below it are.
-/

namespace StackGraph

open Node

/-! ## 1. Peeling a run -/

namespace GraphM

variable {τ α β : Type} {act : GraphM τ α} {s s' : Arena τ}

/-- A run of two computations is a run of the first and a run of the second after it. -/
theorem bind_ok {f : α → GraphM τ β} {b : β} (run : (act >>= f) s = .ok b s') :
    ∃ a s₁, act s = .ok a s₁ ∧ f a s₁ = .ok b s' := by
  cases e : act s with
  | ok a s₁ => exact ⟨a, s₁, rfl, bind_run_of_ok e f ▸ run⟩
  | error failure s₁ =>
    rw [bind_run_of_error e] at run
    cases run

theorem map_ok {f : α → β} {b : β} (run : (f <$> act) s = .ok b s') :
    ∃ a, act s = .ok a s' ∧ f a = b := by
  rw [map_eq_pure_bind] at run
  obtain ⟨a, s₁, ran, done⟩ := bind_ok run
  obtain ⟨rfl, rfl⟩ := EStateM.Result.ok.inj done
  exact ⟨a, ran, rfl⟩

end GraphM

/-! ## 2. What was given to memos -/

/-- What a memo is given: a pair of nodes and their merge. -/
abbrev Entry := (Node × Node) × Node

/-- What an event gave to a memo. -/
def Event.entry? : Event → Option Entry
  | .stored a b merged => some ((a, b), merged)
  | _ => none

namespace Arena

variable {τ : Type}

/-- What was given to memos, the earliest first. -/
def storings (s : Arena τ) : List Entry := s.journal.toList.filterMap Event.entry?

@[simp] theorem storings_push (next : Nat) (journal : Array Event) (e : Event) (t : τ) :
    storings ⟨next, journal.push e, t⟩ = storings ⟨next, journal, t⟩ ++ e.entry?.toList := by
  cases h : e.entry? <;> simp [storings, h]

/-- Nothing was done to the table, and nothing was given to a memo. -/
structure Alike (s s' : Arena τ) : Prop where
  table_eq : s'.table = s.table
  storings_eq : s'.storings = s.storings

theorem Alike.refl (s : Arena τ) : s.Alike s := ⟨rfl, rfl⟩

theorem Alike.trans {s s' s'' : Arena τ} (h : s.Alike s') (h' : s'.Alike s'') : s.Alike s'' :=
  ⟨h'.table_eq.trans h.table_eq, h'.storings_eq.trans h.storings_eq⟩

theorem alike_push {s : Arena τ} {e : Event} (h : e.entry? = none) :
    s.Alike { s with journal := s.journal.push e } := by
  refine ⟨rfl, ?_⟩
  rw [storings_push, h]
  exact List.append_nil _

end Arena

namespace GraphM

variable {τ α β : Type}

/-- The arena in which a computation ends, whether it succeeds or fails. -/
def last (act : GraphM τ α) (s : Arena τ) : Arena τ :=
  match act s with
  | .ok _ s' => s'
  | .error _ s' => s'

/-- The computation leaves the table, and gives nothing to a memo. -/
def Silent (act : GraphM τ α) : Prop := ∀ s : Arena τ, s.Alike (last act s)

namespace Silent

variable {act : GraphM τ α}

theorem ok (h : Silent act) {s s' : Arena τ} {a : α} (run : act s = .ok a s') : s.Alike s' := by
  have h := h s
  unfold last at h
  rw [run] at h
  exact h

theorem error (h : Silent act) {s s' : Arena τ} {e : Failure} (run : act s = .error e s') :
    s.Alike s' := by
  have h := h s
  unfold last at h
  rw [run] at h
  exact h

protected theorem pure (a : α) : Silent (pure a : GraphM τ α) := fun s => .refl s

protected theorem throw (e : Failure) : Silent (throw e : GraphM τ α) := fun s => .refl s

theorem table : Silent (GraphM.table : GraphM τ τ) := fun s => .refl s

theorem fresh : Silent (GraphM.fresh : GraphM τ Nat) := fun _ => ⟨rfl, rfl⟩

theorem emit {e : Event} (h : e.entry? = none) : Silent (GraphM.emit e : GraphM τ Unit) :=
  fun _ => Arena.alike_push h

theorem lift (x : Except Failure α) : Silent (GraphM.lift x : GraphM τ α) := by
  cases x with
  | ok a => exact .pure a
  | error e => exact .throw e

protected theorem bind {f : α → GraphM τ β} (h : Silent act) (hf : ∀ a, Silent (f a)) :
    Silent (act >>= f) := by
  intro s
  cases run : act s with
  | ok a s₁ =>
    have e : last (act >>= f) s = last (f a) s₁ := by rw [last, bind_run_of_ok run, last]
    exact e ▸ (h.ok run).trans (hf a s₁)
  | error e s₁ =>
    have e : last (act >>= f) s = s₁ := by rw [last, bind_run_of_error run]
    exact e ▸ h.error run

theorem mapM {f : α → GraphM τ β} (h : ∀ a, Silent (f a)) (xs : List α) : Silent (xs.mapM f) := by
  induction xs with
  | nil => exact .pure []
  | cons x xs ih =>
    rw [List.mapM_cons]
    exact (h x).bind fun y => ih.bind fun ys => .pure (y :: ys)

theorem foldlM {f : β → α → GraphM τ β} (h : ∀ b a, Silent (f b a)) (xs : List α) (b : β) :
    Silent (xs.foldlM f b) := by
  induction xs generalizing b with
  | nil => exact .pure b
  | cons x xs ih =>
    rw [List.foldlM_cons]
    exact (h b x).bind fun b' => ih b'

theorem push (below : Node) (state : State) : Silent (Node.push (τ := τ) below state) := by
  unfold Node.push
  split
  · split
    · exact .pure _
    · exact .throw _
  · exact fresh.bind fun _ => .pure _

theorem ofSlot (s : Slot Node) : Silent (Node.ofSlot (τ := τ) s) := by
  obtain ⟨state, parent⟩ := s
  cases parent with
  | none =>
    show Silent (if state = State.bottom then pure empty else throw (.parentless state))
    split
    · exact .pure _
    · exact .throw _
  | some below => exact push below state

theorem ofSlots (slots : List (Slot Node)) : Silent (Node.ofSlots (τ := τ) slots) := by
  unfold Node.ofSlots
  split
  · exact .throw _
  · unfold Node.ofCheckedSlots
    split
    · exact ofSlot _
    · exact fresh.bind fun _ => .pure _

theorem joinRoots (mode : Mode) (a b : Node) :
    Silent (StackGraph.joinRoots (μ := τ) mode a b) := by
  unfold StackGraph.joinRoots
  refine (emit rfl).bind fun _ => ?_
  split
  · exact .pure _
  · split
    · exact .pure _
    · exact ofSlots _
    · exact ofSlots _

end Silent

end GraphM

/-! ## 3. Memoized computations -/

variable {μ : Type} [Memo μ]

/-- What a memo answers for a pair, in the order given or else in the other one. -/
def Memo.known? (t : μ) (a b : Node) : Option Node := (Memo.find? t a b).or (Memo.find? t b a)

/-- The arena in which a memo was asked for a pair in vain. -/
def Arena.asked (s : Arena μ) (a b : Node) : Arena μ :=
  { s with journal := (s.journal.push (.asked a b none)).push (.asked b a none) }

omit [Memo μ] in
theorem Arena.alike_asked (s : Arena μ) (a b : Node) : s.Alike (s.asked a b) :=
  (alike_push rfl).trans (alike_push rfl)

theorem lookUp_ok {a b : Node} {s s' : Arena μ} {found : Option Node}
    (run : lookUp a b s = .ok found s') :
    found = Memo.known? s.table a b ∧ s.Alike s' ∧ (found = none → s' = s.asked a b) := by
  unfold Memo.known?
  cases h : Memo.find? s.table a b with
  | some m =>
    unfold lookUp at run
    rw [GraphM.bind_run_of_ok (ask_run a b s), h] at run
    obtain ⟨rfl, rfl⟩ := EStateM.Result.ok.inj run
    exact ⟨rfl, (Arena.alike_push rfl).trans (Arena.alike_push rfl), nofun⟩
  | none =>
    cases h' : Memo.find? s.table b a with
    | some m =>
      unfold lookUp at run
      rw [GraphM.bind_run_of_ok (ask_run a b s), h] at run
      simp only at run
      rw [GraphM.bind_run_of_ok (ask_run b a _), h'] at run
      obtain ⟨rfl, rfl⟩ := EStateM.Result.ok.inj run
      exact ⟨rfl, ⟨rfl, by simp [Arena.storings, Event.entry?]⟩, nofun⟩
    | none =>
      rw [lookUp_run_of_none h h'] at run
      obtain ⟨rfl, rfl⟩ := EStateM.Result.ok.inj run
      exact ⟨rfl, s.alike_asked a b, fun _ => rfl⟩

/-- **A memoized computation was answered by the memo, or it ran and was remembered.** -/
theorem memoized_ok {a b m : Node} {compute : GraphM μ Node} {s s' : Arena μ}
    (run : memoized a b compute s = .ok m s') :
    (Memo.known? s.table a b = some m ∧ s.Alike s') ∨
    (Memo.known? s.table a b = none ∧ ∃ s₁, compute (s.asked a b) = .ok m s₁ ∧
      s' = ⟨s₁.next, s₁.journal.push (.stored a b m), Memo.store s₁.table a b m⟩) := by
  unfold memoized at run
  obtain ⟨found, s₁, asked, run⟩ := GraphM.bind_ok run
  obtain ⟨known, alike, vain⟩ := lookUp_ok asked
  rw [← known]
  cases found with
  | some merged =>
    obtain ⟨rfl, rfl⟩ := EStateM.Result.ok.inj run
    exact .inl ⟨rfl, alike⟩
  | none =>
    obtain rfl := vain rfl
    obtain ⟨merged, s₂, computed, run⟩ := GraphM.bind_ok run
    rw [GraphM.bind_run_of_ok (remember_run a b merged s₂)] at run
    obtain ⟨rfl, rfl⟩ := EStateM.Result.ok.inj run
    exact .inr ⟨rfl, s₂, computed, rfl⟩

/-! ## 4. The merges below two nodes -/

/-- Two nodes below one state, and what they were merged to. -/
structure Junction where
  left : Node
  right : Node
  merged : Node

/-- What the two nodes were merged to is their merge. -/
def Junction.Right (mode : Mode) (j : Junction) : Prop :=
  j.merged.tree = Tree.merge mode j.left.tree j.right.tree

/-- The merges were made one after the other. -/
inductive InTurn (mode : Mode) : List Junction → Arena μ → Arena μ → Prop where
  | nil (s : Arena μ) : InTurn mode [] s s
  | cons {j : Junction} {js : List Junction} {s s₁ s' : Arena μ}
      (run : merge mode j.left j.right s = .ok j.merged s₁) (rest : InTurn mode js s₁ s') :
    InTurn mode (j :: js) s s'

theorem InTurn.append {mode : Mode} {js js' : List Junction} {s s₁ s' : Arena μ}
    (h : InTurn mode js s s₁) (h' : InTurn mode js' s₁ s') : InTurn mode (js ++ js') s s' := by
  induction h with
  | nil => exact h'
  | cons run _ ih => exact .cons run (ih h')

/-- How what lies below a state of both lists came about: it was taken over from one side, or the
    merge was made. -/
inductive BelowRun (mode : Mode) :
    Option Node → Option Node → Arena μ → List Junction → Option Node → Arena μ → Prop where
  | left (p : Node) (s : Arena μ) : BelowRun mode (some p) none s [] (some p) s
  | right (q : Option Node) (s : Arena μ) : BelowRun mode none q s [] q s
  | same {p q : Node} (h : p.same q = true) (s : Arena μ) :
    BelowRun mode (some p) (some q) s [] (some p) s
  | merged {p q m : Node} {s s' : Arena μ} (run : merge mode p q s = .ok m s') :
    BelowRun mode (some p) (some q) s [⟨p, q, m⟩] (some m) s'

/-- How a list of slots was woven from two. Each step takes the first slots of the lists: the one of
    the smaller state, or both when they have one state. -/
inductive WeaveRun (mode : Mode) :
    List (Slot Node) → List (Slot Node) → Arena μ → List Junction → List (Slot Node) → Arena μ →
      Prop where
  | nil (right : List (Slot Node)) (s : Arena μ) : WeaveRun mode [] right s [] right s
  | left {l : Slot Node} {left right woven : List (Slot Node)} {js : List Junction}
      {s s' : Arena μ} (before : ∀ x ∈ Slot.states left, l.state < x)
      (before' : ∀ x ∈ Slot.states right, l.state < x)
      (rest : WeaveRun mode left right s js woven s') :
    WeaveRun mode (l :: left) right s js (l :: woven) s'
  | right {r : Slot Node} {left right woven : List (Slot Node)} {js : List Junction}
      {s s' : Arena μ} (before : ∀ x ∈ Slot.states left, r.state < x)
      (before' : ∀ x ∈ Slot.states right, r.state < x)
      (rest : WeaveRun mode left right s js woven s') :
    WeaveRun mode left (r :: right) s js (r :: woven) s'
  | both {l r : Slot Node} {left right woven : List (Slot Node)} {p : Option Node}
      {js js' : List Junction} {s s₁ s' : Arena μ} (e : l.state = r.state)
      (before : ∀ x ∈ Slot.states left, l.state < x)
      (before' : ∀ x ∈ Slot.states right, l.state < x)
      (below : BelowRun mode l.parent r.parent s js p s₁)
      (rest : WeaveRun mode left right s₁ js' woven s') :
    WeaveRun mode (l :: left) (r :: right) s (js ++ js') (⟨l.state, p⟩ :: woven) s'

section Weave

variable {mode : Mode} {left right woven : List (Slot Node)} {js : List Junction} {s s' : Arena μ}

theorem joinParents_ok {p q r : Option Node}
    (run : joinParents (p.map (mergeable mode)) q s = .ok r s') :
    ∃ js, BelowRun mode p q s js r s' := by
  cases p with
  | none =>
    obtain ⟨rfl, rfl⟩ := EStateM.Result.ok.inj run
    exact ⟨[], .right q s⟩
  | some p =>
    cases q with
    | none =>
      obtain ⟨rfl, rfl⟩ := EStateM.Result.ok.inj run
      exact ⟨[], .left p s⟩
    | some q =>
      simp only [Option.map_some, joinParents, mergeable] at run
      by_cases same : p.same q = true
      · rw [if_pos same] at run
        obtain ⟨rfl, rfl⟩ := EStateM.Result.ok.inj run
        exact ⟨[], .same same s⟩
      · rw [if_neg same] at run
        obtain ⟨m, ran, rfl⟩ := GraphM.map_ok run
        exact ⟨_, .merged ran⟩

/-- **A weaving takes the slots from the front**, and merges what lies below a state of both. -/
theorem weave_ok (ascl : Slot.Ascending left) (ascr : Slot.Ascending right)
    (run : weave (left.map (Slot.map (mergeable mode))) right s = .ok woven s') :
    ∃ js, WeaveRun mode left right s js woven s' := by
  induction left generalizing right woven s with
  | nil =>
    obtain ⟨rfl, rfl⟩ := EStateM.Result.ok.inj run
    exact ⟨[], .nil right s⟩
  | cons l left ih =>
    obtain ⟨before, ascl'⟩ := Slot.ascending_cons.mp ascl
    induction right generalizing woven s with
    | nil =>
      obtain ⟨rest, ran, rfl⟩ := GraphM.map_ok run
      obtain ⟨js, h⟩ := ih ascl' ascr ran
      rw [slot_map_mergeable]
      exact ⟨js, .left before (by simp) h⟩
    | cons r right ihr =>
      obtain ⟨before', ascr'⟩ := Slot.ascending_cons.mp ascr
      rw [List.map_cons] at run
      by_cases e : l.state = r.state
      · rw [weave_cons_both e] at run
        obtain ⟨p, s₁, ran, run⟩ := GraphM.bind_ok run
        obtain ⟨rest, ran', rfl⟩ := GraphM.map_ok run
        obtain ⟨js, below⟩ := joinParents_ok ran
        obtain ⟨js', h⟩ := ih ascl' ascr' ran'
        exact ⟨js ++ js', .both e before (e ▸ before') below h⟩
      · rcases UInt64.lt_or_lt_of_ne e with lt | lt
        · rw [weave_cons_left lt] at run
          obtain ⟨rest, ran, rfl⟩ := GraphM.map_ok run
          obtain ⟨js, h⟩ := ih ascl' ascr ran
          rw [slot_map_mergeable]
          refine ⟨js, .left before (fun x hx => ?_) h⟩
          rcases List.mem_cons.mp hx with rfl | hx
          · exact lt
          · exact UInt64.lt_trans lt (before' x hx)
        · rw [weave_cons_right lt] at run
          obtain ⟨rest, ran, rfl⟩ := GraphM.map_ok run
          obtain ⟨js, h⟩ := ihr ascr' ran
          refine ⟨js, .right (fun x hx => ?_) before' h⟩
          rcases List.mem_cons.mp hx with rfl | hx
          · exact lt
          · exact UInt64.lt_trans lt (before x hx)

theorem BelowRun.inTurn {p q r : Option Node} (h : BelowRun mode p q s js r s') :
    InTurn mode js s s' := by
  cases h with
  | left => exact .nil s
  | right => exact .nil s
  | same => exact .nil s
  | merged run => exact .cons run (.nil s')

theorem BelowRun.eq_some {p q r : Option Node} (h : BelowRun mode p q s js r s') {j : Junction}
    (hj : j ∈ js) : p = some j.left ∧ q = some j.right := by
  cases h with
  | left => cases hj
  | right => cases hj
  | same => cases hj
  | merged run =>
    obtain rfl := List.mem_singleton.mp hj
    exact ⟨rfl, rfl⟩

theorem BelowRun.covers {p q : Node} {r : Option Node}
    (h : BelowRun mode (some p) (some q) s js r s') :
    p.same q = true ∨ ∃ m, ⟨p, q, m⟩ ∈ js := by
  cases h with
  | same h => exact .inl h
  | merged run => exact .inr ⟨_, List.mem_singleton.mpr rfl⟩

/-- What came about below a state has the merged trees when the merge that was made is right. -/
theorem BelowRun.tree_iff {g : Graph} {p q r : Option Node} (h : BelowRun mode p q s js r s')
    (hp : ∀ n, p = some n → n ∈ g) (hq : ∀ n, q = some n → n ∈ g) :
    r.map tree = Option.merge (Tree.merge mode) (p.map tree) (q.map tree) ↔
      ∀ j ∈ js, j.Right mode := by
  cases h with
  | left => simp
  | right => simp
  | @same p q same =>
    obtain rfl := Graph.eq_of_same (hp p rfl) (hq q rfl) same
    simp [Tree.merge_self (Graph.proper_tree (hp p rfl))]
  | merged run => simp [Junction.Right]

namespace WeaveRun

theorem inTurn (h : WeaveRun mode left right s js woven s') : InTurn mode js s s' := by
  induction h with
  | nil right s => exact .nil s
  | left _ _ _ ih => exact ih
  | right _ _ _ ih => exact ih
  | both _ _ _ below _ ih => exact below.inTurn.append ih

/-- The merges that are made are merges of what lies below a state of both lists. -/
theorem meets (h : WeaveRun mode left right s js woven s') :
    ∀ j ∈ js, Slot.Meet left right j.left j.right := by
  induction h with
  | nil right s => exact fun _ hj => absurd hj List.not_mem_nil
  | left before _ _ ih => exact fun j hj => (ih j hj).cons_left before
  | right _ before' _ ih => exact fun j hj => ((ih j hj).symm.cons_left before').symm
  | both e before before' below _ ih =>
    intro j hj
    rcases List.mem_append.mp hj with hj | hj
    · obtain ⟨hp, hq⟩ := below.eq_some hj
      exact .of_heads e hp hq
    · exact (ih j hj).cons before (e ▸ before')

/-- Whatever lies below a state of both lists is the same node, or the merge is made. -/
theorem covers (h : WeaveRun mode left right s js woven s') {p q : Node}
    (meet : Slot.Meet left right p q) : p.same q = true ∨ ∃ m, ⟨p, q, m⟩ ∈ js := by
  induction h with
  | nil right s =>
    obtain ⟨x, hp, _⟩ := meet
    cases hp
  | left _ before' _ ih => exact ih (meet.of_cons_left before')
  | right before _ _ ih => exact ih (meet.symm.of_cons_left before).symm
  | both e before before' below _ ih =>
    rcases meet.of_cons e before before' with ⟨hp, hq⟩ | meet
    · rw [hp, hq] at below
      exact below.covers.imp_right fun ⟨m, hm⟩ => ⟨m, List.mem_append_left _ hm⟩
    · exact (ih meet).imp_right fun ⟨m, hm⟩ => ⟨m, List.mem_append_right _ hm⟩

/-- **The woven list is the merged list of the trees when all merges that are made are right.** -/
theorem tree_iff {g : Graph} (h : WeaveRun mode left right s js woven s') (hl : g.Within left)
    (hr : g.Within right) :
    woven.map (Slot.map tree) =
        Tree.mergeSlots mode (left.map (Slot.map tree)) (right.map (Slot.map tree)) ↔
      ∀ j ∈ js, j.Right mode := by
  have states (slots : List (Slot Node)) :
      Slot.states (slots.map (Slot.map tree)) = Slot.states slots := Slot.states_map tree slots
  induction h with
  | nil right s => simp [Tree.mergeSlots]
  | @left l left right woven js s s' before before' _ ih =>
    have rest : woven.map (Slot.map tree) = _ ↔ _ := ih hl.tail hr
    rw [List.map_cons, List.map_cons, Tree.mergeSlots_cons_left (states left ▸ before)
      (states right ▸ before'), List.cons.injEq, rest]
    exact and_iff_right rfl
  | @right r left right woven js s s' before _ _ ih =>
    have rest : woven.map (Slot.map tree) = _ ↔ _ := ih hl hr.tail
    rw [List.map_cons, List.map_cons, Tree.mergeSlots_cons_right (states left ▸ before),
      List.cons.injEq, rest]
    exact and_iff_right rfl
  | @both l r left right woven p js js' s s₁ s' e before before' below _ ih =>
    have rest : woven.map (Slot.map tree) = _ ↔ _ := ih hl.tail hr.tail
    have first := below.tree_iff (hl l List.mem_cons_self) (hr r List.mem_cons_self)
    rw [List.map_cons, List.map_cons, List.map_cons,
      Tree.mergeSlots_cons_cons (s := l.map tree) (t := r.map tree) e (states left ▸ before),
      List.cons.injEq, rest, List.forall_mem_append, ← first]
    simp [Slot.map]

end WeaveRun

end Weave

/-! ## 5. One equation for a merge -/

/-- What two nodes are merged to without a question to the memo: a node and itself, and with
    wildcards a bottom and a choice. -/
def atOnce? (mode : Mode) (a b : Node) : Option Node :=
  if a.same b then some a
  else if mode = .wildcard ∧ a.isBottom ∧ b.kind = .choice then some a
  else if mode = .wildcard ∧ a.kind = .choice ∧ b.isBottom then some b
  else none

/-- What is computed for two nodes of which the memo does not know the merge. -/
inductive Joining (mode : Mode) : Node → Node → GraphM μ Node → Prop where
  | roots {a b : Node} (h : a.isBottom = true ∨ b.isBottom = true) (ka : a.kind ≠ .choice)
      (kb : b.kind ≠ .choice) : Joining mode a b (joinRoots mode a b)
  | frames (i j : Nat) (k k' : Key) (x y : State) (p q : Node) :
    Joining mode (.frame i k x p) (.frame j k' y q)
      (joinFrames (.frame i k x p) x (mergeable mode p) (.frame j k' y q) y q)
  | choices {a b : Node} (sw : ¬ Tree.Swallows mode a.tree b.tree) :
    Joining mode a b (joinSlots a b (a.slots.map (Slot.map (mergeable mode))))

/-- **A merge ends at once, or it is memoized.** -/
theorem merge_eq (mode : Mode) (a b : Node) :
    (∃ m, atOnce? mode a b = some m ∧ merge (μ := μ) mode a b = pure m) ∨
    (atOnce? mode a b = none ∧ ∃ compute, Joining mode a b compute ∧
      merge (μ := μ) mode a b = memoized a b compute) := by
  unfold atOnce?
  by_cases same : a.same b = true
  · refine .inl ⟨a, if_pos same, ?_⟩
    cases a <;> exact if_pos same
  · rw [if_neg same]
    cases a with
    | bottom i =>
      have e (otherwise : GraphM μ Node) :
          (if (bottom i).same b then pure (bottom i) else otherwise) = otherwise := if_neg same
      have ka : (bottom i).kind ≠ .choice := by simp [kind]
      cases b with
      | bottom j =>
        exact .inr ⟨by simp [kind], _, .roots (.inl rfl) ka (by simp [kind]), e _⟩
      | frame j k y q =>
        exact .inr ⟨by simp [kind], _, .roots (.inl rfl) ka (by simp [kind]), e _⟩
      | choice j k slots =>
        cases mode with
        | wildcard => exact .inl ⟨_, by simp [kind, isBottom], e _⟩
        | exact =>
          refine .inr ⟨by simp, _, .choices ?_, e _⟩
          rintro ⟨wild, _⟩
          cases wild
    | frame i k x p =>
      have e (otherwise : GraphM μ Node) :
          (if (frame i k x p).same b then pure (frame i k x p) else otherwise) = otherwise :=
        if_neg same
      cases b with
      | bottom j =>
        exact .inr ⟨by simp [kind, isBottom], _,
          .roots (.inr rfl) (by simp [kind]) (by simp [kind]), e _⟩
      | frame j k' y q => exact .inr ⟨by simp [isBottom], _, .frames i j k k' x y p q, e _⟩
      | choice j k' slots =>
        refine .inr ⟨by simp [isBottom], _, .choices ?_, e _⟩
        rintro ⟨_, h | h⟩ <;> cases h
    | choice i k slots =>
      have e : merge (μ := μ) mode (choice i k slots) b = _ := if_neg same
      rw [e, mergeables_eq_map]
      have chosen : (choice i k slots).isBottom = false := rfl
      by_cases bottom : b.isBottom = true ∧ mode = .wildcard
      · exact .inl ⟨b, by simp [kind, chosen, bottom], if_pos bottom⟩
      · refine .inr ⟨?_, _, .choices ?_, if_neg bottom⟩
        · simpa [kind, chosen, and_comm] using bottom
        · rintro ⟨wild, h | h⟩
          · cases h
          · exact bottom ⟨tree_eq_bottom_iff.mp h, wild⟩

/-! ## 6. The three ways a merge goes -/

/-- The node `m` was put together after the merges `js` of what lies below a state of both nodes. It
    is the merge when all of them are. -/
structure Joined (mode : Mode) (a b : Node) (s : Arena μ) (js : List Junction) (m : Node)
    (s' : Arena μ) : Prop where
  turns : ∃ s₁, InTurn mode js s s₁ ∧ s₁.Alike s'
  meets : ∀ j ∈ js, Slot.Meet a.slots b.slots j.left j.right
  covers : ∀ p q, Slot.Meet a.slots b.slots p q → p.same q = true ∨ ∃ m, ⟨p, q, m⟩ ∈ js
  right_iff : m.tree = Tree.merge mode a.tree b.tree ↔ ∀ j ∈ js, j.Right mode

/-- The merges below two nodes of a graph are merges of its nodes. -/
theorem Joined.mem {mode : Mode} {g : Graph} {a b m : Node} {s s' : Arena μ} {js : List Junction}
    (h : Joined mode a b s js m s') (ha : a ∈ g) (hb : b ∈ g) :
    ∀ j ∈ js, j.left ∈ g ∧ j.right ∈ g := fun j hj =>
  have parents := (h.meets j hj).mem_parents
  ⟨Graph.parent_mem ha parents.1, Graph.parent_mem hb parents.2⟩

/-- Where nothing lies below a state of both nodes, no merge is made, and the result is right. -/
theorem Joined.alone {mode : Mode} {a b m : Node} {s s' : Arena μ} (alike : s.Alike s')
    (apart : ∀ p q, ¬ Slot.Meet a.slots b.slots p q)
    (right : m.tree = Tree.merge mode a.tree b.tree) : Joined mode a b s [] m s' where
  turns := ⟨s, .nil s, alike⟩
  meets := fun _ hj => absurd hj List.not_mem_nil
  covers := fun p q meet => absurd meet (apart p q)
  right_iff := iff_of_true right fun _ hj => absurd hj List.not_mem_nil

section Ways

variable {honest : Prop} {mode : Mode} {memo : MemoUpkeep μ honest mode} {g : Graph}
  {a b m : Node} {s s' : Arena μ}

theorem not_meet_of_isBottom (h : a.isBottom = true ∨ b.isBottom = true) (p q : Node) :
    ¬ Slot.Meet a.slots b.slots p q := by
  intro meet
  obtain ⟨hp, hq⟩ := meet.mem_parents
  rcases h with h | h
  · exact not_mem_parents_of_isBottom h hp
  · exact not_mem_parents_of_isBottom h hq

theorem joined_roots (hs : memo.toUpkeep.At g s) (ha : a ∈ g) (hb : b ∈ g)
    (h : a.isBottom = true ∨ b.isBottom = true) (ka : a.kind ≠ .choice) (kb : b.kind ≠ .choice)
    (run : joinRoots mode a b s = .ok m s') : Joined mode a b s [] m s' := by
  have grows : Grows False (Upkeep.none : Upkeep μ) g (joinRoots mode a b) _ :=
    Grows.joinRoots ha hb h ka kb
  obtain ⟨g', _, _, merged, _⟩ := grows.of_ok ⟨hs.1, trivial⟩ run
  exact .alone ((GraphM.Silent.joinRoots mode a b).ok run) (not_meet_of_isBottom h)
    (merged.tree_eq trivial)

omit [Memo μ] in
/-- The frame over a merge, or the operand over an equal node. -/
theorem frame_ok {x : State} {p q r : Node} {i j : Nat} {k k' : Key} (hx : x ≠ State.bottom)
    (hr : r ∈ g) (hp : p ∈ g) (hq : q ∈ g)
    (run : (if r == p then pure (frame i k x p) else if r == q then pure (frame j k' x q)
      else Node.push r x : GraphM μ Node) s = .ok m s') :
    m.tree = .frame x r.tree ∧ s.Alike s' := by
  by_cases ep : (r == p) = true
  · rw [if_pos ep] at run
    obtain ⟨rfl, rfl⟩ := EStateM.Result.ok.inj run
    exact ⟨congrArg (Tree.frame x) ((Graph.beq_iff hr hp).mp ep).symm, .refl s⟩
  · rw [if_neg ep] at run
    by_cases eq : (r == q) = true
    · rw [if_pos eq] at run
      obtain ⟨rfl, rfl⟩ := EStateM.Result.ok.inj run
      exact ⟨congrArg (Tree.frame x) ((Graph.beq_iff hr hq).mp eq).symm, .refl s⟩
    · rw [if_neg eq] at run
      have alike := (GraphM.Silent.push r x).ok run
      rw [push_run hx] at run
      obtain ⟨rfl, rfl⟩ := EStateM.Result.ok.inj run
      exact ⟨rfl, alike⟩

theorem joined_frames {i j : Nat} {k k' : Key} {x y : State} {p q : Node}
    (hs : memo.toUpkeep.At g s) (ha : frame i k x p ∈ g) (hb : frame j k' y q ∈ g)
    (run : joinFrames (frame i k x p) x (mergeable mode p) (frame j k' y q) y q s = .ok m s') :
    ∃ js, Joined mode (frame i k x p) (frame j k' y q) s js m s' := by
  have hx : x ≠ State.bottom := (g.sound ha).1
  have hp : p ∈ g := Graph.parent_mem ha List.mem_cons_self
  have hq : q ∈ g := Graph.parent_mem hb List.mem_cons_self
  unfold joinFrames at run
  by_cases e : x = y
  · subst e
    rw [if_pos rfl] at run
    obtain ⟨r, s₁, ran, last⟩ := GraphM.bind_ok run
    obtain ⟨g₁, le, _, hr⟩ := (Grows.merge hp hq).of_ok hs ran
    obtain ⟨tree_eq, alike⟩ := frame_ok hx hr.mem (le p hp) (le q hq) last
    have meet : Slot.Meet (frame i k x p).slots (frame j k' x q).slots p q := .of_heads rfl rfl rfl
    refine ⟨[⟨p, q, r⟩], ⟨s₁, .cons ran (.nil s₁), alike⟩, ?_, fun p' q' meet' => ?_, ?_⟩
    · exact List.forall_mem_singleton.mpr meet
    · obtain ⟨hp', hq'⟩ := meet'.mem_parents
      obtain rfl := List.mem_singleton.mp hp'
      obtain rfl := List.mem_singleton.mp hq'
      exact .inr ⟨r, List.mem_singleton.mpr rfl⟩
    · rw [tree_eq, List.forall_mem_singleton]
      show _ = Tree.merge mode (.frame x p.tree) (.frame x q.tree) ↔ _
      rw [Tree.merge_frame_same hx, Tree.frame.injEq]
      exact and_iff_right rfl
  · rw [if_neg e] at run
    refine ⟨[], ?_⟩
    have apart (p' q' : Node) :
        ¬ Slot.Meet (frame i k x p).slots (frame j k' y q).slots p' q' := by
      rintro ⟨z, hp', hq'⟩
      have ex := List.mem_singleton.mp (Slot.mem_states_of_at? hp')
      have ey := List.mem_singleton.mp (Slot.mem_states_of_at? hq')
      exact e (ex.symm.trans ey)
    by_cases lt : x < y
    · rw [if_pos lt] at run
      have grows : Grows False (Upkeep.none : Upkeep μ) g _ _ := Grows.twoFrames lt hp hq
      obtain ⟨_, _, _, _, tree_eq⟩ := grows.of_ok ⟨hs.1, trivial⟩ run
      exact .alone ((GraphM.Silent.ofSlots _).ok run) apart
        (tree_eq.trans (Tree.merge_frame_lt lt _ _).symm)
    · rw [if_neg lt] at run
      have gt : y < x := (UInt64.lt_or_lt_of_ne e).resolve_left lt
      have grows : Grows False (Upkeep.none : Upkeep μ) g _ _ := Grows.twoFrames gt hq hp
      obtain ⟨_, _, _, _, tree_eq⟩ := grows.of_ok ⟨hs.1, trivial⟩ run
      exact .alone ((GraphM.Silent.ofSlots _).ok run) apart
        (tree_eq.trans (Tree.merge_frame_gt gt _ _).symm)

/-- Beside every node of the graph stands its merge. -/
theorem joins_slots {slots : List (Slot Node)} (h : g.Within slots) :
    ∀ s ∈ slots.map (Slot.map (mergeable mode)), ∀ p, s.parent = some p → Joins memo g p := by
  intro s hs p e
  obtain ⟨t, ht, rfl⟩ := List.mem_map.mp hs
  obtain ⟨n, hn, rfl⟩ := Option.map_eq_some_iff.mp e
  have mem := h t ht n hn
  exact ⟨mem, fun g' le q hq => Grows.merge (le n mem) hq⟩

omit [Memo μ] in
theorem tree_reuse {n : Node} (hn : n ∈ g) (ha : a ∈ g) (hb : b ∈ g) :
    (reuse a b n).tree = n.tree := by
  unfold reuse
  split
  · rename_i ea
    exact ((Graph.beq_iff hn ha).mp ea).symm
  · split
    · rename_i eb
      exact ((Graph.beq_iff hn hb).mp eb).symm
    · rfl

/-- **The union of the slots of two nodes** lies in a larger graph, and makes a node. With an honest
    memo it has the merged trees below. -/
theorem weave_within {woven : List (Slot Node)} (hs : memo.toUpkeep.At g s) (ha : a ∈ g)
    (hb : b ∈ g) (run : weave (a.slots.map (Slot.map (mergeable mode))) b.slots s = .ok woven s') :
    ∃ g', g ≤ g' ∧ memo.toUpkeep.At g' s' ∧ g'.Within woven ∧ NormalSlots woven ∧
      (honest → woven.map (Slot.map tree) = Tree.mergeSlots mode a.tree.slots b.tree.slots) := by
  have asc_a := (Graph.normalSlots ha).ascending
  have asc_b := (Graph.normalSlots hb).ascending
  have grows : Grows False memo.toUpkeep g _ _ :=
    Grows.weave (joins_slots (Graph.within_slots ha)) ((Slot.ascending_map _).mpr asc_a) asc_b
      (Graph.within_slots hb)
  obtain ⟨g', le, hs', h⟩ := grows.of_ok hs run
  rw [← mergeables_eq_map, map_tree_of_map_slot (map_slot_mergeables mode a.slots),
    ← slots_tree] at h
  have normal := (Graph.normalSlots_merge mode ha hb).of_shape_eq (Woven.shape_list h)
  exact ⟨g', le, hs', Woven.within h, normal, Woven.tree_list h⟩

theorem joined_choices (hs : memo.toUpkeep.At g s) (ha : a ∈ g) (hb : b ∈ g)
    (sw : ¬ Tree.Swallows mode a.tree b.tree)
    (run : joinSlots a b (a.slots.map (Slot.map (mergeable mode))) s = .ok m s') :
    ∃ js, Joined mode a b s js m s' := by
  have within_a := Graph.within_slots ha
  have within_b := Graph.within_slots hb
  have asc_a := (Graph.normalSlots ha).ascending
  have asc_b := (Graph.normalSlots hb).ascending
  unfold joinSlots at run
  obtain ⟨woven, s₁, ran, run⟩ := GraphM.bind_ok run
  obtain ⟨n, s₂, made, run⟩ := GraphM.bind_ok run
  obtain ⟨rfl, rfl⟩ := EStateM.Result.ok.inj run
  obtain ⟨js, woven_run⟩ := weave_ok asc_a asc_b ran
  obtain ⟨g₁, le, hs₁, within, normal, _⟩ := weave_within hs ha hb ran
  have coalesced : List.Forall₂ (Woven True g₁) (coalesce woven) (woven.map (Slot.map tree)) :=
    Woven.coalesce (Woven.forall_of_within within)
  have grows₁ : Grows _ (Upkeep.none : Upkeep μ) g₁ (Node.ofSlots (coalesce woven)) _ :=
    Grows.ofSlots (Woven.within coalesced)
  obtain ⟨g₂, le₂, _, hn, tree_n⟩ := grows₁.of_ok ⟨hs₁.1, trivial⟩ made
  rw [Woven.tree_list coalesced trivial] at tree_n
  have normal_tree : NormalSlots (woven.map (Slot.map tree)) := (normalSlots_map tree).mpr normal
  have tree_eq : (reuse a b n).tree = Tree.ofSlots (woven.map (Slot.map tree)) :=
    (tree_reuse hn (le₂ a (le a ha)) (le₂ b (le b hb))).trans tree_n
  refine ⟨js, ⟨s₁, woven_run.inTurn, ?_⟩, woven_run.meets, fun p q => woven_run.covers, ?_⟩
  · exact ((GraphM.Silent.ofSlots _).ok made).trans (Arena.alike_push rfl)
  · rw [← woven_run.tree_iff within_a within_b, ← slots_tree, ← slots_tree, tree_eq, Tree.merge_eq,
      if_neg sw]
    refine ⟨fun e => ?_, congrArg Tree.ofSlots⟩
    rw [← Tree.slots_ofSlots normal_tree, e,
      Tree.slots_ofSlots (Graph.normalSlots_merge mode ha hb)]

/-- Whatever is computed for two nodes is put together from the merges below both. -/
theorem Joining.ok {compute : GraphM μ Node} (h : Joining mode a b compute)
    (hs : memo.toUpkeep.At g s) (ha : a ∈ g) (hb : b ∈ g) (run : compute s = .ok m s') :
    ∃ js, Joined mode a b s js m s' := by
  cases h with
  | roots h ka kb => exact ⟨[], joined_roots hs ha hb h ka kb run⟩
  | frames => exact joined_frames hs ha hb run
  | choices sw => exact joined_choices hs ha hb sw run

/-- How a merge went. -/
inductive MergeRun (mode : Mode) (a b : Node) (s : Arena μ) (m : Node) (s' : Arena μ) : Prop where
  | atOnce (h : atOnce? mode a b = some m) (e : s' = s)
  | known (asks : atOnce? mode a b = none) (h : Memo.known? s.table a b = some m)
      (alike : s.Alike s')
  | computed {js : List Junction} {s₁ : Arena μ} (asks : atOnce? mode a b = none)
      (new : Memo.known? s.table a b = none) (joined : Joined mode a b (s.asked a b) js m s₁)
      (e : s' = ⟨s₁.next, s₁.journal.push (.stored a b m), Memo.store s₁.table a b m⟩)

/-- **A merge goes one of three ways**: it ends at once, the memo knows it, or it is computed from
    merges below both nodes and remembered. -/
theorem merge_ok (hs : memo.toUpkeep.At g s) (ha : a ∈ g) (hb : b ∈ g)
    (run : merge mode a b s = .ok m s') : MergeRun mode a b s m s' := by
  rcases merge_eq (μ := μ) mode a b with ⟨n, h, e⟩ | ⟨asks, compute, joining, e⟩
  · rw [e] at run
    obtain ⟨rfl, rfl⟩ := EStateM.Result.ok.inj run
    exact .atOnce h rfl
  · rw [e] at run
    rcases memoized_ok run with ⟨h, alike⟩ | ⟨new, s₁, ran, rfl⟩
    · exact .known asks h alike
    · have asked : memo.toUpkeep.At g (s.asked a b) := hs
      obtain ⟨js, joined⟩ := joining.ok asked ha hb ran
      exact .computed asks new joined rfl

end Ways

end StackGraph
