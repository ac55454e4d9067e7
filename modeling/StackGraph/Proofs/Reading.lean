import StackGraph.Node.Printer
import StackGraph.Proofs.Sessions
import StackGraph.Tree.Reader

/-!
# The text of a node is read back

The text of a node has no mark for where a frame ends, and `$` is a bottom as well as the bottom
state. It can be read all the same: a state ends before the first character that is no digit, a tree
ends with the `$` or the bracket that comes first for it, and after a slot comes a blank when
something lies below it, and else a comma or the closing bracket.

* `State.read?_chars`, `State.chars_injective` -- a state is read back;
* `Tree.ReadsAs`, `Tree.reads_chars` -- **the tree of a node is read back**, whatever follows;
* `Node.chars_eq_of_tree_eq` -- the text of a node is a function of its tree;
* `Session.text_eq_iff_beq` -- **the text of a node tells as much as equality does**.
-/

namespace StackGraph

/-! ## 1. Where a text ends that is of one kind of character -/

section Split

variable {p : Char → Bool} {xs ys rest rest' : List Char}

/-- The characters at the front that are of one kind, when another kind follows. -/
theorem takeWhile_eq (inside : ∀ c ∈ xs, p c = true)
    (boundary : ∀ c, rest.head? = some c → p c = false) : (xs ++ rest).takeWhile p = xs := by
  rw [List.takeWhile_append_of_pos inside]
  cases rest with
  | nil => simp
  | cons c rest => simp [boundary c rfl]

theorem dropWhile_eq (inside : ∀ c ∈ xs, p c = true)
    (boundary : ∀ c, rest.head? = some c → p c = false) : (xs ++ rest).dropWhile p = rest := by
  rw [List.dropWhile_append_of_pos inside]
  cases rest with
  | nil => rfl
  | cons c rest => simp [boundary c rfl]

/-- Where the characters of one kind end, two texts that are equal are cut alike. -/
theorem append_inj_of_boundary (inside : ∀ c ∈ xs, p c = true) (inside' : ∀ c ∈ ys, p c = true)
    (boundary : ∀ c, rest.head? = some c → p c = false)
    (boundary' : ∀ c, rest'.head? = some c → p c = false) (e : xs ++ rest = ys ++ rest') :
    xs = ys ∧ rest = rest' := by
  have first := takeWhile_eq inside boundary
  have second := dropWhile_eq inside boundary
  rw [e, takeWhile_eq inside' boundary'] at first
  rw [e, dropWhile_eq inside' boundary'] at second
  exact ⟨first.symm, second.symm⟩

end Split

/-! ## 2. States -/

namespace State

variable {s t : State} {c : Char} {cs rest : List Char}

theorem chars_of_ne (h : s ≠ bottom) : s.chars = Nat.toDigits 10 s.toNat := if_neg h

theorem isDigit_of_mem_digits {n : Nat} (h : c ∈ Nat.toDigits 10 n) : c.isDigit = true :=
  Nat.isDigit_of_mem_toDigits (by omega) (by omega) h

/-- The text of a state other than the bottom begins with a digit and goes on with digits. -/
theorem exists_chars_eq_cons (h : s ≠ bottom) :
    ∃ c cs, s.chars = c :: cs ∧ c.isDigit = true ∧ ∀ d ∈ cs, d.isDigit = true := by
  rw [chars_of_ne h]
  obtain ⟨c, cs, e⟩ := List.exists_cons_of_ne_nil (Nat.toDigits_ne_nil (n := s.toNat) (b := 10))
  have all : ∀ d ∈ c :: cs, d.isDigit = true := fun d hd => isDigit_of_mem_digits (e ▸ hd)
  exact ⟨c, cs, e, List.forall_mem_cons.mp all⟩

theorem ne_of_isDigit {d : Char} (hc : c.isDigit = true) (hd : d.isDigit = false) : c ≠ d := by
  rintro rfl
  rw [hc] at hd
  cases hd

/-- **A state is read back**, when no digit follows it. -/
theorem read?_chars (e : cs = s.chars ++ rest) (h : ∀ c, rest.head? = some c → c.isDigit = false) :
    ∃ lt, State.read? cs = some (s, ⟨rest, lt⟩) := by
  by_cases hs : s = bottom
  · subst hs e
    exact ⟨Nat.lt_succ_self _, rfl⟩
  · obtain ⟨c, digits, first, hc, hcs⟩ := exists_chars_eq_cons hs
    have value : UInt64.ofNat (Nat.ofDigitChars 10 (c :: digits) 0) = s := by
      rw [← first, chars_of_ne hs, Nat.ofDigitChars_toDigits (by omega) (by omega),
        UInt64.ofNat_toNat]
    have dollar : '$'.isDigit = false := rfl
    rw [first, List.cons_append] at e
    subst e
    refine ⟨by simp, ?_⟩
    simp only [State.read?, if_neg (ne_of_isDigit hc dollar), if_pos hc, takeWhile_eq hcs h,
      dropWhile_eq hcs h, value]

/-- Different states have different texts. -/
theorem chars_injective (h : s.chars = t.chars) : s = t := by
  obtain ⟨_, hs⟩ := read?_chars (List.append_nil s.chars).symm nofun
  obtain ⟨_, ht⟩ := read?_chars (h.trans (List.append_nil t.chars).symm) nofun
  exact congrArg Prod.fst (Option.some.inj (hs.symm.trans ht))

end State

/-! ## 3. Trees -/

namespace Rest

variable {cs rest : List Char} {c d : Char}

theorem after?_self (lt : (c :: rest).length < cs.length) :
    Rest.after? c ⟨c :: rest, lt⟩ = some ⟨rest, Nat.lt_of_succ_lt lt⟩ := if_pos rfl

theorem after?_of_ne (h : d ≠ c) (lt : (d :: rest).length < cs.length) :
    Rest.after? c ⟨d :: rest, lt⟩ = none := if_neg h

end Rest

namespace Tree

/-- A reader takes the text `text`, whatever follows it, for the value `a`. -/
def ReadsAs {α : Type} (read : (cs : List Char) → Option (α × Rest cs)) (text : List Char) (a : α) :
    Prop :=
  ∀ cs rest : List Char, cs = text ++ rest → ∃ lt, read cs = some (a, ⟨rest, lt⟩)

section Rules

variable {state : State} {parent : Tree} {below more : List Char} {slots : List (Slot Tree)}

theorem reads_bottom : ReadsAs read? ['$'] bottom := by
  intro cs rest e
  obtain rfl : cs = '$' :: rest := e
  refine ⟨Nat.lt_succ_self _, ?_⟩
  rw [read?, if_pos rfl]

theorem reads_frame (h : state ≠ State.bottom) (hp : ReadsAs read? below parent) :
    ReadsAs read? (state.chars ++ ' ' :: below) (frame state parent) := by
  intro cs rest e
  obtain ⟨c, digits, first, hc, _⟩ := State.exists_chars_eq_cons h
  rw [first] at e
  obtain rfl : cs = c :: (digits ++ ' ' :: (below ++ rest)) := by simp [e]
  have text : c :: (digits ++ ' ' :: (below ++ rest)) = state.chars ++ ' ' :: (below ++ rest) := by
    simp [first]
  obtain ⟨lt, hs⟩ := State.read?_chars text (by simp)
  obtain ⟨lt', hp⟩ := hp (below ++ rest) rest rfl
  refine ⟨by simp; omega, ?_⟩
  rw [read?, if_neg (State.ne_of_isDigit hc rfl), if_neg (State.ne_of_isDigit hc rfl), hs]
  simp [Rest.after?_self, hp, Rest.within]

theorem reads_choice (h : ReadsAs readSlots? more slots) :
    ReadsAs read? ('[' :: more) (choice slots) := by
  intro cs rest e
  obtain rfl : cs = '[' :: (more ++ rest) := e
  obtain ⟨lt, h⟩ := h (more ++ rest) rest rfl
  refine ⟨Nat.lt_succ_of_lt lt, ?_⟩
  rw [read?, if_neg (by decide), if_pos rfl, h]
  rfl

/-- Slots begin with a slot that has nothing below. -/
theorem reads_slot_none {c : Char} (first : ∃ cs, more = c :: cs) (hc : c.isDigit = false)
    (blank : c ≠ ' ') (h : ReadsAs readMore? more slots) :
    ReadsAs readSlots? (state.chars ++ more) (⟨state, none⟩ :: slots) := by
  intro cs rest e
  obtain ⟨tail, rfl⟩ := first
  have text : cs = state.chars ++ c :: (tail ++ rest) := by simp [e]
  obtain ⟨lt, hs⟩ := State.read?_chars text (by simp [hc])
  obtain ⟨lt', h⟩ := h (c :: (tail ++ rest)) rest rfl
  refine ⟨Nat.lt_trans lt' lt, ?_⟩
  rw [readSlots?, hs]
  simp [Rest.after?_of_ne blank, h, Rest.within]

/-- Slots begin with a slot that has a tree below. -/
theorem reads_slot_some (hp : ReadsAs read? below parent) (h : ReadsAs readMore? more slots) :
    ReadsAs readSlots? (state.chars ++ ' ' :: (below ++ more)) (⟨state, some parent⟩ :: slots) := by
  intro cs rest e
  have text : cs = state.chars ++ ' ' :: (below ++ (more ++ rest)) := by simp [e]
  obtain ⟨lt, hs⟩ := State.read?_chars text (by simp)
  obtain ⟨lt', hp⟩ := hp (below ++ (more ++ rest)) (more ++ rest) rfl
  obtain ⟨lt'', h⟩ := h (more ++ rest) rest rfl
  refine ⟨by simp at lt; omega, ?_⟩
  rw [readSlots?, hs]
  simp [Rest.after?_self, hp, h, Rest.within]

theorem reads_close : ReadsAs readMore? [']'] [] := by
  intro cs rest e
  obtain rfl : cs = ']' :: rest := e
  refine ⟨Nat.lt_succ_self _, ?_⟩
  rw [readMore?, if_pos rfl]

theorem reads_comma (h : ReadsAs readSlots? more slots) :
    ReadsAs readMore? (',' :: ' ' :: more) slots := by
  intro cs rest e
  obtain rfl : cs = ',' :: ' ' :: (more ++ rest) := e
  obtain ⟨lt, h⟩ := h (more ++ rest) rest rfl
  refine ⟨Nat.lt_succ_of_lt (Nat.lt_succ_of_lt lt), ?_⟩
  rw [readMore?, if_neg (by decide), if_pos rfl]
  simp [Rest.after?_self, h, Rest.within]

end Rules

/-- The slots of a choice are read back, up to the bracket, when what lies below them is. -/
theorem reads_charsOfSlots {slots : List (Slot Node)} (ne : slots ≠ [])
    (below : ∀ s ∈ slots, ∀ p, s.parent = some p → ReadsAs read? p.chars p.tree) :
    ReadsAs readSlots? (Node.charsOfSlots slots ++ [']']) (Node.treeSlots slots) := by
  induction slots with
  | nil => exact absurd rfl ne
  | cons s slots ih =>
    obtain ⟨here, below⟩ := List.forall_mem_cons.mp below
    -- what follows a slot begins with a comma or the bracket, so neither a state nor a tree goes on
    have more : ReadsAs readMore? (Node.charsOfRest slots ++ [']']) (Node.treeSlots slots) := by
      cases slots with
      | nil => exact reads_close
      | cons t slots =>
        rw [Node.charsOfRest_cons]
        exact reads_comma (ih (List.cons_ne_nil t slots) below)
    obtain ⟨state, parent⟩ := s
    cases parent with
    | some p =>
      have text : Node.charsOfSlots (⟨state, some p⟩ :: slots) ++ [']'] =
          state.chars ++ ' ' :: (p.chars ++ (Node.charsOfRest slots ++ [']'])) := by
        simp [Node.charsOfSlots]
      rw [text]
      exact reads_slot_some (here p rfl) more
    | none =>
      have text : Node.charsOfSlots (⟨state, none⟩ :: slots) ++ [']'] =
          state.chars ++ (Node.charsOfRest slots ++ [']']) := by
        simp [Node.charsOfSlots]
      rw [text]
      cases slots with
      | nil => exact reads_slot_none ⟨_, rfl⟩ rfl (by decide) more
      | cons t slots =>
        rw [Node.charsOfRest_cons] at more ⊢
        exact reads_slot_none ⟨_, rfl⟩ rfl (by decide) more

/-- **The tree of a well-formed node is read back from its text.** -/
theorem reads_chars {n : Node} (h : n.WellFormed) : ReadsAs read? n.chars n.tree := by
  induction n using Node.induction with
  | step n ih =>
    obtain ⟨sound, below⟩ := Node.wellFormed_iff.mp h
    cases n with
    | bottom i => exact reads_bottom
    | frame i k state parent =>
      exact reads_frame sound.1 (ih parent List.mem_cons_self (below parent List.mem_cons_self))
    | choice i k slots =>
      refine reads_choice (reads_charsOfSlots ?_ fun s hs p hp => ?_)
      · rintro rfl
        exact absurd sound.1 (by simp)
      · have mem : p ∈ (Node.choice i k slots).parents := Node.mem_parents_of_slot hs hp
        exact ih p mem (below p mem)

/-- **A text is read whole.** -/
theorem ofText?_text {n : Node} (h : n.WellFormed) : ofText? n.text = some n.tree := by
  have text : n.text.toList = n.chars ++ [] := by
    rw [Node.text, String.toList_ofList, List.append_nil]
  obtain ⟨_, e⟩ := reads_chars h n.text.toList [] text
  unfold ofText?
  rw [e]
  rfl

end Tree

/-! ## 4. The text is a function of the tree -/

namespace Node

/-- Slots with equal trees below have equal texts, when equal trees below have. -/
theorem charsOfSlots_eq {ss ts : List (Slot Node)}
    (below : ∀ s ∈ ss, ∀ p, s.parent = some p → ∀ q : Node, p.tree = q.tree → p.chars = q.chars)
    (trees : treeSlots ss = treeSlots ts) : charsOfSlots ss = charsOfSlots ts := by
  induction ss generalizing ts with
  | nil =>
    rw [treeSlots_eq_map ts] at trees
    rw [List.map_eq_nil_iff.mp trees.symm]
  | cons s ss ih =>
    obtain ⟨here, below⟩ := List.forall_mem_cons.mp below
    cases ts with
    | nil => simp [treeSlots_eq_map] at trees
    | cons t ts =>
      simp only [treeSlots_eq_map, List.map_cons, List.cons.injEq] at trees ih
      obtain ⟨first, trees⟩ := trees
      have rest : charsOfRest ss = charsOfRest ts := by
        have e := ih below trees
        cases ss with
        | nil => rw [List.map_eq_nil_iff.mp trees.symm]
        | cons s' ss =>
          cases ts with
          | nil => simp at trees
          | cons t' ts => rw [charsOfRest_cons, charsOfRest_cons, e]
      obtain ⟨x, p⟩ := s
      obtain ⟨y, q⟩ := t
      obtain ⟨rfl, parents⟩ := Slot.mk.inj first
      cases p with
      | none =>
        cases q with
        | none => simp [charsOfSlots, rest]
        | some q => simp at parents
      | some p =>
        cases q with
        | none => simp at parents
        | some q =>
          have text : p.chars = q.chars := here p rfl q (Option.some.inj parents)
          simp [charsOfSlots, rest, text]

/-- **Nodes of one tree have one text.** -/
theorem chars_eq_of_tree_eq {a b : Node} (h : a.tree = b.tree) : a.chars = b.chars := by
  induction a using Node.induction generalizing b with
  | step a ih =>
    cases a with
    | bottom i =>
      cases b with
      | bottom j => rfl
      | frame j k y q => simp [tree] at h
      | choice j k ts => simp [tree] at h
    | frame i k x p =>
      cases b with
      | bottom j => simp [tree] at h
      | frame j k' y q =>
        obtain ⟨rfl, below⟩ := Tree.frame.inj h
        simp [chars, ih p List.mem_cons_self below]
      | choice j k' ts => simp [tree] at h
    | choice i k ss =>
      cases b with
      | bottom j => simp [tree] at h
      | frame j k' y q => simp [tree] at h
      | choice j k' ts =>
        have slots : charsOfSlots ss = charsOfSlots ts :=
          charsOfSlots_eq (fun s hs p hp q e => ih p (mem_parents_of_slot hs hp) e)
            (Tree.choice.inj h)
        simp [chars, slots]

/-- Well-formed nodes have one text when they have one tree. -/
theorem text_eq_iff_tree_eq {a b : Node} (ha : a.WellFormed) (hb : b.WellFormed) :
    a.text = b.text ↔ a.tree = b.tree := by
  constructor
  · intro h
    have read := Tree.ofText?_text ha
    rw [h, Tree.ofText?_text hb] at read
    exact (Option.some.inj read).symm
  · intro h
    rw [text, text, chars_eq_of_tree_eq h]

end Node

/-- The nodes of a graph are well-formed. -/
theorem Graph.wellFormed {g : Graph} {n : Node} (hn : n ∈ g) : n.WellFormed :=
  fun _ r => g.sound (mem_of_reaches hn r)

/-! ## 5. Nodes of a session -/

namespace Session

variable {a b : Node}

/-- **The text of a node tells as much as equality does.** Two nodes of a session have one text when
    they are equal, and only then; and the tree of every node of a session is read back from its
    text. -/
theorem text_eq_iff_beq (commands : List (Command × Option String))
    (ha : (replay commands).Holds a) (hb : (replay commands).Holds b) :
    (a.text = b.text ↔ (a == b) = true) ∧ Tree.ofText? a.text = some a.tree := by
  obtain ⟨g, hs⟩ := over_replay commands
  have ha := hs.mem ha
  have hb := hs.mem hb
  have equal : a.text = b.text ↔ a.tree = b.tree :=
    Node.text_eq_iff_tree_eq (Graph.wellFormed ha) (Graph.wellFormed hb)
  exact ⟨equal.trans (Graph.beq_iff ha hb).symm, Tree.ofText?_text (Graph.wellFormed ha)⟩

/-- A session with choices below choices, with something and with nothing below the bottom state, and
    with two equal nodes that were made apart. -/
def nested : List (Command × Option String) :=
  [(.anotherBottom, some "end"), (.chain "$" [1, 2], some "a"), (.chain "end" [1, 2], some "b"),
    (.ofLists [3, State.bottom] [some "a", none], some "c"),
    (.ofLists [3, State.bottom] [some "b", none], some "d"),
    (.ofLists [4, 5, State.bottom] [some "c", some "$", some "c"], some "e"),
    (.ofLists [4, 5, State.bottom] [some "d", some "end", some "c"], some "f")]

theorem text_eq_iff_beq_nested :
    ∃ a b, (replay nested).Holds a ∧ (replay nested).Holds b ∧ a.same b = false ∧
      (a == b) = true ∧ a.text = b.text ∧ b.text = "[4 [3 2 1 $, $], 5 $, $ [3 2 1 $, $]]" ∧
      Tree.ofText? "[4 [3 2 1 $, $], 5 $, $ [3 2 1 $, $]]" = some a.tree := by
  refine ⟨_, _, ⟨"e", rfl⟩, ⟨"f", rfl⟩, by decide, by decide +kernel, ?_⟩
  obtain ⟨iff, read⟩ := text_eq_iff_beq nested ⟨"e", rfl⟩ ⟨"f", rfl⟩
  have same := iff.mpr (by decide +kernel)
  exact ⟨same, by decide +kernel, read⟩

end Session

end StackGraph
