import StackGraph.Diagram
import StackGraph.Proofs.Reading

/-!
# The text of a diagram is read back

The text of a diagram has a line for each vertex and for each arrow. Lines end where the text has a
line break, and the line of an arrow has the character `>`, which the line of a vertex has not. So
the text tells the labels and the arrows; and the label of a vertex tells the kind of its node and
the states.

* `IsLine.flatten_inj` -- lines are read back from their text;
* `Diagram.Plain`, `Diagram.dot_inj` -- **a diagram is read back**, when its labels have no line
  break and no `>`;
* `Node.Sound.inLabel` -- the labels of nodes are such;
* `Node.label_eq`, `Node.label_inj` -- **the label of a node tells its kind and its states**, and
  nothing else.
-/

namespace StackGraph

/-! ## 1. Lines -/

/-- Characters of which the last is a line break, and no other. -/
def IsLine (line : List Char) : Prop := ∃ body, line = body ++ ['\n'] ∧ '\n' ∉ body

namespace IsLine

variable {line line' rest rest' : List Char} {lines lines' : List (List Char)}

/-- A line ends at the first line break. -/
theorem append_inj (h : IsLine line) (h' : IsLine line') (e : line ++ rest = line' ++ rest') :
    line = line' ∧ rest = rest' := by
  have inside : ∀ body : List Char, '\n' ∉ body → ∀ c ∈ body, (c != '\n') = true := by
    intro body h c hc
    simp only [bne_iff_ne]
    intro e
    exact h (e ▸ hc)
  obtain ⟨body, rfl, hb⟩ := h
  obtain ⟨body', rfl, hb'⟩ := h'
  simp only [List.append_assoc, List.cons_append, List.nil_append] at e
  obtain ⟨text, after⟩ := append_inj_of_boundary (inside body hb) (inside body' hb')
    (by simp) (by simp) e
  exact ⟨by rw [text], (List.cons.inj after).2⟩

theorem ne_nil (h : IsLine line) : line ≠ [] := by
  obtain ⟨body, e, _⟩ := h
  rw [e]
  simp

/-- **Lines are read back from their text.** -/
theorem flatten_inj (h : ∀ line ∈ lines, IsLine line) (h' : ∀ line ∈ lines', IsLine line)
    (e : lines.flatten = lines'.flatten) : lines = lines' := by
  induction lines generalizing lines' with
  | nil =>
    cases lines' with
    | nil => rfl
    | cons line' lines' =>
      have none := (List.append_eq_nil_iff.mp e.symm).1
      exact absurd none (h' line' List.mem_cons_self).ne_nil
  | cons line lines ih =>
    obtain ⟨here, h⟩ := List.forall_mem_cons.mp h
    cases lines' with
    | nil => exact absurd (List.append_eq_nil_iff.mp e).1 here.ne_nil
    | cons line' lines' =>
      obtain ⟨here', h'⟩ := List.forall_mem_cons.mp h'
      obtain ⟨first, rest⟩ := here.append_inj here' e
      rw [first, ih h h' rest]

end IsLine

/-! ## 2. Numbers -/

section Digits

variable {m n : Nat} {c : Char} {rest rest' : List Char}

theorem not_mem_digits (hc : c.isDigit = false) : c ∉ Nat.toDigits 10 n := by
  intro h
  rw [State.isDigit_of_mem_digits h] at hc
  cases hc

theorem digits_inj (h : Nat.toDigits 10 m = Nat.toDigits 10 n) : m = n := by
  have value : Nat.ofDigitChars 10 (Nat.toDigits 10 m) 0 =
      Nat.ofDigitChars 10 (Nat.toDigits 10 n) 0 := by rw [h]
  rw [Nat.ofDigitChars_toDigits (by omega) (by omega),
    Nat.ofDigitChars_toDigits (by omega) (by omega)] at value
  exact value

/-- A number ends before the first character that is no digit. -/
theorem digits_append_inj (hc : c.isDigit = false)
    (e : Nat.toDigits 10 m ++ c :: rest = Nat.toDigits 10 n ++ c :: rest') :
    m = n ∧ rest = rest' := by
  have inside : ∀ n, ∀ d ∈ Nat.toDigits 10 n, d.isDigit = true :=
    fun n d hd => State.isDigit_of_mem_digits hd
  obtain ⟨text, after⟩ :=
    append_inj_of_boundary (inside m) (inside n) (by simp [hc]) (by simp [hc]) e
  exact ⟨digits_inj text, (List.cons.inj after).2⟩

end Digits

/-! ## 3. Diagrams -/

namespace Diagram

variable {d d' : Diagram} {a a' : Arrow} {i : Nat} {label label' : String}

/-- The labels have no line break, and those of the vertices no `>`. -/
structure Plain (d : Diagram) : Prop where
  vertices : ∀ label ∈ d.labels, '\n' ∉ label.toList ∧ '>' ∉ label.toList
  arrows : ∀ a ∈ d.arrows, '\n' ∉ a.label.toList

theorem toList_vertexLine (i : Nat) (label : String) :
    (vertexLine i label).toList = "    ".toList ++ Nat.toDigits 10 i ++ " [ label = \"".toList ++
      label.toList ++ "\" ]\n".toList := by
  have text : ∀ s : String, toString s = s := fun _ => rfl
  simp [vertexLine, String.toList_append, text]

theorem toList_arrowLine (a : Arrow) :
    (arrowLine a).toList = "    ".toList ++ (Nat.toDigits 10 a.source ++ ' ' :: ("-> ".toList ++
      (Nat.toDigits 10 a.target ++ ' ' :: ("[ label = \"".toList ++
      (a.label.toList ++ "\" ]\n".toList))))) := by
  have text : ∀ s : String, toString s = s := fun _ => rfl
  simp [arrowLine, String.toList_append, text]

theorem isLine_vertexLine (h : '\n' ∉ label.toList) : IsLine (vertexLine i label).toList := by
  refine ⟨"    ".toList ++ Nat.toDigits 10 i ++ " [ label = \"".toList ++ label.toList ++
    "\" ]".toList, ?_, ?_⟩
  · simp [toList_vertexLine]
  · simp [h, not_mem_digits]

theorem isLine_arrowLine (h : '\n' ∉ a.label.toList) : IsLine (arrowLine a).toList := by
  refine ⟨"    ".toList ++ Nat.toDigits 10 a.source ++ " -> ".toList ++
    Nat.toDigits 10 a.target ++ " [ label = \"".toList ++ a.label.toList ++ "\" ]".toList, ?_, ?_⟩
  · simp [toList_arrowLine]
  · simp [h, not_mem_digits]

theorem not_mem_vertexLine (h : '>' ∉ label.toList) : '>' ∉ (vertexLine i label).toList := by
  simp [toList_vertexLine, h, not_mem_digits]

theorem mem_arrowLine (a : Arrow) : '>' ∈ (arrowLine a).toList := by
  simp [toList_arrowLine]

theorem vertexLine_inj (h : vertexLine i label = vertexLine i label') : label = label' := by
  have chars := congrArg String.toList h
  simp only [toList_vertexLine, List.append_cancel_left_eq, List.append_cancel_right_eq] at chars
  exact String.toList_inj.mp chars

theorem arrowLine_inj (h : arrowLine a = arrowLine a') : a = a' := by
  have chars := congrArg String.toList h
  rw [toList_arrowLine, toList_arrowLine, List.append_cancel_left_eq] at chars
  obtain ⟨source, chars⟩ := digits_append_inj rfl chars
  rw [List.append_cancel_left_eq] at chars
  obtain ⟨target, chars⟩ := digits_append_inj rfl chars
  rw [List.append_cancel_left_eq, List.append_cancel_right_eq] at chars
  obtain ⟨i, j, label⟩ := a
  obtain ⟨i', j', label'⟩ := a'
  simp only at source target chars
  rw [source, target, String.toList_inj.mp chars]

/-- The lines of the vertices and of the arrows. -/
def lines (d : Diagram) : List String := d.labels.mapIdx vertexLine ++ d.arrows.map arrowLine

theorem toList_dot (d : Diagram) :
    d.dot.toList =
      "digraph \x7b\n".toList ++ ((d.lines.map String.toList).flatten ++ "\x7d\n".toList) := by
  simp [dot, lines, String.toList_append, String.toList_join, List.flatMap_def]

namespace Plain

theorem isLine (h : d.Plain) : ∀ line ∈ d.lines.map String.toList, IsLine line := by
  intro line mem
  obtain ⟨text, mem, e⟩ := List.mem_map.mp mem
  rw [← e]
  rcases List.mem_append.mp mem with mem | mem
  · obtain ⟨i, lt, e⟩ := List.mem_mapIdx.mp mem
    rw [← e]
    exact isLine_vertexLine (h.vertices _ (List.getElem_mem lt)).1
  · obtain ⟨a, ha, e⟩ := List.mem_map.mp mem
    rw [← e]
    exact isLine_arrowLine (h.arrows a ha)

/-- The lines of the vertices are those without a `>`. -/
theorem filter_vertices (h : d.Plain) :
    d.lines.filter (fun line => '>' ∉ line.toList) = d.labels.mapIdx vertexLine := by
  have vertices : ∀ line ∈ d.labels.mapIdx vertexLine, '>' ∉ line.toList := by
    intro line mem
    obtain ⟨i, lt, e⟩ := List.mem_mapIdx.mp mem
    rw [← e]
    exact not_mem_vertexLine (h.vertices _ (List.getElem_mem lt)).2
  have arrows : ∀ line ∈ d.arrows.map arrowLine, '>' ∈ line.toList := by
    intro line mem
    obtain ⟨a, _, e⟩ := List.mem_map.mp mem
    rw [← e]
    exact mem_arrowLine a
  rw [lines, List.filter_append, List.filter_eq_self.mpr (by simpa using vertices),
    List.filter_eq_nil_iff.mpr (by simpa using arrows), List.append_nil]

end Plain

/-- **A plain diagram is read back from its text.** -/
theorem dot_inj (h : d.Plain) (h' : d'.Plain) (e : d.dot = d'.dot) : d = d' := by
  have chars := congrArg String.toList e
  rw [toList_dot, toList_dot, List.append_cancel_left_eq, List.append_cancel_right_eq] at chars
  have lines : d.lines = d'.lines :=
    List.map_injective_iff.mpr (fun _ _ => String.toList_inj.mp)
      (IsLine.flatten_inj h.isLine h'.isLine chars)
  have vertices : d.labels.mapIdx vertexLine = d'.labels.mapIdx vertexLine := by
    rw [← h.filter_vertices, ← h'.filter_vertices, lines]
  have arrows : d.arrows.map arrowLine = d'.arrows.map arrowLine := by
    rw [Diagram.lines, Diagram.lines, vertices] at lines
    exact List.append_cancel_left lines
  have labels : d.labels = d'.labels := by
    refine List.ext_getElem (by simpa using congrArg List.length vertices) ?_
    intro i lt lt'
    have line := congrArg (·[i]?) vertices
    simp [lt, lt'] at line
    exact vertexLine_inj line
  obtain ⟨ls, as⟩ := d
  obtain ⟨ls', as'⟩ := d'
  simp only at labels arrows
  rw [labels, List.map_injective_iff.mpr (fun _ _ => arrowLine_inj) arrows]

end Diagram

/-! ## 4. Labels of vertices -/

namespace State

variable {s t : State} {c : Char} {rest rest' : List Char}

theorem mem_chars (h : c ∈ s.chars) : c = '$' ∨ c.isDigit = true := by
  by_cases hs : s = bottom
  · rw [hs] at h
    exact .inl (List.mem_singleton.mp h)
  · rw [chars_of_ne hs] at h
    exact .inr (isDigit_of_mem_digits h)

/-- A state ends before the first character that is no digit. -/
theorem chars_append_inj (h : ∀ c, rest.head? = some c → c.isDigit = false)
    (h' : ∀ c, rest'.head? = some c → c.isDigit = false)
    (e : s.chars ++ rest = t.chars ++ rest') : s = t ∧ rest = rest' := by
  obtain ⟨_, hs⟩ := read?_chars rfl h
  obtain ⟨_, ht⟩ := read?_chars e h'
  obtain ⟨state, left⟩ := Prod.mk.inj (Option.some.inj (hs.symm.trans ht))
  exact ⟨state, congrArg Subtype.val left⟩

/-- The characters of the states of a list after the first, with a bracket at the end. -/
def charsOfMore : List State → List Char
  | [] => [']']
  | s :: states => ',' :: ' ' :: (s.chars ++ charsOfMore states)

theorem intercalate_chars (s : State) (states : List State) :
    [',', ' '].intercalate ((s :: states).map chars) ++ [']'] = s.chars ++ charsOfMore states := by
  induction states generalizing s with
  | nil => simp [charsOfMore]
  | cons t states ih =>
    simp only [List.map_cons] at ih
    simp [charsOfMore, List.intercalate_cons_cons, ← ih t]

theorem not_isDigit_of_head_charsOfMore {states : List State}
    (h : (charsOfMore states).head? = some c) : c.isDigit = false := by
  cases states with
  | nil =>
    obtain rfl := Option.some.inj h
    rfl
  | cons s states =>
    obtain rfl := Option.some.inj h
    rfl

/-- **A list of states is read back.** -/
theorem charsOfMore_inj {ss ts : List State} (h : charsOfMore ss = charsOfMore ts) : ss = ts := by
  induction ss generalizing ts with
  | nil =>
    cases ts with
    | nil => rfl
    | cons t ts => simp [charsOfMore] at h
  | cons s ss ih =>
    cases ts with
    | nil => simp [charsOfMore] at h
    | cons t ts =>
      simp only [charsOfMore, List.cons.injEq, true_and] at h
      obtain ⟨state, more⟩ := chars_append_inj (fun _ => not_isDigit_of_head_charsOfMore)
        (fun _ => not_isDigit_of_head_charsOfMore) h
      rw [state, ih more]

/-- A character that a label may have. -/
def InLabel (c : Char) : Prop := c.isDigit = true ∨ c ∈ ['$', '[', ']', ',', ' ']

theorem inLabel_of_mem_chars (h : c ∈ s.chars) : InLabel c := by
  rcases mem_chars h with e | digit
  · rw [e]
    exact .inr (by simp)
  · exact .inl digit

theorem inLabel_of_mem_charsOfMore {states : List State} (h : c ∈ charsOfMore states) :
    InLabel c := by
  induction states with
  | nil =>
    rw [List.mem_singleton.mp h]
    exact .inr (by simp)
  | cons s states ih =>
    simp only [charsOfMore, List.mem_cons, List.mem_append] at h
    rcases h with e | e | here | later
    · exact .inr (by simp [e])
    · exact .inr (by simp [e])
    · exact inLabel_of_mem_chars here
    · exact ih later

theorem InLabel.ne (h : InLabel c) : c ≠ '\n' ∧ c ≠ '>' := by
  constructor
  · intro e
    rw [e] at h
    exact absurd h (by simp [InLabel])
  · intro e
    rw [e] at h
    exact absurd h (by simp [InLabel])

end State

namespace Node

variable {m n : Node} {c : Char}

/-- The kind of a node whose label begins with the character. -/
def kindOf (c : Char) : Kind := if c = '$' then .bottom else if c = '[' then .choice else .frame

theorem toList_label_bottom (i : Nat) : (bottom i).label.toList = State.bottom.chars :=
  String.toList_ofList

theorem toList_label_frame (i : Nat) (k : Key) (state : State) (parent : Node) :
    (frame i k state parent).label.toList = state.chars := by
  simp [label, State.text]

theorem label_choice (i : Nat) (k : Key) (slots : List (Slot Node)) :
    (choice i k slots).label =
      "[" ++ String.intercalate ", " ((Slot.states slots).map State.text) ++ "]" := by
  rw [label, Slot.states, List.map_map]
  rfl

theorem toList_label_choice {slots : List (Slot Node)} {s : State} {states : List State}
    (i : Nat) (k : Key) (h : Slot.states slots = s :: states) :
    (choice i k slots).label.toList = '[' :: (s.chars ++ State.charsOfMore states) := by
  have texts : ((s :: states).map State.text).map String.toList =
      (s :: states).map State.chars := by
    simp [State.text]
  rw [label_choice, h, ← State.intercalate_chars, ← texts]
  simp [String.toList_append, String.toList_intercalate]

/-- The label of a node depends on its kind and its states only. -/
theorem label_eq (kind : m.kind = n.kind) (states : m.states = n.states) : m.label = n.label := by
  cases m with
  | bottom i =>
    cases n with
    | bottom j => rfl
    | frame j k state parent => cases kind
    | choice j k slots => cases kind
  | frame i k state parent =>
    cases n with
    | bottom j => cases kind
    | frame j k' state' parent' => exact congrArg State.text (List.cons.inj states).1
    | choice j k slots => cases kind
  | choice i k slots =>
    cases n with
    | bottom j => cases kind
    | frame j k state parent => cases kind
    | choice j k' slots' =>
      have states : Slot.states slots = Slot.states slots' := states
      rw [label_choice, label_choice, states]

theorem Sound.exists_states {i : Nat} {k : Key} {slots : List (Slot Node)}
    (h : (choice i k slots).Sound) : ∃ s states, Slot.states slots = s :: states := by
  cases slots with
  | nil => exact absurd h.1 (by simp)
  | cons s slots => exact ⟨s.state, Slot.states slots, rfl⟩

/-- The label of a node begins with a character that tells the kind of the node. -/
theorem Sound.exists_label_cons (h : n.Sound) :
    ∃ c cs, n.label.toList = c :: cs ∧ kindOf c = n.kind := by
  cases n with
  | bottom i => exact ⟨'$', [], toList_label_bottom i, rfl⟩
  | frame i k state parent =>
    obtain ⟨c, cs, first, digit, _⟩ := State.exists_chars_eq_cons h.1
    refine ⟨c, cs, (toList_label_frame i k state parent).trans first, ?_⟩
    rw [kindOf, if_neg (State.ne_of_isDigit digit rfl), if_neg (State.ne_of_isDigit digit rfl)]
    rfl
  | choice i k slots =>
    obtain ⟨s, states, e⟩ := h.exists_states
    exact ⟨'[', _, toList_label_choice i k e, rfl⟩

/-- **The label of a node tells its kind and its states.** -/
theorem label_inj (hm : m.Sound) (hn : n.Sound) (h : m.label = n.label) :
    m.kind = n.kind ∧ m.states = n.states := by
  obtain ⟨c, cs, first, kind⟩ := hm.exists_label_cons
  obtain ⟨d, ds, first', kind'⟩ := hn.exists_label_cons
  have chars := congrArg String.toList h
  have same : m.kind = n.kind := by
    rw [first, first'] at chars
    rw [← kind, ← kind', (List.cons.inj chars).1]
  refine ⟨same, ?_⟩
  cases m with
  | bottom i =>
    cases n with
    | bottom j => rfl
    | frame j k state parent => cases same
    | choice j k slots => cases same
  | frame i k state parent =>
    cases n with
    | bottom j => cases same
    | frame j k' state' parent' =>
      rw [toList_label_frame, toList_label_frame] at chars
      exact congrArg (fun s => [s]) (State.chars_injective chars)
    | choice j k slots => cases same
  | choice i k slots =>
    cases n with
    | bottom j => cases same
    | frame j k state parent => cases same
    | choice j k' slots' =>
      obtain ⟨s, states, e⟩ := hm.exists_states
      obtain ⟨t, states', e'⟩ := hn.exists_states
      rw [toList_label_choice i k e, toList_label_choice j k' e'] at chars
      obtain ⟨state, more⟩ := State.chars_append_inj
        (fun _ => State.not_isDigit_of_head_charsOfMore)
        (fun _ => State.not_isDigit_of_head_charsOfMore) (List.cons.inj chars).2
      show Slot.states slots = Slot.states slots'
      rw [e, e', state, State.charsOfMore_inj more]

/-- The label of a node has only characters that a label may have. -/
theorem Sound.inLabel (h : n.Sound) (hc : c ∈ n.label.toList) : State.InLabel c := by
  cases n with
  | bottom i =>
    rw [toList_label_bottom] at hc
    exact State.inLabel_of_mem_chars hc
  | frame i k state parent =>
    rw [toList_label_frame] at hc
    exact State.inLabel_of_mem_chars hc
  | choice i k slots =>
    obtain ⟨s, states, e⟩ := h.exists_states
    rw [toList_label_choice i k e] at hc
    rcases List.mem_cons.mp hc with e | hc
    · exact .inr (by simp [e])
    · rcases List.mem_append.mp hc with hc | hc
      · exact State.inLabel_of_mem_chars hc
      · exact State.inLabel_of_mem_charsOfMore hc

/-- The label of a slot is a number or nothing. -/
theorem toList_slotLabel (n : Node) (index : Nat) :
    (n.slotLabel index).toList = if 1 < n.size then Nat.toDigits 10 index else [] := by
  unfold slotLabel
  split
  · exact Nat.toList_repr
  · rfl

end Node

end StackGraph
