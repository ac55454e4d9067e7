import StackGraph.Proofs.Equality
import StackGraph.Proofs.Memos

/-!
# Tables with a fact about every entry

What every entry of a table satisfies is known of all that is found, and an insertion keeps it. An
insertion under a key that is there puts the new value beside the old key, so the fact has to go
over to the old key as well.

* `Table.Every` -- every entry satisfies a fact;
* `Table.every_empty`, `Table.Every.insert`, `Table.Every.find?`;
* `Table.entries_insert_of_find?_eq_none` -- a new key comes behind all others;
* `Table.AgreeBut` -- tables that may differ under one key;
* `MergeTable.Over` -- a memo over a graph: pairs and merges are nodes of it, and it is asked by
  structure (`MergeTable.Over.find?_congr`);
* `MemoUpkeep.table` -- such a memo stays over the graph, whatever merges it holds.
-/

namespace StackGraph

namespace Table

variable {κ α : Type} {P Q : κ → α → Prop} {t : Table κ α} {k : κ} {a : α}

/-- Every entry of the table satisfies `P`. -/
def Every (P : κ → α → Prop) (t : Table κ α) : Prop := ∀ e ∈ t.entries, P e.1 e.2

theorem every_empty : (Table.empty : Table κ α).Every P := fun _ h => absurd h List.not_mem_nil

theorem Every.imp (h : t.Every P) (hPQ : ∀ k a, P k a → Q k a) : t.Every Q :=
  fun e he => hPQ e.1 e.2 (h e he)

variable [BEq κ]

theorem Every.find? (h : t.Every P) (found : t.find? k = some a) :
    ∃ k', (k' == k) = true ∧ P k' a := by
  obtain ⟨entries⟩ := t
  replace found : lookUp k entries = some a := found
  induction entries with
  | nil => cases found
  | cons e rest ih =>
    unfold lookUp at found
    by_cases eq : (e.1 == k) = true
    · rw [if_pos eq] at found
      exact ⟨e.1, eq, Option.some.inj found ▸ h e List.mem_cons_self⟩
    · rw [if_neg eq] at found
      exact ih (fun e' he' => h e' (List.mem_cons_of_mem _ he')) found

/-- **An insertion keeps a fact** that the new value satisfies beside its own key and beside an old
    one. -/
theorem Every.insert (h : t.Every P) (new : P k a)
    (old : ∀ k' a', (k' == k) = true → P k' a' → P k' a) : (t.insert k a).Every P := by
  obtain ⟨entries⟩ := t
  show ∀ e ∈ put k a entries, P e.1 e.2
  induction entries with
  | nil =>
    intro e he
    rw [List.mem_singleton.mp he]
    exact new
  | cons first rest ih =>
    have hfirst := h first List.mem_cons_self
    have hrest : Every P ⟨rest⟩ := fun e he => h e (List.mem_cons_of_mem _ he)
    intro e he
    unfold put at he
    by_cases eq : (first.1 == k) = true
    · rw [if_pos eq] at he
      rcases List.mem_cons.mp he with rfl | he
      · exact old first.1 first.2 eq hfirst
      · exact hrest e he
    · rw [if_neg eq] at he
      rcases List.mem_cons.mp he with rfl | he
      · exact hfirst
      · exact ih hrest e he

/-- Keys that the same entries have find the same. -/
theorem find?_congr {k' : κ} (h : ∀ e ∈ t.entries, (e.1 == k) = (e.1 == k')) :
    t.find? k = t.find? k' := by
  obtain ⟨entries⟩ := t
  show lookUp k entries = lookUp k' entries
  induction entries with
  | nil => rfl
  | cons e rest ih =>
    unfold lookUp
    rw [h e List.mem_cons_self, ih fun e' he' => h e' (List.mem_cons_of_mem _ he')]

theorem lookUp_eq_none_iff {k : κ} {xs : List (κ × α)} :
    lookUp k xs = none ↔ ∀ e ∈ xs, (e.1 == k) = false := by
  induction xs with
  | nil => simp [lookUp]
  | cons x xs ih =>
    by_cases h : (x.1 == k) = true
    · simp [lookUp, h]
    · simp [lookUp, h, ih]

/-- **A key that is not there gets an entry of its own**, behind all others. -/
theorem entries_insert_of_find?_eq_none (h : t.find? k = none) :
    (t.insert k a).entries = t.entries ++ [(k, a)] := by
  obtain ⟨entries⟩ := t
  replace h : ∀ e ∈ entries, (e.1 == k) = false := lookUp_eq_none_iff.mp h
  show put k a entries = entries ++ [(k, a)]
  induction entries with
  | nil => rfl
  | cons e rest ih =>
    have first := h e List.mem_cons_self
    have others := ih fun e' he' => h e' (List.mem_cons_of_mem _ he')
    simp [put, first, others]

/-- A fact about values alone. -/
theorem Every.insert_value {P : α → Prop} (h : t.Every fun _ a => P a) (new : P a) :
    (t.insert k a).Every fun _ a => P a :=
  h.insert new fun _ _ _ _ => new

theorem Every.find?_value {P : α → Prop} (h : t.Every fun _ a => P a) (found : t.find? k = some a) :
    P a :=
  let ⟨_, _, ha⟩ := h.find? found
  ha

/-- A key that is there stays there. -/
theorem isSome_find?_insert [LawfulBEq κ] {k' : κ} (h : (t.find? k').isSome) :
    ((t.insert k a).find? k').isSome := by
  by_cases e : k = k'
  · subst e
    rw [find?_insert_self]
    rfl
  · rw [find?_insert_of_ne t (beq_eq_false_iff_ne.mpr e)]
    exact h

/-- Under every key, but perhaps under `k`, the second table has what the first one has. -/
def AgreeBut (k : Option κ) (t t' : Table κ α) : Prop :=
  ∀ k', k ≠ some k' → t'.find? k' = t.find? k'

theorem AgreeBut.refl (k : Option κ) (t : Table κ α) : t.AgreeBut k t := fun _ _ => rfl

theorem AgreeBut.insert [LawfulBEq κ] {k : Option κ} {k' : κ} {t' : Table κ α}
    (h : t.AgreeBut k t') (e : k = some k') (a : α) : t.AgreeBut k (t'.insert k' a) := by
  subst e
  intro l hl
  have ne : k' ≠ l := fun e => hl (congrArg some e)
  rw [find?_insert_of_ne t' (beq_eq_false_iff_ne.mpr ne), h l hl]

end Table

/-! ## Memos over a graph -/

/-- A memo of which pairs and merges are nodes of the graph. -/
def MergeTable.Over (g : Graph) (t : MergeTable) : Prop :=
  t.Every fun pair m => (pair.1 ∈ g ∧ pair.2 ∈ g) ∧ m ∈ g

theorem MergeTable.over_empty {g : Graph} : MergeTable.Over g .empty := Table.every_empty

theorem MergeTable.Over.mono {g g' : Graph} {t : MergeTable} (h : MergeTable.Over g t)
    (le : g ≤ g') : MergeTable.Over g' t :=
  h.imp fun pair m hm => ⟨⟨le pair.1 hm.1.1, le pair.2 hm.1.2⟩, le m hm.2⟩

theorem MergeTable.Over.find? {g : Graph} {t : MergeTable} {a b m : Node}
    (h : MergeTable.Over g t) (found : Memo.find? t a b = some m) : m ∈ g :=
  let ⟨_, _, hm⟩ := Table.Every.find? h found
  hm.2

theorem MergeTable.Over.store {g : Graph} {t : MergeTable} {a b m : Node}
    (h : MergeTable.Over g t) (ha : a ∈ g) (hb : b ∈ g) (hm : m ∈ g) :
    MergeTable.Over g (Memo.store t a b m) :=
  h.insert ⟨⟨ha, hb⟩, hm⟩ fun _ _ _ old => ⟨old.1, hm⟩

/-- **A memo is asked by structure**: nodes of the same trees find the same. -/
theorem MergeTable.Over.find?_congr {g : Graph} {t : MergeTable} {a b a' b' : Node}
    (h : MergeTable.Over g t) (ha : a ∈ g) (hb : b ∈ g) (ha' : a' ∈ g) (hb' : b' ∈ g)
    (ea : a.tree = a'.tree) (eb : b.tree = b'.tree) : Memo.find? t a b = Memo.find? t a' b' := by
  refine Table.find?_congr fun entry he => ?_
  obtain ⟨⟨hx, hy⟩, _⟩ := h entry he
  have left : (entry.1.1 == a) = (entry.1.1 == a') :=
    Bool.eq_iff_iff.mpr (by rw [Graph.beq_iff hx ha, Graph.beq_iff hx ha', ea])
  have right : (entry.1.2 == b) = (entry.1.2 == b') :=
    Bool.eq_iff_iff.mpr (by rw [Graph.beq_iff hy hb, Graph.beq_iff hy hb', eb])
  show (entry.1.1 == a && entry.1.2 == b) = (entry.1.1 == a' && entry.1.2 == b')
  rw [left, right]

/-- What is stored for a pair is found for every pair of the same trees. -/
theorem MergeTable.Over.find?_store {g : Graph} {t : MergeTable} {a b a' b' m : Node}
    (h : MergeTable.Over g t) (ha : a ∈ g) (hb : b ∈ g) (ha' : a' ∈ g) (hb' : b' ∈ g) (hm : m ∈ g)
    (ea : a.tree = a'.tree) (eb : b.tree = b'.tree) :
    Memo.find? (Memo.store t a b m) a' b' = some m := by
  rw [← (h.store ha hb hm).find?_congr ha hb ha' hb' ea eb]
  exact Table.find?_insert_self t (a, b) m

/-- A memo over the graph answers with nodes of the graph, but it need not be honest. -/
def MemoUpkeep.table (mode : Mode) : MemoUpkeep MergeTable False mode where
  Holds := MergeTable.Over
  mono le h := h.mono le
  find? h _ _ found := ⟨h.find? found, False.elim⟩
  store h ha hb hm := h.store ha hb hm.mem

end StackGraph
