import StackGraph.Proofs.HonestMemos
import StackGraph.Proofs.StoredOnce

/-!
# The ledger of a memo

In a session a memo is given entries by the merges that use it. The journal of each step records
what was given, and the memo holds the entries in the order in which they were given: a merge never
gives an entry about a pair that the memo knows. A memo that was empty once and was given merges
only is therefore the list of all that was given to it, and it answers for ever what it answered
once.

* `Session.step_merges` -- the step of a command that merges on a memo;
* `Session.storingsOf` -- what a run gives to a memo, read off the journals of its steps;
* `Answered` -- a merge that the memo, or no question at all, has an answer to;
* `Session.Over.keeps_ledger` -- what one command does to a memo that holds each pair once;
* `Session.merge_stores_each_pair_once` -- **one computation for each unordered pair**.
-/

namespace StackGraph

open Node

variable {g : Graph} {mode : Mode}

/-! ## 1. Operands, and a step that merges -/

theorem GraphM.Silent.need {α : Type} (field : Bindings → Table String α) (name : String) :
    GraphM.Silent (do GraphM.lift ((field (← GraphM.table)).need name) : SessionM α) :=
  GraphM.Silent.table.bind fun _ => .lift _

/-- Getting the operands of a merge gives nothing to a memo. -/
theorem Operands.silent_nodes (operands : Operands) : GraphM.Silent operands.nodes := by
  cases operands with
  | pair a b => exact (GraphM.Silent.need Bindings.nodes a).bind fun _ =>
      (GraphM.Silent.need Bindings.nodes b).bind fun _ => .pure _
  | all names => exact .mapM (fun name => .need Bindings.nodes name) names
  | chains states => exact .mapM (fun xs => .foldlM (fun n x => .push n x) xs Node.empty) states

namespace Session

variable {s s₁ : Session} {memo : String} {t : MergeTable} {nodes : List Node} {m : Node}
  {operands : Operands}

/-- The session after a computation on the memo of a name, which ended in the arena `inner`. -/
def withMemo (s : Session) (memo : String) (inner : Arena MergeTable) : Session :=
  ⟨inner.next, inner.journal, { s.table with memos := s.table.memos.insert memo inner.table }⟩

/-- A merge on the memo of a name replies the merge and the size of the memo. -/
theorem runMerge_run (found : s.table.memos.find? memo = some t) {inner : Arena MergeTable}
    (run : mergeAll mode nodes ⟨s.next, s.journal, t⟩ = .ok m inner) :
    Command.runMerge mode (some memo) nodes s =
      .ok (.merged m (some inner.table.size)) (s.withMemo memo inner) := by
  have asked : SessionM.memo memo s = .ok t s := SessionM.need_run Bindings.memos found
  have onMemo : SessionM.onMemo memo t (mergeAll mode nodes) s = .ok m (s.withMemo memo inner) := by
    unfold SessionM.onMemo GraphM.within
    rw [run]
    rfl
  have again : SessionM.memo memo (s.withMemo memo inner) =
      .ok inner.table (s.withMemo memo inner) :=
    SessionM.need_run Bindings.memos (Table.find?_insert_self _ memo _)
  refine (GraphM.bind_run_of_ok asked _).trans ((GraphM.bind_run_of_ok onMemo _).trans ?_)
  exact GraphM.bind_run_of_ok again _

/-- **The step of a command that merges nodes on a memo**: the merges never fail, and the memo is
    put back as they leave it. -/
theorem Over.step_merges (hs : s.Over g) (found : s.table.memos.find? memo = some t)
    (run : operands.nodes s.ready = .ok nodes s₁) (mode : Mode) (name : Option String) :
    ∃ g₁ m inner g₂, g ≤ g₁ ∧ (∀ n ∈ nodes, n ∈ g₁) ∧
      (MemoUpkeep.table mode).toUpkeep.At g₁ ⟨s₁.next, s₁.journal, t⟩ ∧
      mergeAll mode nodes ⟨s₁.next, s₁.journal, t⟩ = .ok m inner ∧ g₁ ≤ g₂ ∧ m ∈ g₂ ∧
      (MemoUpkeep.table mode).toUpkeep.At g₂ inner ∧
      s.step (operands.command mode (some memo)) name =
        (.ok (.merged m (some inner.table.size)), (s₁.withMemo memo inner).bindNode name m) ∧
      ((s₁.withMemo memo inner).bindNode name m).Over g₂ := by
  have kept : (SessionUpkeep.but {} s.table).toUpkeep.At g s.ready := ⟨hs.1, hs.2, .refl _ _⟩
  obtain ⟨g₁, le, ⟨next, covered, _⟩, mem⟩ := (Grows.operands operands).of_ok kept run
  have same : s₁.table = s.table := (operands.silent_nodes.ok run).table_eq
  have found₁ : s₁.table.memos.find? memo = some t := same ▸ found
  have asked : (MemoUpkeep.table mode).toUpkeep.At g₁ ⟨s₁.next, s₁.journal, t⟩ :=
    ⟨next, covered.memos.find?_value found₁⟩
  obtain ⟨m, inner, g₂, merged, le₂, after, hm, _⟩ := (Grows.mergeAll mem).result asked
  have ran : (operands.command mode (some memo)).run s.ready =
      .ok (.merged m (some inner.table.size)) (s₁.withMemo memo inner) := by
    rw [Operands.run_command, GraphM.bind_run_of_ok run, runMerge_run found₁ merged]
  have covered₂ : (s₁.withMemo memo inner).Over g₂ := by
    have old : s₁.table.Over g₂ := Bindings.upkeep.mono le₂ covered
    exact ⟨after.1, { old with memos := old.memos.insert_value after.2 }⟩
  refine ⟨g₁, m, inner, g₂, le, mem, asked, merged, le₂, hm, after, step_of_node ran rfl,
    covered₂.bindNode hm⟩

end Session

/-! ## 2. Stored and answered -/

section Arenas

variable {a b m r : Node} {s s' : Arena MergeTable} {t t' : MergeTable} {new : List Entry}

theorem Stores.over_new (h : Stores s s' new) (ht : MergeTable.Over g s'.table) :
    MergeTable.Over g ⟨new⟩ := fun e he =>
  ht e (h.entries_eq ▸ List.mem_append_right _ he)

theorem Stores.nodup (h : Stores s s' new) (ht : MergeTable.Over g s'.table)
    (once : s.table.pairs.Nodup) : s'.table.pairs.Nodup := by
  have old : MergeTable.Over g s.table := fun e he =>
    ht e (h.entries_eq ▸ List.mem_append_left _ he)
  exact h.table_eq ▸ h.takes.nodup old (h.over_new ht) once

/-- The merges of a list from the left give new entries only. -/
theorem stores_mergeAll {nodes : List Node} (hs : (MemoUpkeep.table mode).toUpkeep.At g s)
    (mem : ∀ n ∈ nodes, n ∈ g) (run : mergeAll mode nodes s = .ok m s') :
    ∃ new, Stores s s' new := by
  cases nodes with
  | nil =>
    obtain ⟨rfl, rfl⟩ := EStateM.Result.ok.inj run
    exact ⟨[], .of_alike (.refl s)⟩
  | cons first rest =>
    rw [List.forall_mem_cons] at mem
    obtain ⟨hfirst, mem⟩ := mem
    replace run : rest.foldlM (merge mode) first s = .ok m s' := run
    induction rest generalizing g s first with
    | nil =>
      obtain ⟨rfl, rfl⟩ := EStateM.Result.ok.inj run
      exact ⟨[], .of_alike (.refl s)⟩
    | cons n rest ih =>
      obtain ⟨hn, mem⟩ := List.forall_mem_cons.mp mem
      rw [List.foldlM_cons] at run
      obtain ⟨r, s₁, ran, run⟩ := GraphM.bind_ok run
      obtain ⟨new, stores, _⟩ := stores_merge hs hfirst hn ran
      obtain ⟨g₁, le, hs₁, hr⟩ := (Grows.merge hfirst hn).of_ok hs ran
      obtain ⟨new', stores'⟩ := ih hs₁ r hr.mem (fun k hk => le k (mem k hk)) run
      exact ⟨new ++ new', stores.trans stores'⟩

/-- Whether a merge ends at once does not depend on the order of the nodes, and neither does where
    it ends. -/
theorem atOnce?_comm (ha : a ∈ g) (hb : b ∈ g) : atOnce? mode b a = atOnce? mode a b := by
  unfold atOnce?
  rw [same_comm b a]
  by_cases same : a.same b = true
  · rw [if_pos same, if_pos same, Graph.eq_of_same ha hb same]
  · rw [if_neg same, if_neg same]
    by_cases left : mode = .wildcard ∧ a.isBottom ∧ b.kind = .choice
    · have right : ¬ (mode = .wildcard ∧ b.isBottom ∧ a.kind = .choice) := by
        rintro ⟨_, _, k⟩
        cases a <;> simp_all [isBottom, kind]
      rw [if_pos left, if_neg right, if_pos ⟨left.1, left.2.2, left.2.1⟩]
    · rw [if_neg left]
      by_cases right : mode = .wildcard ∧ b.isBottom ∧ a.kind = .choice
      · rw [if_pos right, if_pos ⟨right.1, right.2.2, right.2.1⟩]
      · rw [if_neg right, if_neg fun h => left ⟨h.1, h.2.2, h.2.1⟩,
          if_neg fun h => right ⟨h.1, h.2.2, h.2.1⟩]

/-- What a merge of two nodes is answered without a computation: it ends at once, or an entry is
    about the pair. -/
def Answered (mode : Mode) (t : MergeTable) (a b m : Node) : Prop :=
  atOnce? mode a b = some m ∨
  atOnce? mode a b = none ∧ ∃ e ∈ t.entries, e.2 = m ∧ Entry.pair e = s(a.tree, b.tree)

theorem Answered.symm (h : Answered mode t a b m) (ha : a ∈ g) (hb : b ∈ g) :
    Answered mode t b a m := by
  unfold Answered at h ⊢
  rw [atOnce?_comm ha hb, Sym2.eq_swap]
  exact h

theorem Answered.mono (h : Answered mode t a b m) (le : ∀ e ∈ t.entries, e ∈ t'.entries) :
    Answered mode t' a b m :=
  h.imp_right fun ⟨asks, e, he, found⟩ => ⟨asks, e, le e he, found⟩

/-- What a merge gave, it is answered from then on. -/
theorem answered_of_merge (hs : (MemoUpkeep.table mode).toUpkeep.At g s) (ha : a ∈ g) (hb : b ∈ g)
    (run : merge mode a b s = .ok m s') : Answered mode s'.table a b m := by
  cases merge_ok hs ha hb run with
  | atOnce h _ => exact .inl h
  | known asks h alike =>
    exact .inr ⟨asks, alike.table_eq ▸ MergeTable.Over.exists_known hs.2 ha hb h⟩
  | computed asks _ _ e =>
    obtain ⟨new, stores, _⟩ := stores_merge hs ha hb run
    obtain ⟨g', le, hs', _⟩ := (Grows.merge ha hb).of_ok hs run
    have found : Memo.find? s'.table a b = some m := e ▸ Table.find?_insert_self _ (a, b) m
    obtain ⟨entry, he, em, ea, eb⟩ :=
      MergeTable.Over.exists_entry hs'.2 (le a ha) (le b hb) found
    exact .inr ⟨asks, entry, he, em, Sym2.eq_iff.mpr (.inl ⟨ea, eb⟩)⟩

/-- **A merge that is answered gives the answer**, where the memo holds each pair once. -/
theorem Answered.eq (h : Answered mode s.table a b m) (hs : (MemoUpkeep.table mode).toUpkeep.At g s)
    (once : s.table.pairs.Nodup) (ha : a ∈ g) (hb : b ∈ g) (run : merge mode a b s = .ok r s') :
    r = m := by
  have known : atOnce? mode a b = none → Memo.known? s.table a b = some m := fun asks =>
    (MergeTable.Over.known?_eq_some_iff hs.2 once ha hb).mpr <| by
      rcases h with h | ⟨_, h⟩
      · rw [asks] at h
        cases h
      · exact h
  cases merge_ok hs ha hb run with
  | atOnce e _ =>
    rcases h with h | ⟨asks, _⟩
    · exact Option.some.inj (e.symm.trans h)
    · rw [asks] at e
      cases e
  | known asks e _ => exact Option.some.inj (e.symm.trans (known asks))
  | computed asks new _ _ =>
    rw [known asks] at new
    cases new

end Arenas

/-! ## 3. Ledgers -/

namespace Session

variable {s : Session} {memo : String} {t : MergeTable} {a b : Node}
  {c : Command × Option String} {commands : List (Command × Option String)}

/-- The memo of a name is changed by no command of the list but those that merge with it. -/
def MergesOnly (memo : String) (commands : List (Command × Option String)) : Prop :=
  ∀ c ∈ commands, (c.1.writes c.2).memo = some memo →
    ∃ mode operands, c.1 = Operands.command mode (some memo) operands

/-- What a command gives to the memo of a name, read off its journal. -/
def storingsOfStep (memo : String) (s : Session) (c : Command × Option String) : List Entry :=
  if (c.1.writes c.2).memo = some memo then (s.step c.1 c.2).2.storings else []

/-- What the commands of a run give to the memo of a name. -/
def storingsOf (memo : String) (s : Session) : List (Command × Option String) → List Entry
  | [] => []
  | c :: rest => storingsOfStep memo s c ++ storingsOf memo (s.step c.1 c.2).2 rest

/-- The memo of a name is `t`, over a graph that has all nodes of the session, and holds each pair
    once. -/
structure Ledger (g : Graph) (s : Session) (memo : String) (t : MergeTable) : Prop where
  covered : s.Over g
  found : s.table.memos.find? memo = some t
  once : t.pairs.Nodup

theorem Ledger.over_memo (h : Ledger g s memo t) : MergeTable.Over g t :=
  h.covered.memo ⟨memo, h.found⟩

/-- The memo that is put back is the one that a command leaves behind. -/
theorem find?_withMemo {inner : Arena MergeTable} {name : Option String} {m : Node} :
    ((s.withMemo memo inner).bindNode name m).table.memos.find? memo = some inner.table := by
  rw [bindNode_memos]
  exact Table.find?_insert_self _ memo _

/-- A command that merges with the memo gives it what its journal says. -/
theorem Ledger.step_merges (h : Ledger g s memo t) (operands : Operands) (name : Option String) :
    ∃ g' t', g ≤ g' ∧ Ledger g' (s.step (operands.command mode (some memo)) name).2 memo t' ∧
      t'.entries =
        t.entries ++ (s.step (operands.command mode (some memo)) name).2.storings := by
  cases run : operands.nodes s.ready with
  | ok nodes s₁ =>
    obtain ⟨g₁, m, inner, g₂, le, mem, hs₁, merged, le₂, hm, after, step, covered⟩ :=
      h.covered.step_merges h.found run mode name
    obtain ⟨new, stores⟩ := stores_mergeAll hs₁ mem merged
    have silent : s₁.storings = [] := (operands.silent_nodes.ok run).storings_eq
    have given : (Session.bindNode (withMemo s₁ memo inner) name m).storings = new := by
      have all : inner.storings = s₁.storings ++ new := stores.storings_eq
      rw [silent, List.nil_append] at all
      rw [← all]
      exact congrArg (fun j : Array Event => j.toList.filterMap Event.entry?)
        (bindNode_journal (withMemo s₁ memo inner) name m)
    rw [step]
    refine ⟨g₂, inner.table, g.le_trans le le₂, ⟨covered, find?_withMemo, ?_⟩, ?_⟩
    · exact stores.nodup after.2 h.once
    · rw [given]
      exact stores.entries_eq
  | error failure s₁ =>
    have failed : (operands.command mode (some memo)).run s.ready = .error failure s₁ := by
      rw [Operands.run_command, GraphM.bind_run_of_error run]
    have silent := operands.silent_nodes.error run
    obtain ⟨g', le, covered, _⟩ :=
      over_step h.covered (operands.command mode (some memo)) name
    rw [step_of_error failed] at covered ⊢
    refine ⟨g', t, le, ⟨covered, ?_, h.once⟩, ?_⟩
    · rw [silent.table_eq]
      exact h.found
    · rw [silent.storings_eq]
      exact (List.append_nil _).symm

/-- **A command that does not change the memo but by merges gives it new entries only.** -/
theorem Ledger.step (h : Ledger g s memo t)
    (only : (c.1.writes c.2).memo = some memo →
      ∃ mode operands, c.1 = Operands.command mode (some memo) operands) :
    ∃ g' t', g ≤ g' ∧ Ledger g' (s.step c.1 c.2).2 memo t' ∧
      t'.entries = t.entries ++ storingsOfStep memo s c := by
  unfold storingsOfStep
  by_cases written : (c.1.writes c.2).memo = some memo
  · obtain ⟨mode, operands, e⟩ := only written
    rw [if_pos written, e]
    exact h.step_merges operands c.2
  · obtain ⟨g', le, covered, but⟩ := over_step h.covered c.1 c.2
    rw [if_neg written]
    refine ⟨g', t, le, ⟨covered, ?_, h.once⟩, (List.append_nil _).symm⟩
    rw [but.memos memo written, h.found]

/-- **After a run that changes the memo by merges only, the memo holds what it held and, behind it,
    what the run gave to it.** -/
theorem Ledger.run (h : Ledger g s memo t) (only : MergesOnly memo commands) :
    ∃ g' t', g ≤ g' ∧
      Ledger g' (commands.foldl (fun s c => (s.step c.1 c.2).2) s) memo t' ∧
      t'.entries = t.entries ++ storingsOf memo s commands := by
  induction commands generalizing s t g with
  | nil => exact ⟨g, t, g.le_refl, h, (List.append_nil _).symm⟩
  | cons c rest ih =>
    obtain ⟨now, later⟩ := List.forall_mem_cons.mp only
    obtain ⟨g₁, t₁, le, h₁, e₁⟩ := h.step now
    obtain ⟨g₂, t₂, le₂, h₂, e₂⟩ := ih h₁ later
    refine ⟨g₂, t₂, g.le_trans le le₂, h₂, ?_⟩
    rw [e₂, e₁, List.append_assoc]
    rfl

/-! ## 4. One computation for each unordered pair -/

/-- Two names are merged on a memo: a merge of their nodes ran on it, and the step replies what the
    merge gave. -/
theorem Over.step_merge (hs : s.Over g) (found : s.table.memos.find? memo = some t) {x y : String}
    (hx : s.table.nodes.find? x = some a) (hy : s.table.nodes.find? y = some b) (mode : Mode)
    (name : Option String) :
    ∃ m inner g', merge mode a b ⟨s.next, #[], t⟩ = .ok m inner ∧ g ≤ g' ∧ m ∈ g' ∧
      (MemoUpkeep.table mode).toUpkeep.At g' inner ∧
      s.step (.merge mode (some memo) x y) name =
        (.ok (.merged m (some inner.table.size)), (s.ready.withMemo memo inner).bindNode name m) ∧
      ((s.ready.withMemo memo inner).bindNode name m).Over g' := by
  have run : (Operands.pair x y).nodes s.ready = .ok [a, b] s.ready :=
    nodes_pair (s := s.ready) hx hy
  obtain ⟨g₁, m, inner, g₂, le, _, _, merged, le₂, hm, after, step, covered⟩ :=
    hs.step_merges found run mode name
  have two : mergeAll (μ := MergeTable) mode [a, b] = merge mode a b := bind_pure _
  rw [two] at merged
  exact ⟨m, inner, g₂, merged, g.le_trans le le₂, hm, after, step, covered⟩

/-- A merge without a name for what it makes binds no node. -/
theorem Over.nodes_after_merge (hs : s.Over g) (found : s.table.memos.find? memo = some t)
    {x y : String} (hx : s.table.nodes.find? x = some a) (hy : s.table.nodes.find? y = some b)
    {reply : Except Failure Reply} {after : Session}
    (step : s.step (.merge mode (some memo) x y) none = (reply, after)) :
    after.table.nodes = s.table.nodes := by
  obtain ⟨_, _, _, _, _, _, _, step', _⟩ := hs.step_merge found hx hy mode none
  rw [step] at step'
  rw [(Prod.mk.inj step').2]
  rfl

/-- **A merge on a memo gives it new entries only**, whatever the memo holds, and no more than there
    are pairs of trees below both nodes. -/
theorem Over.merge_stores (hs : s.Over g) (found : s.table.memos.find? memo = some t) {x y : String}
    (hx : s.table.nodes.find? x = some a) (hy : s.table.nodes.find? y = some b) (mode : Mode)
    (name : Option String) :
    ∃ m new after,
      s.step (.merge mode (some memo) x y) name =
        (.ok (.merged m (some (t.size + new.length))), after) ∧
      after.storings = new ∧ after.table.memos.find? memo = some (t.storeAll new) ∧
      t.TakesNew new ∧ (t.storeAll new).entries = t.entries ++ new ∧
      (∀ e ∈ new, Reaches a e.1.1 ∧ Reaches b e.1.2) ∧
      new.length ≤ {u | a.tree.Reaches u}.ncard * {u | b.tree.Reaches u}.ncard := by
  obtain ⟨m, inner, g', run, _, _, after, step, _⟩ := hs.step_merge found hx hy mode name
  have asked : (MemoUpkeep.table mode).toUpkeep.At g ⟨s.next, #[], t⟩ := ⟨hs.1, hs.memo ⟨memo, found⟩⟩
  obtain ⟨new, stores, asks⟩ := stores_merge asked (hs.mem ⟨x, hx⟩) (hs.mem ⟨y, hy⟩) run
  have below : ∀ e ∈ new, Reaches a e.1.1 ∧ Reaches b e.1.2 := fun e he => (asks e he).reaches
  have table_eq : inner.table = t.storeAll new := stores.table_eq
  have covered : MergeTable.Over g' t := fun e he =>
    after.2 e (stores.entries_eq ▸ List.mem_append_left _ he)
  have bound := stores.length_le covered (stores.over_new after.2) below
  rw [table_eq, stores.takes.size_eq] at step
  refine ⟨m, new, _, step, ?_, ?_, stores.takes, stores.takes.entries_eq, below, bound⟩
  · have given : inner.storings = [] ++ new := stores.storings_eq
    rw [List.nil_append] at given
    rw [← given]
    exact congrArg (fun j : Array Event => j.toList.filterMap Event.entry?)
      (bindNode_journal (s.ready.withMemo memo inner) name m)
  · rw [← table_eq]
    exact find?_withMemo

/-- The merge of two names on a memo replies the node `m`. -/
def Replies (s : Session) (mode : Mode) (memo x y : String) (m : Node) : Prop :=
  ∀ name, ∃ size after,
    s.step (.merge mode (some memo) x y) name = (.ok (.merged m (some size)), after)

namespace Ledger

/-- What is answered is replied. -/
theorem replies (h : Ledger g s memo t) {m : Node} (answers : Answered mode t a b m) {x y : String}
    (hx : s.table.nodes.find? x = some a) (hy : s.table.nodes.find? y = some b) :
    s.Replies mode memo x y m := by
  intro name
  obtain ⟨r, inner, _, run, _, _, _, step, _⟩ := h.covered.step_merge h.found hx hy mode name
  have hs : (MemoUpkeep.table mode).toUpkeep.At g ⟨s.next, #[], t⟩ := ⟨h.covered.1, h.over_memo⟩
  obtain rfl := Answered.eq answers hs h.once (h.covered.mem ⟨x, hx⟩) (h.covered.mem ⟨y, hy⟩) run
  exact ⟨_, _, step⟩

/-- What a merge replies is answered from then on. -/
theorem merge (h : Ledger g s memo t) {x y : String} (hx : s.table.nodes.find? x = some a)
    (hy : s.table.nodes.find? y = some b) (mode : Mode) (name : Option String) :
    ∃ m size after g' t',
      s.step (.merge mode (some memo) x y) name = (.ok (.merged m (some size)), after) ∧
      g ≤ g' ∧ Ledger g' after memo t' ∧ Answered mode t' a b m := by
  obtain ⟨m, inner, g', run, le, _, at_inner, step, covered⟩ :=
    h.covered.step_merge h.found hx hy mode name
  have hs : (MemoUpkeep.table mode).toUpkeep.At g ⟨s.next, #[], t⟩ := ⟨h.covered.1, h.over_memo⟩
  have ha := h.covered.mem ⟨x, hx⟩
  have hb := h.covered.mem ⟨y, hy⟩
  obtain ⟨new, stores, _⟩ := stores_merge hs ha hb run
  exact ⟨m, _, _, g', inner.table, step, le,
    ⟨covered, find?_withMemo, stores.nodup at_inner.2 h.once⟩, answered_of_merge hs ha hb run⟩

/-- Two entries about one pair in both orders are one entry, about a node and its equal. -/
theorem beq_of_swapped (h : Ledger g s memo t) {e e' : Entry} (he : e ∈ t.entries)
    (he' : e' ∈ t.entries) (left : (e.1.1 == e'.1.2) = true) (right : (e.1.2 == e'.1.1) = true) :
    (e.1.1 == e.1.2) = true := by
  obtain ⟨⟨hx, hy⟩, _⟩ := h.over_memo e he
  obtain ⟨⟨hx', hy'⟩, _⟩ := h.over_memo e' he'
  have pair : Entry.pair e = Entry.pair e' := Sym2.eq_iff.mpr
    (.inr ⟨(Graph.beq_iff hx hy').mp left, (Graph.beq_iff hy hx').mp right⟩)
  obtain rfl : e = e' := List.inj_on_of_nodup_map h.once he he' pair
  exact left

end Ledger

/-- **One computation for each unordered pair.** Whatever a memo holds, a merge gives it entries
    below both nodes only, each of them when the memo knows its pair in neither order, so that no
    entry is replaced, and no more than there are pairs of trees. Hence, if the memo was empty and is
    changed by merges only, of any nodes and in any mode, then it is the list of what it was given
    and holds no pair in both orders, and what one merge replied, the same merge and the merge in the
    other order reply ever after. -/
theorem merge_stores_each_pair_once (first : List (Command × Option String)) (memo : String) :
    (∀ t x y a b mode name, (replay first).table.memos.find? memo = some t →
      (replay first).table.nodes.find? x = some a → (replay first).table.nodes.find? y = some b →
      ∃ m new after,
        (replay first).step (.merge mode (some memo) x y) name =
          (.ok (.merged m (some (t.size + new.length))), after) ∧
        after.storings = new ∧ after.table.memos.find? memo = some (t.storeAll new) ∧
        t.TakesNew new ∧ (t.storeAll new).entries = t.entries ++ new ∧
        (∀ e ∈ new, Reaches a e.1.1 ∧ Reaches b e.1.2) ∧
        new.length ≤ {u | a.tree.Reaches u}.ncard * {u | b.tree.Reaches u}.ncard) ∧
    ((replay first).table.memos.find? memo = some .empty → ∀ more, MergesOnly memo more →
      ∃ t, (replay (first ++ more)).table.memos.find? memo = some t ∧
        t.entries = storingsOf memo (replay first) more ∧
        t.size = (storingsOf memo (replay first) more).length ∧ t.pairs.Nodup ∧
        (∀ e ∈ t.entries, ∀ e' ∈ t.entries, (e.1.1 == e'.1.2) = true → (e.1.2 == e'.1.1) = true →
          (e.1.1 == e.1.2) = true) ∧
        ∀ x y a b mode name, (replay (first ++ more)).table.nodes.find? x = some a →
          (replay (first ++ more)).table.nodes.find? y = some b →
          ∃ m size after,
            (replay (first ++ more)).step (.merge mode (some memo) x y) name =
              (.ok (.merged m (some size)), after) ∧
            ∀ later, MergesOnly memo later → ∀ x' y',
              (later.foldl (fun s c => (s.step c.1 c.2).2) after).table.nodes.find? x' = some a →
              (later.foldl (fun s c => (s.step c.1 c.2).2) after).table.nodes.find? y' = some b →
              (later.foldl (fun s c => (s.step c.1 c.2).2) after).Replies mode memo x' y' m ∧
              (later.foldl (fun s c => (s.step c.1 c.2).2) after).Replies mode memo y' x' m) := by
  obtain ⟨g, hs⟩ := over_replay first
  refine ⟨fun t x y a b mode name found hx hy => hs.merge_stores found hx hy mode name,
    fun empty more only => ?_⟩
  have ledger : Ledger g (replay first) memo .empty := ⟨hs, empty, List.nodup_nil⟩
  obtain ⟨g₁, t, _, ledger₁, entries_eq⟩ := ledger.run only
  have run : more.foldl (fun s c => (s.step c.1 c.2).2) (replay first) = replay (first ++ more) :=
    List.foldl_append.symm
  rw [run] at ledger₁
  replace entries_eq : t.entries = storingsOf memo (replay first) more := entries_eq
  refine ⟨t, ledger₁.found, entries_eq, congrArg List.length entries_eq, ledger₁.once,
    fun e he e' he' => ledger₁.beq_of_swapped he he', fun x y a b mode name hx hy => ?_⟩
  obtain ⟨m, size, after, g₂, t₂, step, le, ledger₂, answers⟩ := ledger₁.merge hx hy mode name
  refine ⟨m, size, after, step, fun later only' x' y' hx' hy' => ?_⟩
  obtain ⟨g₃, t₃, le', ledger₃, entries_eq'⟩ := ledger₂.run only'
  have still : Answered mode t₃ a b m :=
    answers.mono fun e he => entries_eq' ▸ List.mem_append_left _ he
  exact ⟨ledger₃.replies still hx' hy', ledger₃.replies
    (still.symm (ledger₃.covered.mem ⟨x', hx'⟩) (ledger₃.covered.mem ⟨y', hy'⟩)) hy' hx'⟩

/-- Merges of both modes on a new memo. -/
def bothModes : List (Command × Option String) :=
  [(.merge .exact (some "memo") "a" "twin", none),
    (.mergeAll .wildcard (some "memo") ["b", "c", "a"], some "all")]

theorem mergesOnly_bothModes : MergesOnly "memo" bothModes := by
  intro c hc _
  rcases List.mem_cons.mp hc with rfl | hc
  · exact ⟨.exact, .pair "a" "twin", rfl⟩
  · rw [List.mem_singleton.mp hc]
    exact ⟨.wildcard, .all ["b", "c", "a"], rfl⟩

theorem merge_stores_each_pair_once_sample :
    (∃ m new after,
      (replay unasked).step (.merge .exact (some "memo") "a" "twin") none =
        (.ok (.merged m (some (0 + new.length))), after) ∧ after.storings = new ∧
      new.length = 2) ∧
    ∃ t m size after, (replay (unasked ++ bothModes)).table.memos.find? "memo" = some t ∧
      t.size = 4 ∧ t.pairs.Nodup ∧
      (replay (unasked ++ bothModes)).step (.merge .wildcard (some "memo") "b" "c") none =
        (.ok (.merged m (some size)), after) ∧
      after.Replies .wildcard "memo" "c" "b" m := by
  have bound : ∀ name ∈ ["a", "twin", "b", "c"],
      ((replay (unasked ++ bothModes)).table.nodes.find? name).isSome ∧
      ((replay unasked).table.nodes.find? name).isSome := by decide +kernel
  have found : (replay unasked).table.memos.find? "memo" = some .empty := rfl
  obtain ⟨any, history⟩ := merge_stores_each_pair_once unasked "memo"
  constructor
  · obtain ⟨a, ha⟩ := Option.isSome_iff_exists.mp (bound "a" (by simp)).2
    obtain ⟨twin, htwin⟩ := Option.isSome_iff_exists.mp (bound "twin" (by simp)).2
    obtain ⟨m, new, after, step, given, _⟩ := any _ "a" "twin" a twin .exact none found ha htwin
    have two : ((replay unasked).step (.merge .exact (some "memo") "a" "twin") none).2.storings.length
        = 2 := by decide +kernel
    rw [step, given] at two
    exact ⟨m, new, after, step, given, two⟩
  · obtain ⟨b, hb⟩ := Option.isSome_iff_exists.mp (bound "b" (by simp)).1
    obtain ⟨c, hc⟩ := Option.isSome_iff_exists.mp (bound "c" (by simp)).1
    obtain ⟨t, ht, _, size_eq, once, _, merges⟩ := history found bothModes mergesOnly_bothModes
    have four : (storingsOf "memo" (replay unasked) bothModes).length = 4 := by decide +kernel
    obtain ⟨m, size, after, step, stays⟩ := merges "b" "c" b c .wildcard none hb hc
    have same : after.table.nodes = (replay (unasked ++ bothModes)).table.nodes := by
      obtain ⟨_, hs⟩ := over_replay (unasked ++ bothModes)
      exact hs.nodes_after_merge ht hb hc step
    rw [← same] at hb hc
    have replies := stays [] (fun _ h => absurd h List.not_mem_nil) "b" "c" hb hc
    rw [List.foldl_nil] at replies
    exact ⟨t, m, size, after, ht, size_eq.trans four, once, step, replies.2⟩

end Session

end StackGraph
