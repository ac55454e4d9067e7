import StackGraph.Proofs.Sessions

/-!
# Honest memos

A memo is honest for a mode when what it stores for two nodes is their merge in this mode. A merge
that asks an honest memo gives what it would give without one, and what it stores is a merge again.
So merges of one mode keep a memo honest, in whatever order they ask for nodes, and whichever keys
the nodes have. Nothing else than a merge of another mode or a wrong entry can spoil it.

* `MergeTable.Honest`, `MemoUpkeep.honest` -- honest memos over a graph;
* `Session.SoundFor` -- every entry agrees with the merge that is made without a memo;
* `Session.RespectAll` -- a run that keeps to one mode on a memo;
* `Session.memoized_merge_is_merge` -- **a memo makes no difference**.
-/

namespace StackGraph

open Node

variable {g g' : Graph} {mode : Mode}

/-! ## 1. Honest memos over a graph -/

namespace MergeTable

/-- What the memo stores for two nodes of the graph is their merge. -/
def Honest (mode : Mode) (g : Graph) (t : MergeTable) : Prop :=
  t.Every fun pair m => (pair.1 ∈ g ∧ pair.2 ∈ g) ∧ Merged True mode g pair.1 pair.2 m

variable {t : MergeTable} {a b m : Node}

theorem honest_empty : Honest mode g .empty := Table.every_empty

theorem Honest.covered (h : Honest mode g t) : MergeTable.Over g t :=
  Table.Every.imp h fun _ _ hm => ⟨hm.1, hm.2.mem⟩

theorem Honest.mono (h : Honest mode g t) (le : g ≤ g') : Honest mode g' t :=
  Table.Every.imp h fun pair _ hm => ⟨⟨le pair.1 hm.1.1, le pair.2 hm.1.2⟩, hm.2.mono le⟩

/-- Equal pairs of nodes have the same trees. -/
theorem trees_of_beq {x y : Node} (hx : x ∈ g) (hy : y ∈ g) (ha : a ∈ g) (hb : b ∈ g)
    (eq : ((x, y) == (a, b)) = true) : x.tree = a.tree ∧ y.tree = b.tree := by
  obtain ⟨ex, ey⟩ := Bool.and_eq_true_iff.mp eq
  exact ⟨(Graph.beq_iff hx ha).mp ex, (Graph.beq_iff hy hb).mp ey⟩

/-- **What an honest memo answers is the merge**, also when it was stored for other nodes. -/
theorem Honest.find? (h : Honest mode g t) (ha : a ∈ g) (hb : b ∈ g)
    (found : Memo.find? t a b = some m) : Merged True mode g a b m := by
  obtain ⟨⟨x, y⟩, eq, ⟨hx, hy⟩, hm⟩ := Table.Every.find? h found
  obtain ⟨ex, ey⟩ := trees_of_beq hx hy ha hb eq
  exact ⟨hm.mem, fun ho => by rw [hm.tree_eq ho, ex, ey]⟩

/-- **An honest memo stays honest when a merge is stored**, also where it takes the place of another
    one beside the nodes of that one. -/
theorem Honest.store (h : Honest mode g t) (ha : a ∈ g) (hb : b ∈ g)
    (hm : Merged True mode g a b m) : Honest mode g (Memo.store t a b m) := by
  refine Table.Every.insert h ⟨⟨ha, hb⟩, hm⟩ fun pair old eq hold => ⟨hold.1, hm.mem, fun ho => ?_⟩
  obtain ⟨ex, ey⟩ := trees_of_beq hold.1.1 hold.1.2 ha hb eq
  rw [hm.tree_eq ho, ex, ey]

end MergeTable

/-- An honest memo answers with merges, and stays honest when they are stored. -/
def MemoUpkeep.honest (mode : Mode) : MemoUpkeep MergeTable True mode where
  Holds := MergeTable.Honest mode
  mono le h := h.mono le
  find? h ha hb found := h.find? ha hb found
  store h ha hb hm := h.store ha hb hm

/-- To be over the graph, with an honest memo of the given name. The memo may be missing where
    `missing` holds. -/
def SessionUpkeep.honest (missing : Prop) (mode : Mode) (memo : String) : SessionUpkeep where
  Holds g b := b.Over g ∧ (missing ∨ (b.memos.find? memo).isSome) ∧
    ∀ t, b.memos.find? memo = some t → MergeTable.Honest mode g t
  mono le h := ⟨Bindings.upkeep.mono le h.1, h.2.1, fun t ht => (h.2.2 t ht).mono le⟩
  covered h := h.1
  bind name h hn := ⟨h.1.bind hn name, h.2⟩

/-- A merge that asks the memo fails only where the memo may be missing, and is the merge. -/
theorem Grows.runMergeHonest {missing : Prop} {memo : String} {nodes : List Node}
    (h : ∀ n ∈ nodes, n ∈ g) :
    Grows missing (SessionUpkeep.honest missing mode memo).toUpkeep g
      (Command.runMerge mode (some memo) nodes) fun g' r =>
        ∃ n size, r = .merged n (some size) ∧ n ∈ g' ∧
          n.tree = Tree.mergeAll mode (nodes.map tree) := by
  refine (runMerge (.honest mode) ?_ ?_ h).weaken ?_
  · intro name e g
    obtain rfl := Option.some.inj e
    exact named (fun hb => hb.2.1) fun hb found => hb.2.2 _ found
  · rintro name e g b t ht ⟨covered, _, _⟩
    obtain rfl := Option.some.inj e
    refine ⟨{ covered with memos := covered.memos.insert_value ht.covered }, .inr ?_,
      fun t' found => ?_⟩
    · exact Option.isSome_of_eq_some (Table.find?_insert_self _ _ t)
    · rw [Table.find?_insert_self] at found
      exact Option.some.inj found ▸ ht
  · rintro g' r _ ⟨n, size, rfl, hn, e⟩
    exact ⟨n, size, rfl, hn, e trivial⟩

/-- A command that merges with the memo keeps it honest. -/
theorem Grows.performMerge {missing : Prop} {memo : String} (operands : Operands)
    (name : Option String) :
    Grows True (SessionUpkeep.honest missing mode memo).toUpkeep g
      (Session.perform (operands.command mode (some memo)) name) fun _ _ => True := by
  unfold Session.perform
  rw [Operands.run_command]
  have merged : Grows True (SessionUpkeep.honest missing mode memo).toUpkeep g
      (operands.nodes >>= Command.runMerge mode (some memo)) fun g' r =>
        ∃ n size, r = .merged n size ∧ n ∈ g' := by
    refine (Grows.operands operands).bind fun g₁ nodes _ h => (runMergeHonest h).mayFail.weaken ?_
    exact fun _ _ _ ⟨n, size, e, hn, _⟩ => ⟨n, some size, e, hn⟩
  refine merged.bind fun g₁ reply _ ⟨n, size, e, hn⟩ => ?_
  subst e
  cases name with
  | none => exact .pure trivial
  | some name => exact (putNode hn).bind fun _ _ _ _ => .pure trivial

/-! ## 2. Runs that respect a memo -/

/-- The commands that may change the memo of a name. -/
theorem Command.writes_memo {command : Command} {name : Option String} {memo : String}
    (h : (command.writes name).memo = some memo) :
    (∃ mode operands, command = Operands.command mode (some memo) operands) ∨
    (command = .newMemo ∧ name = some memo) ∨
    (∃ a b merged, command = .record memo a b merged) ∨ command = .clearMemo memo := by
  cases command with
  | merge mode m a b =>
    obtain rfl : m = some memo := h
    exact .inl ⟨mode, .pair a b, rfl⟩
  | mergeAll mode m names =>
    obtain rfl : m = some memo := h
    exact .inl ⟨mode, .all names, rfl⟩
  | mergeChains mode m states =>
    obtain rfl : m = some memo := h
    exact .inl ⟨mode, .chains states, rfl⟩
  | newMemo => exact .inr (.inl ⟨rfl, h⟩)
  | record m a b merged =>
    obtain rfl := Option.some.inj h
    exact .inr (.inr (.inl ⟨a, b, merged, rfl⟩))
  | clearMemo m =>
    obtain rfl := Option.some.inj h
    exact .inr (.inr (.inr rfl))
  | _ => cases h

namespace Session

variable {s : Session} {memo : String} {t : MergeTable} {a b m : Node}

/-- Every entry of the memo agrees with the merge that is made without a memo. -/
def SoundFor (s : Session) (mode : Mode) (t : MergeTable) : Prop :=
  ∀ e ∈ t.entries, s.Agree (SessionM.plain (merge mode e.1.1 e.1.2)) (pure e.2)

theorem Over.agree_merge_iff (hs : s.Over g) (ha : a ∈ g) (hb : b ∈ g) (hm : m ∈ g) :
    s.Agree (SessionM.plain (merge mode a b)) (pure m) ↔ Merged True mode g a b m := by
  rw [hs.agree_iff hs.2 (Grows.mergePlain ha hb) fun g' le => .pure ⟨le m hm, rfl⟩]
  exact ⟨fun e => ⟨hm, fun _ => e.symm⟩, fun h => (h.tree_eq trivial).symm⟩

theorem Over.soundFor_iff (hs : s.Over g) (ht : MergeTable.Over g t) :
    s.SoundFor mode t ↔ MergeTable.Honest mode g t := by
  constructor
  · intro sound e he
    obtain ⟨⟨ha, hb⟩, hm⟩ := ht e he
    exact ⟨⟨ha, hb⟩, (hs.agree_merge_iff ha hb hm).mp (sound e he)⟩
  · intro honest e he
    obtain ⟨⟨ha, hb⟩, hm⟩ := honest e he
    exact (hs.agree_merge_iff ha hb hm.mem).mpr hm

/-- What may be done with a memo of merges of one mode: it is asked by merges of this mode, and what
    it is told agrees with such a merge. Whatever does not use the memo may be done, and the memo may
    be cleared or made anew. -/
def Respects (s : Session) (mode : Mode) (memo : String) : Command → Prop
  | .merge m t _ _ => t = some memo → m = mode
  | .mergeAll m t _ => t = some memo → m = mode
  | .mergeChains m t _ => t = some memo → m = mode
  | .record t a b merged => t = memo → ∀ x y z, s.table.nodes.find? a = some x →
    s.table.nodes.find? b = some y → s.table.nodes.find? merged = some z →
    s.Agree (SessionM.plain (StackGraph.merge mode x y)) (pure z)
  | _ => True

/-- Every command of the list respects the memo in the session it finds. -/
def RespectAll (mode : Mode) (memo : String) (s : Session) : List (Command × Option String) → Prop
  | [] => True
  | c :: rest => s.Respects mode memo c.1 ∧ RespectAll mode memo (s.step c.1 c.2).2 rest

theorem Respects.mode_eq {mode' : Mode} {operands : Operands}
    (h : s.Respects mode memo (operands.command mode' (some memo))) : mode' = mode := by
  cases operands <;> exact h rfl

/-- Telling a memo a merge leaves the session as it is, or stores the merge. -/
theorem step_record (s : Session) (memo a b merged : String) (name : Option String) :
    (s.step (.record memo a b merged) name).2.table = s.table ∨
    ∃ t x y z, s.table.memos.find? memo = some t ∧ s.table.nodes.find? a = some x ∧
      s.table.nodes.find? b = some y ∧ s.table.nodes.find? merged = some z ∧
      (s.step (.record memo a b merged) name).2.table =
        { s.table with memos := s.table.memos.insert memo (Memo.store t x y z) } := by
  unfold step perform Command.run SessionM.memo SessionM.node Table.need
  cases ht : s.table.memos.find? memo with
  | none => exact .inl (by simp [ht, bind, EStateM.bind, GraphM.lift])
  | some t =>
    cases hx : s.table.nodes.find? a with
    | none => exact .inl (by simp [ht, hx, bind, EStateM.bind, GraphM.lift])
    | some x =>
      cases hy : s.table.nodes.find? b with
      | none => exact .inl (by simp [ht, hx, hy, bind, EStateM.bind, GraphM.lift])
      | some y =>
        cases hz : s.table.nodes.find? merged with
        | none => exact .inl (by simp [ht, hx, hy, hz, bind, EStateM.bind, GraphM.lift])
        | some z =>
          refine .inr ⟨t, x, y, z, rfl, rfl, rfl, rfl, ?_⟩
          cases name <;> simp [ht, hx, hy, hz, bind, EStateM.bind, GraphM.lift, SessionM.putMemo,
            Reply.bindTo]

/-- A memo that is cleared is empty. -/
theorem step_clearMemo {name : Option String}
    (found : (s.step (.clearMemo memo) name).2.table.memos.find? memo = some t) : t = .empty := by
  unfold step perform Command.run SessionM.memo Table.need at found
  cases ht : s.table.memos.find? memo with
  | none => simp [ht, bind, EStateM.bind, GraphM.lift] at found
  | some t' =>
    have found : (s.table.memos.insert memo .empty).find? memo = some t := by
      cases name <;> simpa [ht, bind, EStateM.bind, GraphM.lift, SessionM.putMemo,
        Reply.bindTo] using found
    exact Option.some.inj (found.symm.trans (Table.find?_insert_self _ memo _))

/-- **A step that respects an honest memo leaves it honest.** -/
theorem Over.honest_step (hs : s.Over g) {command : Command} (name : Option String)
    (honest : ∀ t, s.table.memos.find? memo = some t → MergeTable.Honest mode g t)
    (respects : s.Respects mode memo command) :
    ∃ g', (s.step command name).2.Over g' ∧
      ∀ t, (s.step command name).2.table.memos.find? memo = some t →
        MergeTable.Honest mode g' t := by
  obtain ⟨g', le, covered, but⟩ := over_step hs command name
  by_cases written : (command.writes name).memo = some memo
  · rcases Command.writes_memo written with
      ⟨mode', operands, rfl⟩ | ⟨rfl, rfl⟩ | ⟨a, b, merged, rfl⟩ | rfl
    · obtain rfl := respects.mode_eq
      have kept : (SessionUpkeep.honest True mode' memo).toUpkeep.At g s :=
        ⟨hs.1, hs.2, .inl trivial, honest⟩
      obtain ⟨g', _, next, covered, _, honest'⟩ := at_step (Grows.performMerge operands name) kept
      exact ⟨g', ⟨next, covered⟩, honest'⟩
    · refine ⟨g', covered, fun t found => ?_⟩
      have new := Table.find?_insert_self s.table.memos memo .empty
      exact Option.some.inj (new.symm.trans found) ▸ MergeTable.honest_empty
    · refine ⟨g', covered, fun t found => ?_⟩
      rcases step_record s memo a b merged name with same | ⟨t, x, y, z, ht, hx, hy, hz, stored⟩
      · rw [same] at found
        exact (honest t found).mono le
      · rw [stored, Table.find?_insert_self] at found
        have hx' := hs.mem ⟨a, hx⟩
        have hy' := hs.mem ⟨b, hy⟩
        have merged := (hs.agree_merge_iff hx' hy' (hs.mem ⟨merged, hz⟩)).mp
          (respects rfl x y z hx hy hz)
        exact Option.some.inj found ▸ ((honest t ht).store hx' hy' merged).mono le
    · exact ⟨g', covered, fun t found => step_clearMemo found ▸ MergeTable.honest_empty⟩
  · refine ⟨g', covered, fun t found => (honest t ?_).mono le⟩
    rw [← but.memos memo written, found]

/-- **A run that respects an honest memo leaves it honest.** -/
theorem Over.honest_run (hs : s.Over g) {commands : List (Command × Option String)}
    (honest : ∀ t, s.table.memos.find? memo = some t → MergeTable.Honest mode g t)
    (respects : RespectAll mode memo s commands) :
    ∃ g', (commands.foldl (fun s c => (s.step c.1 c.2).2) s).Over g' ∧
      ∀ t, (commands.foldl (fun s c => (s.step c.1 c.2).2) s).table.memos.find? memo = some t →
        MergeTable.Honest mode g' t := by
  induction commands generalizing s g with
  | nil => exact ⟨g, hs, honest⟩
  | cons c rest ih =>
    obtain ⟨now, later⟩ := respects
    obtain ⟨g₁, covered, honest₁⟩ := hs.honest_step c.2 honest now
    exact ih covered honest₁ later

/-! ## 3. Merges with an honest memo -/

/-- The command succeeds, its merge agrees with what the program gives, and its memo is sound. -/
def MergesLike (s : Session) (mode : Mode) (memo : String) (command : Command)
    (name : Option String) (program : SessionM Node) : Prop :=
  ∃ r size after t, s.step command name = (.ok (.merged r (some size)), after) ∧
    after.Agree (pure r) program ∧ after.table.memos.find? memo = some t ∧ after.SoundFor mode t

/-- **A command that merges with an honest memo succeeds on its operands, and gives the merge.** -/
theorem Over.mergesLike (hs : s.Over g) (there : (s.table.memos.find? memo).isSome)
    (honest : ∀ t, s.table.memos.find? memo = some t → MergeTable.Honest mode g t)
    {operands : Operands} (name : Option String) {nodes : List Node} {s₁ : Session}
    (run : operands.nodes s.ready = .ok nodes s₁) :
    s.MergesLike mode memo (operands.command mode (some memo)) name
      (SessionM.plain (mergeAll mode nodes)) := by
  have kept : (SessionUpkeep.honest False mode memo).toUpkeep.At g s.ready :=
    ⟨hs.1, hs.2, .inr there, honest⟩
  have operated := Grows.operands operands s.ready kept
  rw [run] at operated
  obtain ⟨g₁, _, kept₁, mem⟩ := operated
  obtain ⟨_, s₂, g₂, run₂, le₂, kept₂, r, size, rfl, hr, e⟩ :=
    (Grows.runMergeHonest mem).result kept₁
  have merged :
      (operands.command mode (some memo)).run s.ready = .ok (.merged r (some size)) s₂ := by
    rw [Operands.run_command, GraphM.bind_run_of_ok run, run₂]
  obtain ⟨next, covered, bound, honest₂⟩ := at_bindNode name kept₂ hr
  obtain ⟨t, ht⟩ := Option.isSome_iff_exists.mp (bound.resolve_left id)
  have after : Over g₂ (Session.bindNode s₂ name r) := ⟨next, covered⟩
  refine ⟨r, size, _, t, step_of_node merged rfl, ?_, ht, ?_⟩
  · refine after.agree after.2 (.pure ⟨hr, e⟩) fun g₃ le => ?_
    exact Grows.mergeAllPlain fun n hn => le n (le₂ n (mem n hn))
  · exact (after.soundFor_iff (honest₂ t ht).covered).mpr (honest₂ t ht)

/-- Two names are the operands of a merge. -/
theorem nodes_pair {x y : String} (hx : s.table.nodes.find? x = some a)
    (hy : s.table.nodes.find? y = some b) : (Operands.pair x y).nodes s = .ok [a, b] s := by
  show (do return [← SessionM.node x, ← SessionM.node y] : SessionM (List Node)) s = _
  rw [GraphM.bind_run_of_ok (SessionM.node_run hx), GraphM.bind_run_of_ok (SessionM.node_run hy)]
  rfl

/-- **A memo makes no difference.** Let a memo be sound for a mode, and let a run respect it: it is
    asked by merges of this mode only, of any nodes in either order, and told only what agrees with
    them. Then it stays sound, and whatever is merged with it, be it two nodes or more, agrees with
    what is merged without a memo. -/
theorem memoized_merge_is_merge (first more : List (Command × Option String)) (mode : Mode)
    (memo : String)
    (sound : ∀ t, (replay first).table.memos.find? memo = some t → (replay first).SoundFor mode t)
    (respects : RespectAll mode memo (replay first) more) :
    (∀ t, (replay (first ++ more)).table.memos.find? memo = some t →
      (replay (first ++ more)).SoundFor mode t) ∧
    (((replay (first ++ more)).table.memos.find? memo).isSome →
      (∀ x y a b name, (replay (first ++ more)).table.nodes.find? x = some a →
        (replay (first ++ more)).table.nodes.find? y = some b →
        (replay (first ++ more)).MergesLike mode memo (.merge mode (some memo) x y) name
          (SessionM.plain (merge mode a b))) ∧
      ∀ (operands : Operands) nodes s₁ name,
        operands.nodes (replay (first ++ more)).ready = .ok nodes s₁ →
        (replay (first ++ more)).MergesLike mode memo (operands.command mode (some memo)) name
          (SessionM.plain (mergeAll mode nodes))) ∧
    (replay first).SoundFor mode .empty := by
  obtain ⟨g, hs⟩ := over_replay first
  have honest : ∀ t, (replay first).table.memos.find? memo = some t →
      MergeTable.Honest mode g t := fun t found =>
    (hs.soundFor_iff (hs.memo ⟨memo, found⟩)).mp (sound t found)
  have run : more.foldl (fun s c => (s.step c.1 c.2).2) (replay first) = replay (first ++ more) :=
    List.foldl_append.symm
  obtain ⟨g', hs', honest'⟩ := hs.honest_run honest respects
  rw [run] at hs' honest'
  refine ⟨fun t found => (hs'.soundFor_iff (honest' t found).covered).mpr (honest' t found),
    fun there => ⟨fun x y a b name hx hy => ?_, fun operands nodes s₁ name found => ?_⟩,
    fun e he => nomatch he⟩
  · have two : mergeAll mode [a, b] = merge (μ := Unit) mode a b := bind_pure _
    rw [← two]
    exact hs'.mergesLike there honest' name (nodes_pair (s := (replay (first ++ more)).ready) hx hy)
  · exact hs'.mergesLike there honest' name found

/-- A session with a new memo. -/
def unasked : List (Command × Option String) := sample ++ [(.newMemo, some "memo")]

/-- The memo is told a merge, and then asked for others. -/
def asked : List (Command × Option String) :=
  [(.record "memo" "a" "twin" "a", none), (.merge .exact (some "memo") "a" "b", some "ab"),
    (.merge .wildcard none "ab" "c", some "other")]

theorem memoized_merge_is_merge_asked :
    RespectAll .exact "memo" (replay unasked) asked ∧
    ∃ b ab, (replay (unasked ++ asked)).table.nodes.find? "b" = some b ∧
      (replay (unasked ++ asked)).table.nodes.find? "ab" = some ab ∧
      (replay (unasked ++ asked)).MergesLike .exact "memo" (.merge .exact (some "memo") "b" "ab")
        (some "again") (SessionM.plain (merge .exact b ab)) := by
  have respects : RespectAll .exact "memo" (replay unasked) asked := by
    refine ⟨fun _ x y z hx hy hz => ?_, fun _ => rfl, nofun, trivial⟩
    obtain rfl := Option.some.inj (show some _ = some x from hx)
    obtain rfl := Option.some.inj (show some _ = some y from hy)
    obtain rfl := Option.some.inj (show some _ = some z from hz)
    exact ⟨true, _, rfl, rfl⟩
  have sound : ∀ t, (replay unasked).table.memos.find? "memo" = some t →
      (replay unasked).SoundFor .exact t := by
    intro t found
    obtain rfl := Option.some.inj (show some Table.empty = some t from found)
    exact fun e he => absurd he List.not_mem_nil
  obtain ⟨_, merges, _⟩ := memoized_merge_is_merge unasked asked .exact "memo" sound respects
  obtain ⟨b, hb⟩ := Option.isSome_iff_exists.mp
    (by decide +kernel : ((replay (unasked ++ asked)).table.nodes.find? "b").isSome)
  obtain ⟨ab, hab⟩ := Option.isSome_iff_exists.mp
    (by decide +kernel : ((replay (unasked ++ asked)).table.nodes.find? "ab").isSome)
  exact ⟨respects, b, ab, hb, hab, (merges (by decide +kernel)).1 "b" "ab" b ab _ hb hab⟩

end Session

end StackGraph
