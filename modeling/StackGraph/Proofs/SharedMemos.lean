import StackGraph.Proofs.MemoLedgers
import StackGraph.Proofs.MixedModes

/-!
# Memos that both modes share

A memo does not know in which mode its entries were made, so merges of both modes on one memo may
disturb each other. They do when two of them conflict: when merges of different modes come to a
common pair that the modes merge differently. The one that is made first stores its answer, and the
other one is given it.

* `Session.Call`, `Session.callsOn` -- the merges that a run makes on a memo, read off its commands
  and replies;
* `Session.Call.Conflicts` -- two of them come to a common pair that their modes merge differently;
* `Session.Kept` -- all calls so far were right, and their entries are at hand;
* `Session.Kept.run` -- calls that are right, or that do not conflict, keep it so;
* `Session.merges_right_iff_no_conflict` -- **all calls are right exactly when no two of them
  conflict**.
-/

namespace StackGraph

open Node

variable {g : Graph} {mode : Mode}

namespace Session

variable {s : Session} {memo : String} {t : MergeTable} {a b m : Node} {x y : String}
  {c : Command × Option String} {commands : List (Command × Option String)}

/-! ## 1. The calls of a run -/

/-- A merge of two nodes on a memo, and the node that it replied. -/
structure Call where
  mode : Mode
  left : Node
  right : Node
  merged : Node

namespace Call

/-- The call gave the merge of its nodes. -/
def Right (call : Call) : Prop :=
  call.merged.tree = Tree.merge call.mode call.left.tree call.right.tree

/-- The call came to a pair of trees. -/
def ComesTo (call : Call) (z : Sym2 Tree) : Prop :=
  Tree.Comes call.mode call.left.tree call.right.tree z

/-- Two calls of different modes come to a pair that the modes merge differently. -/
def Conflicts (call call' : Call) : Prop :=
  call.mode ≠ call'.mode ∧ ∃ z, call.ComesTo z ∧ call'.ComesTo z ∧ Tree.ModesDiffer z

end Call

/-- The call that a step makes on the memo of a name, if it merges two bound names on it. -/
def callOn? (memo : String) (s : Session) (c : Command × Option String) : Option Call :=
  match c.1 with
  | .merge mode (some name) x y =>
    if name = memo then
      match s.table.nodes.find? x, s.table.nodes.find? y, (s.step c.1 c.2).1 with
      | some a, some b, .ok (.merged m _) => some ⟨mode, a, b, m⟩
      | _, _, _ => none
    else none
  | _ => none

/-- The calls of a run on the memo of a name. -/
def callsOn (memo : String) (s : Session) : List (Command × Option String) → List Call
  | [] => []
  | c :: rest => (callOn? memo s c).toList ++ callsOn memo (s.step c.1 c.2).2 rest

/-- The memo of a name is changed by no command of the list but merges of two names with it. -/
def PairsOnly (memo : String) (commands : List (Command × Option String)) : Prop :=
  ∀ c ∈ commands, (c.1.writes c.2).memo = some memo →
    ∃ mode x y, c.1 = .merge mode (some memo) x y

theorem callsOn_append (s : Session) (commands more : List (Command × Option String)) :
    callsOn memo s (commands ++ more) =
      callsOn memo s commands ++
        callsOn memo (commands.foldl (fun s c => (s.step c.1 c.2).2) s) more := by
  induction commands generalizing s with
  | nil => rfl
  | cons c rest ih => simp only [List.cons_append, callsOn, ih, List.append_assoc, List.foldl_cons]

theorem callOn?_merge {name : Option String} {size : Option Nat}
    (hx : s.table.nodes.find? x = some a) (hy : s.table.nodes.find? y = some b)
    (step : (s.step (.merge mode (some memo) x y) name).1 = .ok (.merged m size)) :
    callOn? memo s (.merge mode (some memo) x y, name) = some ⟨mode, a, b, m⟩ := by
  simp [callOn?, hx, hy, step]

/-- A merge of names of which one is not bound leaves all bindings as they are. -/
theorem step_merge_unbound {memo : Option String} {name : Option String}
    (h : s.table.nodes.find? x = none ∨ s.table.nodes.find? y = none) :
    (s.step (.merge mode memo x y) name).2.table = s.table := by
  unfold step perform Command.run SessionM.node Table.need
  cases hx : s.table.nodes.find? x with
  | none => simp [hx, bind, EStateM.bind, GraphM.lift]
  | some a =>
    have hy : s.table.nodes.find? y = none := h.resolve_left (by simp [hx])
    simp [hx, hy, bind, EStateM.bind, GraphM.lift]

/-- A command that changes the memo by merges of two names only makes a call, or leaves the memo. -/
theorem call_or_idle (hs : s.Over g)
    (only : (c.1.writes c.2).memo = some memo → ∃ mode x y, c.1 = .merge mode (some memo) x y) :
    (∃ mode x y a b, c.1 = .merge mode (some memo) x y ∧ s.table.nodes.find? x = some a ∧
      s.table.nodes.find? y = some b) ∨
    callOn? memo s c = none ∧
      (s.step c.1 c.2).2.table.memos.find? memo = s.table.memos.find? memo := by
  by_cases written : (c.1.writes c.2).memo = some memo
  · obtain ⟨mode, x, y, e⟩ := only written
    cases hx : s.table.nodes.find? x with
    | none => exact .inr ⟨by simp [callOn?, e, hx], by rw [e, step_merge_unbound (.inl hx)]⟩
    | some a =>
      cases hy : s.table.nodes.find? y with
      | none => exact .inr ⟨by simp [callOn?, e, hy], by rw [e, step_merge_unbound (.inr hy)]⟩
      | some b => exact .inl ⟨mode, x, y, a, b, e, hx, hy⟩
  · obtain ⟨_, _, _, but⟩ := over_step hs c.1 c.2
    refine .inr ⟨?_, but.memos memo written⟩
    unfold callOn?
    split
    · rename_i mode name x y e
      refine if_neg fun same => written ?_
      rw [e, same]
      rfl
    · rfl

/-- **A merge of two bound names on a memo is a call**, and the memo is put back as it leaves it. -/
theorem Over.call (hs : s.Over g) (found : s.table.memos.find? memo = some t)
    (hx : s.table.nodes.find? x = some a) (hy : s.table.nodes.find? y = some b) (mode : Mode)
    (name : Option String) :
    ∃ m inner g' after, merge mode a b ⟨s.next, #[], t⟩ = .ok m inner ∧ g ≤ g' ∧ m ∈ g' ∧
      (MemoUpkeep.table mode).toUpkeep.At g' inner ∧
      s.step (.merge mode (some memo) x y) name =
        (.ok (.merged m (some inner.table.size)), after) ∧
      after.Over g' ∧ after.table.memos.find? memo = some inner.table ∧
      callOn? memo s (.merge mode (some memo) x y, name) = some ⟨mode, a, b, m⟩ := by
  obtain ⟨m, inner, g', run, le, hm, after, step, covered⟩ := hs.step_merge found hx hy mode name
  exact ⟨m, inner, g', _, run, le, hm, after, step, covered, find?_withMemo,
    callOn?_merge hx hy (by rw [step])⟩

/-- A run that changes a memo by merges of two names only keeps it bound, and the nodes of its calls
    are nodes of the graph that it leads to. -/
theorem Over.calls (hs : s.Over g) (found : s.table.memos.find? memo = some t)
    (only : PairsOnly memo commands) :
    ∃ g' t', g ≤ g' ∧ (commands.foldl (fun s c => (s.step c.1 c.2).2) s).Over g' ∧
      (commands.foldl (fun s c => (s.step c.1 c.2).2) s).table.memos.find? memo = some t' ∧
      ∀ call ∈ callsOn memo s commands, call.left ∈ g' ∧ call.right ∈ g' ∧ call.merged ∈ g' := by
  induction commands generalizing s t g with
  | nil => exact ⟨g, t, g.le_refl, hs, found, fun _ hc => absurd hc List.not_mem_nil⟩
  | cons c rest ih =>
    obtain ⟨now, later⟩ := List.forall_mem_cons.mp only
    rcases call_or_idle hs now with ⟨mode, x, y, a, b, e, hx, hy⟩ | ⟨idle, same⟩
    · obtain ⟨m, inner, g₁, after, _, le, hm, _, step, covered, found', one⟩ :=
        hs.call found hx hy mode c.2
      obtain ⟨c, name⟩ := c
      obtain rfl : c = _ := e
      rw [List.foldl_cons, callsOn, one, step]
      obtain ⟨g₂, t', le', hs', found₂, mem⟩ := ih covered found' later
      refine ⟨g₂, t', g.le_trans le le', hs', found₂, List.forall_mem_cons.mpr ⟨?_, mem⟩⟩
      exact ⟨le' _ (le a (hs.mem ⟨x, hx⟩)), le' _ (le b (hs.mem ⟨y, hy⟩)), le' _ hm⟩
    · obtain ⟨g₁, le, covered, _⟩ := over_step hs c.1 c.2
      rw [List.foldl_cons, callsOn, idle]
      obtain ⟨g₂, t', le', rest⟩ := ih covered (same.trans found) later
      exact ⟨g₂, t', g.le_trans le le', rest⟩

/-! ## 2. Calls that do not conflict -/

/-- All calls so far gave the merges of their nodes. Each entry of the memo is beside the mode of a
    call that came to it, and where the modes differ, what a call came to is in the memo, stored in
    the mode of the call. -/
structure Kept (g : Graph) (s : Session) (memo : String) (t : MergeTable) (deeds : List Deed)
    (calls : List Call) : Prop where
  covered : s.Over g
  found : s.table.memos.find? memo = some t
  records : Records deeds t
  cause : ∀ d ∈ deeds, ∃ call ∈ calls, call.mode = d.1 ∧ call.ComesTo (Entry.pair d.2)
  held : ∀ call ∈ calls, ∀ z, call.ComesTo z → Tree.ModesDiffer z → Covered deeds call.mode z
  right : ∀ call ∈ calls, call.Right

namespace Kept

variable {deeds : List Deed} {calls : List Call}

/-- **Calls that were all right do not conflict**: a pair cannot be in the memo in both modes. -/
theorem not_conflicts (h : Kept g s memo t deeds calls) {call call' : Call} (hc : call ∈ calls)
    (hc' : call' ∈ calls) : ¬ call.Conflicts call' := by
  rintro ⟨ne, z, comes, comes', differ⟩
  obtain ⟨d, hd, mode_eq, pair⟩ := h.held call hc z comes differ
  obtain ⟨d', hd', mode_eq', pair'⟩ := h.held call' hc' z comes' differ
  obtain rfl := h.records.eq_of_pair hd hd' (pair.trans pair'.symm)
  exact ne (mode_eq.symm.trans mode_eq')

/-- What meddles with a merge was stored by a call that conflicts with it. -/
theorem conflicts_of_meddled (h : Kept g s memo t deeds calls)
    (meddled : Meddled deeds mode a.tree b.tree) :
    ∃ call ∈ calls, call.Conflicts ⟨mode, a, b, m⟩ := by
  obtain ⟨z, comes, differ, d, hd, ne, rfl⟩ := meddled
  obtain ⟨call, hc, mode_eq, comes'⟩ := h.cause d hd
  exact ⟨call, hc, mode_eq ▸ ne, _, comes', comes, differ⟩

/-- **A call that nothing meddles with is right**, and all is kept. -/
theorem call (h : Kept g s memo t deeds calls) (hx : s.table.nodes.find? x = some a)
    (hy : s.table.nodes.find? y = some b) (mode : Mode) (name : Option String) :
    ∃ m g' t', callOn? memo s (.merge mode (some memo) x y, name) = some ⟨mode, a, b, m⟩ ∧
      (Call.Right ⟨mode, a, b, m⟩ ↔ ¬ Meddled deeds mode a.tree b.tree) ∧
      (¬ Meddled deeds mode a.tree b.tree → ∃ deeds',
        Kept g' (s.step (.merge mode (some memo) x y) name).2 memo t' deeds'
          (calls ++ [⟨mode, a, b, m⟩])) := by
  have ha := h.covered.mem ⟨x, hx⟩
  have hb := h.covered.mem ⟨y, hy⟩
  have hs : (MemoUpkeep.table mode).toUpkeep.At g ⟨s.next, #[], t⟩ :=
    ⟨h.covered.1, h.covered.memo ⟨memo, h.found⟩⟩
  obtain ⟨m, inner, g', after, run, le, _, at_inner, step, covered, found, one⟩ :=
    h.covered.call h.found hx hy mode name
  have outcome := outcome_merge mode a b m hs ha hb h.records run
  refine ⟨m, g', inner.table, one, outcome.right_iff, fun clean => ?_⟩
  obtain ⟨new, stores, undisturbed, comesTo⟩ := outcome.keeps clean
  -- the new entries are about pairs that the merge asked for, so it is their cause
  obtain ⟨new', stores', asks⟩ := stores_merge hs ha hb run
  obtain rfl := stores.unique stores'
  refine ⟨deeds ++ inMode mode new, ?_⟩
  rw [step]
  refine ⟨covered, found, h.records.stores stores at_inner.2 undisturbed, fun d hd => ?_, ?_, ?_⟩
  · rcases List.mem_append.mp hd with hd | hd
    · obtain ⟨call, hc, cause⟩ := h.cause d hd
      exact ⟨call, List.mem_append_left _ hc, cause⟩
    · obtain ⟨mode_eq, he⟩ := mem_inMode.mp hd
      exact ⟨_, List.mem_append_right _ List.mem_cons_self, mode_eq.symm, (asks _ he).comes⟩
  · refine List.forall_mem_append.mpr ⟨fun call hc z comes differ => ?_, ?_⟩
    · exact (h.held call hc z comes differ).append _
    · exact List.forall_mem_singleton.mpr comesTo
  · exact List.forall_mem_append.mpr
      ⟨h.right, List.forall_mem_singleton.mpr (outcome.right_iff.mpr clean)⟩

/-- **A run whose calls are all right, or do not conflict, keeps all.** -/
theorem run (h : Kept g s memo t deeds calls) (only : PairsOnly memo commands)
    (fine : (∀ call ∈ callsOn memo s commands, call.Right) ∨
      ∀ call ∈ calls ++ callsOn memo s commands, ∀ call' ∈ calls ++ callsOn memo s commands,
        ¬ call.Conflicts call') :
    ∃ g' t' deeds', Kept g' (commands.foldl (fun s c => (s.step c.1 c.2).2) s) memo t' deeds'
      (calls ++ callsOn memo s commands) := by
  induction commands generalizing s t g deeds calls with
  | nil =>
    rw [callsOn, List.append_nil]
    exact ⟨g, t, deeds, h⟩
  | cons c rest ih =>
    obtain ⟨now, later⟩ := List.forall_mem_cons.mp only
    rcases call_or_idle h.covered now with ⟨mode, x, y, a, b, e, hx, hy⟩ | ⟨idle, same⟩
    · obtain ⟨m, g₁, t₁, one, right_iff, keeps⟩ := h.call hx hy mode c.2
      obtain ⟨c, name⟩ := c
      obtain rfl : c = _ := e
      have split : calls ++ callsOn memo s ((.merge mode (some memo) x y, name) :: rest) =
          calls ++ [⟨mode, a, b, m⟩] ++
            callsOn memo (s.step (.merge mode (some memo) x y) name).2 rest := by
        rw [callsOn, one]
        simp
      rw [split] at fine ⊢
      have member : (⟨mode, a, b, m⟩ : Call) ∈ calls ++ [⟨mode, a, b, m⟩] ++
          callsOn memo (s.step (.merge mode (some memo) x y) name).2 rest := by simp
      -- in either case nothing meddles with the call, and the rest of the run is like this one
      have clean : ¬ Meddled deeds mode a.tree b.tree := by
        rcases fine with right | peace
        · refine right_iff.mp (right _ ?_)
          simp [callsOn, one]
        · intro meddled
          obtain ⟨call, hc, conflict⟩ := h.conflicts_of_meddled meddled
          exact peace call (by simp [hc]) _ member conflict
      obtain ⟨deeds₁, h₁⟩ := keeps clean
      refine ih h₁ later (fine.imp_left fun right call hc => right call ?_)
      simp [callsOn, one, hc]
    · obtain ⟨g₁, _, covered, _⟩ := over_step h.covered c.1 c.2
      have h₁ : Kept g₁ (s.step c.1 c.2).2 memo t deeds calls :=
        { h with covered := covered, found := same.trans h.found }
      rw [callsOn, idle] at fine ⊢
      exact ih h₁ later fine

end Kept

/-! ## 3. All calls are right exactly when no two of them conflict -/

/-- **A memo may be shared by merges of both modes exactly as long as no two of them conflict.** Let
    a memo be empty, and let a run change it by merges of two names only, each of any nodes and in any
    mode. Each of them replies a node. All these nodes agree with the merges that are made without a
    memo exactly when no two calls of different modes come to a pair of trees that the modes merge
    differently. -/
theorem merges_right_iff_no_conflict (first more : List (Command × Option String)) (memo : String)
    (empty : (replay first).table.memos.find? memo = some .empty) (only : PairsOnly memo more) :
    (∀ before mode x y name after a b, more = before ++ (.merge mode (some memo) x y, name) :: after →
      (replay (first ++ before)).table.nodes.find? x = some a →
      (replay (first ++ before)).table.nodes.find? y = some b →
      ∃ m size, ((replay (first ++ before)).step (.merge mode (some memo) x y) name).1 =
          .ok (.merged m (some size)) ∧
        ⟨mode, a, b, m⟩ ∈ callsOn memo (replay first) more) ∧
    ((∀ call ∈ callsOn memo (replay first) more,
        (replay (first ++ more)).Agree (SessionM.plain (merge call.mode call.left call.right))
          (pure call.merged)) ↔
      ∀ call ∈ callsOn memo (replay first) more, ∀ call' ∈ callsOn memo (replay first) more,
        ¬ call.Conflicts call') := by
  obtain ⟨g, hs⟩ := over_replay first
  have run (more) : more.foldl (fun s c => (s.step c.1 c.2).2) (replay first) =
      replay (first ++ more) := List.foldl_append.symm
  constructor
  · rintro before mode x y name after a b rfl hx hy
    have only' : PairsOnly memo before := fun c hc => only c (List.mem_append_left _ hc)
    obtain ⟨g', t, _, covered, found, _⟩ := hs.calls empty only'
    rw [run] at covered found
    obtain ⟨m, inner, _, _, _, _, _, _, step, _, _, one⟩ := covered.call found hx hy mode name
    refine ⟨m, inner.table.size, by rw [step], ?_⟩
    rw [callsOn_append, run, callsOn, one]
    simp
  · obtain ⟨g', _, _, covered, _, mem⟩ := hs.calls empty only
    rw [run] at covered
    have agree : (∀ call ∈ callsOn memo (replay first) more,
        (replay (first ++ more)).Agree (SessionM.plain (merge call.mode call.left call.right))
          (pure call.merged)) ↔ ∀ call ∈ callsOn memo (replay first) more, call.Right := by
      refine forall₂_congr fun call hc => ?_
      obtain ⟨hl, hr, hm⟩ := mem call hc
      rw [covered.agree_merge_iff hl hr hm]
      exact ⟨fun merged => merged.tree_eq trivial, fun right => ⟨hm, fun _ => right⟩⟩
    rw [agree]
    have start : Kept g (replay first) memo .empty [] [] :=
      ⟨hs, empty, ⟨rfl, List.nodup_nil, by simp, by simp⟩, by simp, by simp, by simp⟩
    constructor
    · intro right call hc call' hc'
      obtain ⟨_, _, _, kept⟩ := start.run only (.inl right)
      exact kept.not_conflicts hc hc'
    · intro peace
      obtain ⟨_, _, _, kept⟩ := start.run only (.inr peace)
      exact kept.right

/-- Merges of both modes that do not conflict, though the first one answers the others. -/
def inTurns : List (Command × Option String) :=
  [(.merge .exact (some "memo") "a" "c", some "ac"), (.merge .wildcard (some "memo") "c" "twin", none),
    (.merge .exact (some "memo") "c" "a", none)]

theorem pairsOnly_inTurns : PairsOnly "memo" inTurns := by
  simp [PairsOnly, inTurns]

theorem merges_right_iff_no_conflict_sample :
    (callsOn "memo" (replay unasked) inTurns).map Call.mode = [.exact, .wildcard, .exact] ∧
    ∀ call ∈ callsOn "memo" (replay unasked) inTurns,
      ∀ call' ∈ callsOn "memo" (replay unasked) inTurns, ¬ call.Conflicts call' :=
  ⟨by decide +kernel,
    (merges_right_iff_no_conflict unasked inTurns "memo" rfl pairsOnly_inTurns).2.mp
      (by decide +kernel)⟩

/-- A bottom and a frame are merged with wildcards, and then exactly, on one memo. -/
def leak : List (Command × Option String) :=
  [(.merge .wildcard (some "memo") "$" "a", none), (.merge .exact (some "memo") "$" "a", none)]

/-- The exact merge is given what the merge with wildcards stored, which is not the exact merge. -/
theorem wildcard_answer_leaks :
    (replay unasked).table.memos.find? "memo" = some .empty ∧ PairsOnly "memo" leak ∧
    ∃ call ∈ callsOn "memo" (replay unasked) leak, call.mode = .exact ∧
      ¬ (replay (unasked ++ leak)).Agree (SessionM.plain (merge call.mode call.left call.right))
        (pure call.merged) :=
  ⟨rfl, by simp [PairsOnly, leak], by decide +kernel⟩

end Session

end StackGraph
