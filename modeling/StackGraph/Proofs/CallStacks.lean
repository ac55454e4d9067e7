import StackGraph.Proofs.NetworkHistories
import StackGraph.Proofs.Sessions
import StackGraph.Proofs.TreeHistories

/-!
# Call stacks become chains

The calls of a parser are resolved from the innermost outwards, and the first that cannot be
resolved decides the error; calls further out and the call of the start rule are not looked at.
Resolved calls become a chain of frames, which stands for this one stack. Nothing keeps a follow
state from being the bottom state: bottom states at the outer end go over the common bottom and
leave it as it is, and a bottom state over a frame is refused.

* `Tree.ofHistory`, `Tree.histories_ofHistory` -- the tree of one stack;
* `Node.chain_run`, `Node.chain_run_bottom` -- what pushing many states does;
* `CallStack.FailsWith`, `CallStack.ResolvesTo` -- how resolving ends, in one of the two ways
  (`CallStack.fails_or_resolves`);
* `CallStack.toNode_eq_error_iff`, `CallStack.toNode_of_resolves` -- **what comes of a call stack**;
* `Session.toNode_converts_follows` -- **call stacks in a session**.
-/

namespace StackGraph

/-! ## 1. The tree of one stack -/

namespace Tree

variable {h h' : History} {x : State}

/-- The tree of one stack. -/
def ofHistory (h : History) : Tree := h.foldr frame bottom

@[simp] theorem ofHistory_nil : ofHistory [] = bottom := rfl

@[simp] theorem ofHistory_cons : ofHistory (x :: h) = frame x (ofHistory h) := rfl

/-- **The tree of one stack stands for this stack alone.** -/
theorem histories_ofHistory (real : State.bottom ∉ h) : (ofHistory h).histories = [h] := by
  induction h with
  | nil => rfl
  | cons x h ih =>
    obtain ⟨hx, real⟩ := List.ne_and_not_mem_of_not_mem_cons real
    rw [ofHistory_cons, histories, Slot.histories, if_neg (Ne.symm hx), ih real]
    rfl

theorem ofHistory_inj : ofHistory h = ofHistory h' ↔ h = h' := by
  induction h generalizing h' with
  | nil => cases h' <;> simp
  | cons x h ih => cases h' <;> simp [ih]

/-- Pushing frames goes on from the tree of a stack. -/
theorem chain_ofHistory {states : List State} (real : State.bottom ∉ states) :
    (ofHistory h).chain states = ofHistory (states.reverse ++ h) := by
  induction states generalizing h with
  | nil => rfl
  | cons x states ih =>
    obtain ⟨hx, real⟩ := List.ne_and_not_mem_of_not_mem_cons real
    have first : (ofHistory h).chain (x :: states) = (ofHistory (x :: h)).chain states := by
      rw [ofHistory_cons, ← ofSlots_frame (Ne.symm hx)]
      rfl
    rw [first, ih real]
    simp

/-- Frames over the bottom are one stack. -/
theorem chain_bottom {states : List State} (real : State.bottom ∉ states) :
    bottom.chain states = ofHistory states.reverse := by
  have tree := chain_ofHistory (h := []) real
  rw [List.append_nil] at tree
  exact tree

end Tree

/-! ## 2. Pushing many states -/

namespace Node

variable {τ : Type} {states lower upper : List State}

/-- **Frames are pushed one over the other**, each with a fresh identity. -/
theorem chain_run (real : State.bottom ∉ states) (base : Node) (a : Arena τ) :
    ∃ n, chain base states a = .ok n { a with next := a.next + states.length } ∧
      n.tree = base.tree.chain states ∧ (states = [] → n = base) ∧
      (states ≠ [] → n.isBottom = false) := by
  induction states generalizing base a with
  | nil => exact ⟨base, rfl, rfl, fun _ => rfl, fun ne => absurd rfl ne⟩
  | cons x states ih =>
    obtain ⟨hx, real⟩ := List.ne_and_not_mem_of_not_mem_cons real
    have pushed := push_run (Ne.symm hx) base a
    obtain ⟨n, run, tree, same, frame⟩ := ih real
      (.frame a.next (Key.frame x base.key) x base) { a with next := a.next + 1 }
    refine ⟨n, ?_, ?_, fun e => absurd e (List.cons_ne_nil x states), fun _ => ?_⟩
    · rw [chain, List.foldlM_cons, GraphM.bind_run_of_ok pushed]
      simp only [List.length_cons, Nat.add_comm states.length 1, ← Nat.add_assoc]
      exact run
    · rw [tree]
      exact congrArg (·.chain states) (Tree.ofSlots_frame (Ne.symm hx) base.tree).symm
    · by_cases e : states = []
      · rw [same e]
        rfl
      · exact frame e

/-- **Bottom states over the common bottom change nothing.** -/
theorem chain_replicate (m : Nat) (states : List State) :
    chain (τ := τ) empty (List.replicate m State.bottom ++ states) = chain empty states := by
  induction m with
  | zero => rfl
  | succ m ih => exact ih

/-- **The bottom state over a frame is refused**, and what lies above it is not looked at. -/
theorem chain_run_bottom (real : State.bottom ∉ lower) (ne : lower ≠ []) (upper : List State)
    (base : Node) (a : Arena τ) :
    ∃ below, chain base (lower ++ State.bottom :: upper) a =
        .error (.bottomOverFrames below) { a with next := a.next + lower.length } ∧
      below.tree = base.tree.chain lower := by
  obtain ⟨below, run, tree, _, frame⟩ := chain_run real base a
  refine ⟨below, ?_, tree⟩
  rw [chain, List.foldlM_append]
  have run : lower.foldlM push base a = _ := run
  have refused : push (τ := τ) below State.bottom = throw (.bottomOverFrames below) := by
    rw [push, if_pos rfl, frame ne]
    rfl
  rw [GraphM.bind_run_of_ok run, List.foldlM_cons, refused]
  rfl

end Node

/-! ## 3. Resolving calls -/

namespace CallStack

variable {τ : Type} {net : Network} {stack : CallStack} {e : NetworkError}
  {states frames lower upper : List State} {m : Nat}

/-- The calls inside some call are resolved, and this call, which is not the last, fails. -/
def FailsWith (net : Network) (stack : CallStack) (e : NetworkError) : Prop :=
  ∃ inner call outer, stack = inner ++ call :: outer ∧ outer ≠ [] ∧
    (∀ c ∈ inner, ∃ state, resolve net c = .ok state) ∧ resolve net call = .error e

/-- All calls but the last are resolved, to these states, of which the outermost is first. -/
def ResolvesTo (net : Network) (stack : CallStack) (states : List State) : Prop :=
  stack.dropLast.mapM (resolve net) = .ok states.reverse

/-- The calls but the last are resolved, from the innermost outwards. -/
theorem follows_eq (net : Network) (stack : CallStack) :
    follows net stack = stack.dropLast.mapM (resolve net) := by
  induction stack with
  | nil => rfl
  | cons call rest ih =>
    cases rest with
    | nil => rfl
    | cons caller rest =>
      rw [follows, List.dropLast_cons_cons, List.mapM_cons, ih]

theorem follows_of_resolves (h : ResolvesTo net stack states) :
    follows net stack = .ok states.reverse := (follows_eq net stack).trans h

/-- No call fails that is the last one. -/
theorem not_failsWith_singleton {call : Option State} : ¬ FailsWith net [call] e := by
  intro ⟨inner, c, outer, h, ne, _⟩
  have pos := List.length_pos_of_ne_nil ne
  have lengths := congrArg List.length h
  simp at lengths
  omega

section Cons

variable {call caller : Option State} {rest : CallStack} {state : State} {e' : NetworkError}

/-- A call that fails is the first that does. -/
theorem failsWith_cons_of_error (h : resolve net call = .error e') :
    FailsWith net (call :: caller :: rest) e ↔ e' = e := by
  constructor
  · intro ⟨inner, c, outer, split, _, ok, failed⟩
    cases inner with
    | nil =>
      obtain ⟨rfl, _⟩ := List.cons.inj split
      exact Except.error.inj (h.symm.trans failed)
    | cons d inner =>
      obtain ⟨rfl, _⟩ := List.cons.inj split
      obtain ⟨state, resolved⟩ := ok call List.mem_cons_self
      cases h.symm.trans resolved
  · rintro rfl
    exact ⟨[], call, caller :: rest, rfl, by simp, by simp, h⟩

/-- Behind a call that is resolved, another one fails. -/
theorem failsWith_cons_of_ok (h : resolve net call = .ok state) :
    FailsWith net (call :: caller :: rest) e ↔ FailsWith net (caller :: rest) e := by
  constructor
  · intro ⟨inner, c, outer, split, ne, ok, failed⟩
    cases inner with
    | nil =>
      obtain ⟨rfl, _⟩ := List.cons.inj split
      cases h.symm.trans failed
    | cons d inner =>
      obtain ⟨_, split⟩ := List.cons.inj split
      exact ⟨inner, c, outer, split, ne, (List.forall_mem_cons.mp ok).2, failed⟩
  · intro ⟨inner, c, outer, split, ne, ok, failed⟩
    refine ⟨call :: inner, c, outer, by rw [split]; rfl, ne, ?_, failed⟩
    exact List.forall_mem_cons.mpr ⟨⟨state, h⟩, ok⟩

end Cons

/-- **The first call that fails decides the error**, and nothing else makes resolving fail. -/
theorem follows_eq_error_iff : follows net stack = .error e ↔ FailsWith net stack e := by
  induction stack with
  | nil => exact ⟨nofun, fun ⟨inner, _, _, split, _⟩ => by cases inner <;> cases split⟩
  | cons call rest ih =>
    cases rest with
    | nil => exact ⟨nofun, fun h => absurd h not_failsWith_singleton⟩
    | cons caller rest =>
      rw [follows]
      cases resolved : resolve net call with
      | error e' =>
        rw [failsWith_cons_of_error resolved]
        exact Except.error.injEq e' e ▸ Iff.rfl
      | ok state =>
        rw [failsWith_cons_of_ok resolved, ← ih]
        cases follows net (caller :: rest) with
        | ok states => exact ⟨nofun, nofun⟩
        | error e' => exact Iff.rfl

/-- A call stack fails, or it is resolved. -/
theorem fails_or_resolves (net : Network) (stack : CallStack) :
    (∃ e, FailsWith net stack e) ∨ ∃ states, ResolvesTo net stack states := by
  cases h : follows net stack with
  | error e => exact .inl ⟨e, follows_eq_error_iff.mp h⟩
  | ok states =>
    refine .inr ⟨states.reverse, ?_⟩
    rw [ResolvesTo, List.reverse_reverse, ← follows_eq, h]

/-! ## 4. The node of a call stack -/

/-- The arena in which the conversion of so many calls has been reported. -/
def told (a : Arena τ) (depth : Nat) : Arena τ :=
  { a with journal := a.journal.push (.converted depth) }

/-- **Resolved calls are reported and then pushed**, the outermost first. Bottom states at the outer
    end add nothing. -/
theorem toNode_run (h : ResolvesTo net stack states)
    (split : states = List.replicate m State.bottom ++ frames) (a : Arena τ) :
    toNode net stack a = Node.chain Node.empty frames (told a states.length) := by
  rw [← Node.chain_replicate m, ← split]
  unfold toNode told
  rw [follows_of_resolves h]
  simp [Except.mapError, GraphM.lift, bind, EStateM.bind, pure, EStateM.pure]

/-- A call that fails stops the conversion before anything is done. -/
theorem toNode_of_fails (h : FailsWith net stack e) (a : Arena τ) :
    toNode net stack a = .error (.network e) a := by
  unfold toNode
  rw [follows_eq_error_iff.mpr h]
  rfl

/-- A list of states begins with bottom states, and then either there is no further one or there is
    one behind some frames. -/
theorem exists_split (states : List State) :
    ∃ m frames, states = List.replicate m State.bottom ++ frames ∧
      (State.bottom ∉ frames ∨ ∃ lower upper, frames = lower ++ State.bottom :: upper ∧
        lower ≠ [] ∧ State.bottom ∉ lower) := by
  induction states with
  | nil => exact ⟨0, [], rfl, .inl List.not_mem_nil⟩
  | cons x states ih =>
    by_cases hx : x = State.bottom
    · obtain ⟨m, frames, split, cases⟩ := ih
      exact ⟨m + 1, frames, by rw [hx, split]; rfl, cases⟩
    · refine ⟨0, x :: states, rfl, ?_⟩
      by_cases later : State.bottom ∈ states
      · obtain ⟨lower, upper, split, real⟩ := List.eq_append_cons_of_mem later
        refine .inr ⟨x :: lower, upper, by rw [split]; rfl, List.cons_ne_nil x lower, ?_⟩
        exact List.not_mem_cons_of_ne_of_not_mem (Ne.symm hx) real
      · exact .inl (List.not_mem_cons_of_ne_of_not_mem (Ne.symm hx) later)

/-- **Resolved calls become the tree of one stack**, with a fresh identity for each frame. -/
theorem toNode_of_resolves (h : ResolvesTo net stack states)
    (split : states = List.replicate m State.bottom ++ frames) (real : State.bottom ∉ frames)
    (a : Arena τ) :
    ∃ n, toNode net stack a =
        .ok n { told a states.length with next := a.next + frames.length } ∧
      n.tree = Tree.ofHistory frames.reverse ∧ (frames = [] → n = Node.empty) := by
  obtain ⟨n, run, tree, same, _⟩ := Node.chain_run real Node.empty (told a states.length)
  exact ⟨n, (toNode_run h split a).trans run, tree.trans (Tree.chain_bottom real), same⟩

/-- **A bottom state over a frame stops the conversion**, after the frames below it were made. -/
theorem toNode_of_resolves_bottom (h : ResolvesTo net stack states)
    (split : states = List.replicate m State.bottom ++ (lower ++ State.bottom :: upper))
    (ne : lower ≠ []) (real : State.bottom ∉ lower) (a : Arena τ) :
    ∃ below, toNode net stack a = .error (.bottomOverFrames below)
        { told a states.length with next := a.next + lower.length } ∧
      below.tree = Tree.ofHistory lower.reverse := by
  obtain ⟨below, run, tree⟩ :=
    Node.chain_run_bottom real ne upper Node.empty (told a states.length)
  exact ⟨below, (toNode_run h split a).trans run, tree.trans (Tree.chain_bottom real)⟩

/-- **A conversion fails for the network when a call fails**, and then nothing was done. -/
theorem toNode_eq_error_iff {a : Arena τ} :
    toNode net stack a = .error (.network e) a ↔ FailsWith net stack e := by
  refine ⟨fun run => ?_, fun h => toNode_of_fails h a⟩
  rcases fails_or_resolves net stack with ⟨e', h⟩ | ⟨states, h⟩
  · rw [toNode_of_fails h] at run
    cases run
    exact h
  · obtain ⟨m, frames, split, real | ⟨lower, upper, rfl, ne, real⟩⟩ := exists_split states
    · obtain ⟨n, made, _⟩ := toNode_of_resolves h split real a
      cases made.symm.trans run
    · obtain ⟨below, refused, _⟩ := toNode_of_resolves_bottom h split ne real a
      cases refused.symm.trans run

end CallStack

/-- Resolved calls grow the graph by the frames of one stack. -/
theorem Grows.toNode_of_resolves {τ : Type} {inv : Upkeep τ} {g : Graph} {net : Network}
    {stack : CallStack} {states frames : List State} {m : Nat}
    (h : CallStack.ResolvesTo net stack states)
    (split : states = List.replicate m State.bottom ++ frames) (real : State.bottom ∉ frames) :
    Grows False inv g (CallStack.toNode net stack)
      fun g' n => n ∈ g' ∧ n.tree = Tree.ofHistory frames.reverse := by
  unfold CallStack.toNode
  rw [CallStack.follows_of_resolves h]
  have resolved : Grows False inv g (GraphM.lift (.ok states.reverse))
      fun _ found => found = states.reverse := .pure rfl
  refine resolved.bind fun g₁ found _ e => (emit _).bind fun g₂ _ _ _ => ?_
  rw [e, List.reverse_reverse, split, Node.chain_replicate]
  exact (chain g₂.empty_mem).mono real
    fun _ _ _ ⟨hn, tree⟩ => ⟨hn, tree.trans (Tree.chain_bottom real)⟩

/-! ## 5. Call stacks in a session -/

namespace Session

open CallStack

/-- **A call stack becomes the chain of its follow states.** A call is resolved by the last
    transition added out of its invoking state that invokes a rule. The first call that fails, from
    the innermost outwards and not counting the last, decides the error, and nothing was done; else
    all calls but the last are resolved. Bottom states at the outer end add nothing, and one over a
    frame stops the conversion. Otherwise what is made is the one stack of the other states, in the
    order of the calls, and two such stacks give equal nodes when these states are the same. -/
theorem toNode_converts_follows (commands : List (Command × Option String))
    (changes changes' : List Network.Change) (stack stack' : CallStack) :
    let s := replay commands
    let net := Network.built changes
    let net' := Network.built changes'
    resolve net none = .error .noInvokingState ∧
    (∀ x, resolve net (some x) =
      if net.size ≤ Network.index x then .error (.unknownState x)
      else
        match Network.lastFollow? changes x with
        | some state => .ok state
        | none => .error (.noRuleTransition x)) ∧
    ((∃ e, FailsWith net stack e) ∨ ∃ states, ResolvesTo net stack states) ∧
    (∀ e, toNode net stack s = .error (.network e) s ↔ FailsWith net stack e) ∧
    ∀ states m frames, ResolvesTo net stack states →
      states = List.replicate m State.bottom ++ frames →
      (∀ lower upper, frames = lower ++ State.bottom :: upper → lower ≠ [] →
        State.bottom ∉ lower → ∃ below, toNode net stack s = .error (.bottomOverFrames below)
          { told s states.length with next := s.next + lower.length } ∧
          below.tree = Tree.ofHistory lower.reverse) ∧
      (State.bottom ∉ frames →
        (∃ n, toNode net stack s =
          .ok n { told s states.length with next := s.next + frames.length } ∧
          n.tree = Tree.ofHistory frames.reverse ∧ n.histories = [frames.reverse] ∧
          (frames = [] → n = Node.empty)) ∧
        ∀ states' m' frames', ResolvesTo net' stack' states' →
          states' = List.replicate m' State.bottom ++ frames' → State.bottom ∉ frames' →
          (s.Agree (toNode net stack) (toNode net' stack') ↔ frames = frames')) := by
  intro s net net'
  refine ⟨rfl, Network.follow_built changes, fails_or_resolves net stack,
    fun e => toNode_eq_error_iff, ?_⟩
  intro states m frames h split
  constructor
  · rintro lower upper rfl ne real
    exact toNode_of_resolves_bottom h split ne real s
  · intro real
    constructor
    · obtain ⟨n, run, tree, same⟩ := toNode_of_resolves h split real s
      have one : n.histories = [frames.reverse] := by
        rw [Node.histories, tree]
        exact Tree.histories_ofHistory (by simpa using real)
      exact ⟨n, run, tree, one, same⟩
    · intro states' m' frames' h' split' real'
      obtain ⟨g, hs⟩ := over_replay commands
      have kept : Bindings.upkeep.Holds g s.table := hs.2
      have agree := hs.agree_iff kept (Grows.toNode_of_resolves h split real)
        fun _ _ => Grows.toNode_of_resolves h' split' real'
      rw [agree, Tree.ofHistory_inj, List.reverse_inj]

/-- A network in which a state has two transitions that invoke a rule, a further one of it was
    refused, one goes on with the bottom state, and one state has no such transition. -/
def crossing : List Network.Change :=
  [.state 0, .state 0, .state 0, .state 1, .transition 0 3 (.rule 7),
    .transition 1 3 (.rule State.bottom), .transition 2 3 (.rule 5), .transition 2 3 (.rule 6),
    .transition 2 9 (.rule 8), .transition 2 0 .epsilon]

theorem toNode_converts_follows_crossing :
    let s := replay sample
    let net := Network.built crossing
    toNode net [some 2, some 3, none, some 9] s = .error (.network (.noRuleTransition 3)) s ∧
    (∃ below after, toNode net [some 0, some 1, some 2, none] s =
      .error (.bottomOverFrames below) after ∧ below.tree = .frame 6 .bottom) ∧
    (∃ n after, toNode net [some 2, some 0, some 1, some 9] s = .ok n after ∧
      n.histories = [[6, 7]]) ∧
    s.Agree (toNode net [some 2, some 0, some 1, some 9])
      (toNode net [some 2, some 0x100000000, none]) := by
  intro s net
  have told := toNode_converts_follows sample crossing crossing
  obtain ⟨_, _, _, fails, _⟩ := told [some 2, some 3, none, some 9] []
  obtain ⟨_, _, _, _, stops⟩ := told [some 0, some 1, some 2, none] []
  obtain ⟨_, _, _, _, made⟩ :=
    told [some 2, some 0, some 1, some 9] [some 2, some 0x100000000, none]
  obtain ⟨below, stopped, tree⟩ := (stops [6, State.bottom, 7] 0 [6, State.bottom, 7] rfl rfl).1
    [6] [7] rfl (by decide) (by decide)
  obtain ⟨⟨n, run, _, histories, _⟩, agree⟩ :=
    (made [State.bottom, 7, 6] 1 [7, 6] rfl rfl).2 (by decide)
  refine ⟨(fails _).mpr ⟨[some 2], some 3, [none, some 9], rfl, by decide, ?_, rfl⟩,
    ⟨below, _, stopped, tree⟩, ⟨n, _, run, histories⟩,
    (agree [7, 6] 0 [7, 6] rfl rfl (by decide)).mpr rfl⟩
  intro c hc
  rw [List.mem_singleton.mp hc]
  exact ⟨6, rfl⟩

end Session

end StackGraph
