import StackGraph.Node.Build
import StackGraph.Proofs.Graph

/-!
# Computations that grow a graph

A computation starts where a graph accounts for all nodes made so far. It may add nodes, and
whether it succeeds or fails a larger graph accounts for them afterwards. What its table satisfies
is an `Upkeep`, a fact about table and graph that more nodes do not destroy.

* `Grows` -- a computation grows a graph, keeps up its table, fails only where it may, and gives a
  result as stated;
* `Grows.pure`, `Grows.bind` and the other rules -- how such computations are put together;
* `Grows.result` -- a computation that may not fail gives its result;
* `Grows.within` -- a computation on a part of the table;
* `Grows.make` -- making one node.
-/

namespace StackGraph

variable {τ σ α β : Type}

/-- A fact about the table of a computation and a graph that larger graphs keep. -/
structure Upkeep (τ : Type) where
  Holds : Graph → τ → Prop
  mono : ∀ {g g' : Graph} {t : τ}, g ≤ g' → Holds g t → Holds g' t

namespace Upkeep

/-- A table about which there is nothing to keep up. -/
def none : Upkeep τ := ⟨fun _ _ => True, fun _ _ => trivial⟩

/-- A table that stays as it is. -/
def fixed (t : τ) : Upkeep τ := ⟨fun _ t' => t' = t, fun _ e => e⟩

/-- An arena whose nodes are those of the graph, and whose table is kept up. -/
def At (inv : Upkeep τ) (g : Graph) (s : Arena τ) : Prop := s.next = g.next ∧ inv.Holds g s.table

end Upkeep

/-- From the graph `g` on, the computation leads to a larger graph and keeps up its table. It fails
    only when `fails` holds, and otherwise its result satisfies `post` over the larger graph. -/
def Grows (fails : Prop) (inv : Upkeep τ) (g : Graph) (act : GraphM τ α)
    (post : Graph → α → Prop) : Prop :=
  ∀ s, inv.At g s →
    match act s with
    | .ok a s' => ∃ g', g ≤ g' ∧ inv.At g' s' ∧ post g' a
    | .error _ s' => fails ∧ ∃ g', g ≤ g' ∧ inv.At g' s'

namespace Grows

variable {fails fails' : Prop} {inv : Upkeep τ} {g : Graph}

/-! ## 1. Rules -/

section Rules

variable {act : GraphM τ α} {post post' : Graph → α → Prop}

/-- **A computation that may not fail gives a result.** -/
theorem result (h : Grows False inv g act post) {s : Arena τ} (hs : inv.At g s) :
    ∃ a s' g', act s = .ok a s' ∧ g ≤ g' ∧ inv.At g' s' ∧ post g' a := by
  have h' := h s hs
  cases e : act s with
  | ok a s' =>
    rw [e] at h'
    obtain ⟨g', le, hs', hp⟩ := h'
    exact ⟨a, s', g', rfl, le, hs', hp⟩
  | error f s' =>
    rw [e] at h'
    exact absurd h'.1 id

/-- A computation that gave a result grew the graph. -/
theorem of_ok (h : Grows fails inv g act post) {s s' : Arena τ} (hs : inv.At g s) {a : α}
    (run : act s = .ok a s') : ∃ g', g ≤ g' ∧ inv.At g' s' ∧ post g' a := by
  have h' := h s hs
  rw [run] at h'
  exact h'

theorem mono (h : Grows fails inv g act post) (hf : fails → fails')
    (hp : ∀ g' a, g ≤ g' → post g' a → post' g' a) : Grows fails' inv g act post' := by
  intro s hs
  have h' := h s hs
  cases e : act s with
  | ok a s' =>
    rw [e] at h'
    obtain ⟨g', le, hs', hpost⟩ := h'
    exact ⟨g', le, hs', hp g' a le hpost⟩
  | error f s' =>
    rw [e] at h'
    exact ⟨hf h'.1, h'.2⟩

theorem weaken (h : Grows fails inv g act post)
    (hp : ∀ g' a, g ≤ g' → post g' a → post' g' a) : Grows fails inv g act post' :=
  h.mono id hp

theorem mayFail (h : Grows fails inv g act post) : Grows True inv g act post :=
  h.mono (fun _ => trivial) fun _ _ _ hp => hp

theorem mayFailFor (hf : fails → fails') (h : Grows fails inv g act post) :
    Grows fails' inv g act post :=
  h.mono hf fun _ _ _ hp => hp

protected theorem pure {a : α} (h : post g a) : Grows fails inv g (pure a) post :=
  fun _ hs => ⟨g, g.le_refl, hs, h⟩

protected theorem throw {e : Failure} (h : fails) : Grows fails inv g (throw e) post :=
  fun _ hs => ⟨h, g, g.le_refl, hs⟩

/-- **The second computation goes on from the graph of the first.** -/
protected theorem bind {f : α → GraphM τ β} {last : Graph → β → Prop}
    (h : Grows fails inv g act post)
    (hf : ∀ g' a, g ≤ g' → post g' a → Grows fails inv g' (f a) last) :
    Grows fails inv g (act >>= f) last := by
  intro s hs
  have h' := h s hs
  cases e : act s with
  | error f' s' =>
    rw [e] at h'
    rw [GraphM.bind_run_of_error e]
    exact h'
  | ok a s' =>
    rw [e] at h'
    obtain ⟨g', le, hs', hp⟩ := h'
    rw [GraphM.bind_run_of_ok e]
    have h'' := hf g' a le hp s' hs'
    cases e' : f a s' with
    | ok b s'' =>
      rw [e'] at h''
      obtain ⟨g'', le', hs'', hq⟩ := h''
      exact ⟨g'', g.le_trans le le', hs'', hq⟩
    | error f' s'' =>
      rw [e'] at h''
      obtain ⟨hfail, g'', le', hs''⟩ := h''
      exact ⟨hfail, g'', g.le_trans le le', hs''⟩

protected theorem map {f : α → β} {last : Graph → β → Prop}
    (h : Grows fails inv g act fun g' a => last g' (f a)) :
    Grows fails inv g (f <$> act) last := by
  rw [map_eq_pure_bind]
  exact h.bind fun _ _ _ hp => .pure hp

theorem lift {x : Except Failure α} :
    Grows (∃ e, x = .error e) inv g (GraphM.lift x) fun _ a => x = .ok a := by
  cases x with
  | ok a => exact .pure rfl
  | error e => exact .throw ⟨e, rfl⟩

end Rules

theorem emit (e : Event) : Grows fails inv g (GraphM.emit e) fun _ _ => True :=
  fun _ hs => ⟨g, g.le_refl, hs, trivial⟩

theorem table : Grows fails inv g GraphM.table fun g' t => inv.Holds g' t :=
  fun _ hs => ⟨g, g.le_refl, hs, hs.2⟩

theorem change {f : τ → τ} (h : ∀ t, inv.Holds g t → inv.Holds g (f t)) :
    Grows fails inv g (GraphM.change f) fun _ _ => True :=
  fun s hs => ⟨g, g.le_refl, ⟨hs.1, h s.table hs.2⟩, trivial⟩

/-- **A computation on a part of the table**, which is kept up inside and put back afterwards. -/
theorem within {inner : Upkeep σ} {view : τ → σ} {put : σ → τ → τ} {act : GraphM σ α}
    {post : Graph → α → Prop} (hview : ∀ t, inv.Holds g t → inner.Holds g (view t))
    (hput : ∀ g' t t', inner.Holds g' t' → inv.Holds g' t → inv.Holds g' (put t' t))
    (h : Grows fails inner g act post) : Grows fails inv g (GraphM.within view put act) post := by
  intro s hs
  unfold GraphM.within
  have h' := h ⟨s.next, s.journal, view s.table⟩ ⟨hs.1, hview s.table hs.2⟩
  cases e : act ⟨s.next, s.journal, view s.table⟩ with
  | ok a s' =>
    rw [e] at h'
    obtain ⟨g', le, hs', hp⟩ := h'
    exact ⟨g', le, ⟨hs'.1, hput g' s.table s'.table hs'.2 (inv.mono le hs.2)⟩, hp⟩
  | error f s' =>
    rw [e] at h'
    obtain ⟨hfail, g', le, hs'⟩ := h'
    exact ⟨hfail, g', le, ⟨hs'.1, hput g' s.table s'.table hs'.2 (inv.mono le hs.2)⟩⟩

/-- A computation for each element of a list, each result of which satisfies `P`. -/
theorem mapM {f : α → GraphM τ β} {P : Graph → β → Prop}
    (stable : ∀ {g g' b}, g ≤ g' → P g b → P g' b) :
    ∀ {xs : List α} {g : Graph}, (∀ g', g ≤ g' → ∀ x ∈ xs, Grows fails inv g' (f x) P) →
      Grows fails inv g (xs.mapM f) fun g' bs => ∀ b ∈ bs, P g' b
  | [], _, _ => .pure fun _ h => absurd h List.not_mem_nil
  | x :: xs, g, step => by
    rw [List.mapM_cons]
    refine (step g g.le_refl x List.mem_cons_self).bind fun g' b le hb => ?_
    refine (mapM (P := P) stable fun g'' le' y hy => step g'' (g.le_trans le le') y
      (List.mem_cons_of_mem _ hy)).bind fun g'' bs le' hbs => .pure fun c hc => ?_
    rcases List.mem_cons.mp hc with rfl | hc
    · exact stable le' hb
    · exact hbs c hc

/-! ## 2. Making nodes -/

/-- **A sound node of the next identity, over nodes of the graph, joins the graph.** -/
theorem make (mk : Nat → Node) (hid : (mk g.next).id = g.next) (hs : (mk g.next).Sound)
    (hp : ∀ p ∈ (mk g.next).parents, p ∈ g) :
    Grows fails inv g (do return mk (← GraphM.fresh)) fun g' n => n ∈ g' ∧ n = mk g.next := by
  intro s hs'
  have run : (do return mk (← GraphM.fresh) : GraphM τ Node) s =
      .ok (mk s.next) { s with next := s.next + 1 } := rfl
  rw [run, hs'.1]
  exact ⟨g.add (mk g.next) hid hs hp, Graph.le_add, ⟨rfl, inv.mono Graph.le_add hs'.2⟩,
    Graph.mem_add, rfl⟩

theorem anotherBottom :
    Grows fails inv g Node.anotherBottom fun g' n => n ∈ g' ∧ n.tree = .bottom :=
  (make .bottom rfl trivial fun _ h => absurd h List.not_mem_nil).weaken
    fun _ _ _ ⟨hn, e⟩ => ⟨hn, by rw [e]; rfl⟩

end Grows

end StackGraph
