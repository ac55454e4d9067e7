import Mathlib.Data.List.Forall2
import StackGraph.Arena

/-!
# Computations that maintain their table

Where no graph is at hand, of a computation it is still known what its table satisfies before and
after, whether it can fail, and what its result satisfies. Nothing is said here about identities, so
this applies to tables that answer with any nodes whatever.

* `Maintains` -- a computation keeps a fact about its table, fails only where it may, and gives a
  result as stated;
* `Maintains.pure`, `Maintains.bind` and the other rules;
* `Maintains.succeeds` -- a computation that may not fail gives its result;
* `Maintains.bind_congr` -- going on in two ways is one when they agree on every result there can be;
* `Maintains.within` -- a computation on a part of the table.
-/

namespace StackGraph

variable {τ σ α β : Type}

/-- From a table that satisfies `ok` the computation leads to one that does. It fails only when
    `fails` holds, and otherwise its result satisfies `post`. -/
def Maintains (fails : Prop) (ok : τ → Prop) (act : GraphM τ α) (post : α → Prop) : Prop :=
  ∀ s, ok s.table →
    match act s with
    | .ok a s' => ok s'.table ∧ post a
    | .error _ s' => fails ∧ ok s'.table

/-- Every element of the second list stands beside one of the first. -/
theorem exists_of_forall₂ {R : α → β → Prop} {xs : List α} {ys : List β} (h : List.Forall₂ R xs ys)
    {y : β} (hy : y ∈ ys) : ∃ x ∈ xs, R x y := by
  obtain ⟨i, hi, rfl⟩ := List.mem_iff_getElem.mp hy
  have hi' : i < xs.length := h.length_eq ▸ hi
  exact ⟨xs[i], List.getElem_mem hi', h.get hi' hi⟩

/-- What a further list pairs with the second list, it pairs with the first. -/
theorem exists_zip_of_forall₂ {γ : Type} {R : α → β → Prop} {xs : List α} {ys : List β}
    (h : List.Forall₂ R xs ys) {zs : List γ} {z : γ} {y : β} (hy : (z, y) ∈ zs.zip ys) :
    ∃ x, (z, x) ∈ zs.zip xs ∧ R x y := by
  induction h generalizing zs with
  | nil => simp at hy
  | cons hr _ ih =>
    cases zs with
    | nil => simp at hy
    | cons z' zs =>
      rcases List.mem_cons.mp hy with e | hy
      · obtain ⟨rfl, rfl⟩ := Prod.mk.inj e
        exact ⟨_, List.mem_cons_self, hr⟩
      · obtain ⟨x, hx, hr⟩ := ih hy
        exact ⟨x, List.mem_cons_of_mem _ hx, hr⟩

namespace Maintains

variable {fails fails' : Prop} {ok : τ → Prop} {act : GraphM τ α} {post post' : α → Prop}

/-- **A computation that may not fail gives a result.** -/
theorem succeeds (h : Maintains False ok act post) {s : Arena τ} (hs : ok s.table) :
    ∃ a s', act s = .ok a s' ∧ ok s'.table ∧ post a := by
  have h' := h s hs
  cases e : act s with
  | ok a s' =>
    rw [e] at h'
    exact ⟨a, s', rfl, h'⟩
  | error f s' =>
    rw [e] at h'
    exact absurd h'.1 id

theorem mono (h : Maintains fails ok act post) (hf : fails → fails')
    (hp : ∀ a, post a → post' a) : Maintains fails' ok act post' := by
  intro s hs
  have h' := h s hs
  cases e : act s with
  | ok a s' =>
    rw [e] at h'
    exact ⟨h'.1, hp a h'.2⟩
  | error f s' =>
    rw [e] at h'
    exact ⟨hf h'.1, h'.2⟩

theorem weaken (h : Maintains fails ok act post) (hp : ∀ a, post a → post' a) :
    Maintains fails ok act post' :=
  h.mono id hp

theorem mayFail (h : Maintains fails ok act post) : Maintains True ok act post :=
  h.mono (fun _ => trivial) fun _ hp => hp

theorem mayFailFor (hf : fails → fails') (h : Maintains fails ok act post) :
    Maintains fails' ok act post :=
  h.mono hf fun _ hp => hp

/-- Of every computation it may be said that nothing is known. -/
theorem anything : Maintains True (fun _ => True) act fun _ => True := by
  intro s _
  cases act s with
  | ok a s' => exact ⟨trivial, trivial⟩
  | error f s' => exact ⟨trivial, trivial⟩

/-- Going on in two ways that agree on every result there can be is the same computation. -/
theorem bind_congr {f g : α → GraphM τ β} (h : Maintains fails (fun _ => True) act post)
    (hf : ∀ a, post a → f a = g a) : act >>= f = act >>= g := by
  funext s
  have h' := h s trivial
  cases e : act s with
  | error f' s' => rw [GraphM.bind_run_of_error e, GraphM.bind_run_of_error e]
  | ok a s' =>
    rw [e] at h'
    rw [GraphM.bind_run_of_ok e, GraphM.bind_run_of_ok e, hf a h'.2]

/-- What the result satisfies may be known under a condition only. -/
theorem under {c : Prop} (h : c → Maintains fails ok act post)
    (h' : Maintains fails ok act fun _ => True) : Maintains fails ok act fun a => c → post a := by
  by_cases hc : c
  · exact (h hc).weaken fun _ hp _ => hp
  · exact h'.weaken fun _ _ hc' => absurd hc' hc

protected theorem pure {a : α} (h : post a) : Maintains fails ok (pure a) post :=
  fun _ hs => ⟨hs, h⟩

protected theorem throw {e : Failure} (h : fails) : Maintains fails ok (throw e) post :=
  fun _ hs => ⟨h, hs⟩

/-- **The second computation goes on with the table of the first.** -/
protected theorem bind {f : α → GraphM τ β} {last : β → Prop} (h : Maintains fails ok act post)
    (hf : ∀ a, post a → Maintains fails ok (f a) last) : Maintains fails ok (act >>= f) last := by
  intro s hs
  have h' := h s hs
  cases e : act s with
  | error f' s' =>
    rw [e] at h'
    rw [GraphM.bind_run_of_error e]
    exact h'
  | ok a s' =>
    rw [e] at h'
    rw [GraphM.bind_run_of_ok e]
    exact hf a h'.2 s' h'.1

protected theorem map {f : α → β} {last : β → Prop}
    (h : Maintains fails ok act fun a => last (f a)) : Maintains fails ok (f <$> act) last := by
  rw [map_eq_pure_bind]
  exact h.bind fun _ hp => .pure hp

theorem lift {x : Except Failure α} :
    Maintains (∃ e, x = .error e) ok (GraphM.lift x) fun a => x = .ok a := by
  cases x with
  | ok a => exact .pure rfl
  | error e => exact .throw ⟨e, rfl⟩

theorem fresh : Maintains fails ok GraphM.fresh fun _ => True := fun _ hs => ⟨hs, trivial⟩

theorem emit (e : Event) : Maintains fails ok (GraphM.emit e) fun _ => True :=
  fun _ hs => ⟨hs, trivial⟩

theorem table : Maintains fails ok GraphM.table ok := fun _ hs => ⟨hs, hs⟩

theorem change {f : τ → τ} (h : ∀ t, ok t → ok (f t)) :
    Maintains fails ok (GraphM.change f) fun _ => True :=
  fun s hs => ⟨h s.table hs, trivial⟩

/-- **A computation on a part of the table**, which is put back afterwards. -/
theorem within {inner : σ → Prop} {view : τ → σ} {put : σ → τ → τ} {act : GraphM σ α}
    (hview : ∀ t, ok t → inner (view t)) (hput : ∀ t t', inner t' → ok t → ok (put t' t))
    (h : Maintains fails inner act post) : Maintains fails ok (GraphM.within view put act) post := by
  intro s hs
  unfold GraphM.within
  have h' := h ⟨s.next, s.journal, view s.table⟩ (hview s.table hs)
  cases e : act ⟨s.next, s.journal, view s.table⟩ with
  | ok a s' =>
    rw [e] at h'
    exact ⟨hput s.table s'.table h'.1 hs, h'.2⟩
  | error f s' =>
    rw [e] at h'
    exact ⟨h'.1, hput s.table s'.table h'.2 hs⟩

/-- A computation for each element of a list, each result beside its element. -/
theorem mapM {f : α → GraphM τ β} {R : α → β → Prop} {xs : List α}
    (step : ∀ x ∈ xs, Maintains fails ok (f x) (R x)) :
    Maintains fails ok (xs.mapM f) (List.Forall₂ R xs) := by
  induction xs with
  | nil => exact .pure .nil
  | cons x xs ih =>
    rw [List.mapM_cons]
    refine (step x List.mem_cons_self).bind fun b hb => ?_
    refine (ih fun y hy => step y (List.mem_cons_of_mem x hy)).bind fun bs hbs => .pure ?_
    exact .cons hb hbs

/-- A computation for each element of a list, each result of which satisfies `P`. -/
theorem mapM_all {f : α → GraphM τ β} {P : β → Prop} {xs : List α}
    (step : ∀ x ∈ xs, Maintains fails ok (f x) P) :
    Maintains fails ok (xs.mapM f) fun bs => ∀ b ∈ bs, P b :=
  (mapM step).weaken fun _ h _ hb =>
    let ⟨_, _, hP⟩ := exists_of_forall₂ h hb
    hP

/-- A computation that goes on over the elements of a list. -/
theorem foldlM {f : β → α → GraphM τ β} {P : β → Prop} {xs : List α}
    (step : ∀ b, P b → ∀ x ∈ xs, Maintains fails ok (f b x) P) {b : β} (hb : P b) :
    Maintains fails ok (xs.foldlM f b) P := by
  induction xs generalizing b with
  | nil => exact .pure hb
  | cons x xs ih =>
    rw [List.foldlM_cons]
    refine (step b hb x List.mem_cons_self).bind fun b' hb' => ?_
    exact ih (fun b hb y hy => step b hb y (List.mem_cons_of_mem x hy)) hb'

end Maintains

end StackGraph
