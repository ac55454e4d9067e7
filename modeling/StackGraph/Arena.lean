import StackGraph.Journal

/-!
# Computations on the graph

Making a node takes a fresh identity, an operation may record what it does or consult a table, and
it may fail. `GraphM τ` is a computation with these effects over a table of type `τ`. What was done
before a failure stays: the arena of a failed run holds the journal and the table as they were
when it failed.

* `Arena` -- the next free identity, the journal so far, and the table.
* `GraphM.fresh`, `GraphM.emit` -- take an identity, record an event.
* `GraphM.within` -- runs a computation on a part of the table.
* `GraphM.bind_run_of_ok`, `GraphM.bind_run_of_error` -- how a run goes on, and how it ends.
-/

namespace StackGraph

/-- The state of a computation on the graph. -/
structure Arena (τ : Type) where
  /-- The next identity that no node has. -/
  next : Nat
  /-- What was done so far, earliest first. -/
  journal : Array Event
  /-- What the computation looks up and changes besides. -/
  table : τ

/-- A computation on the graph with a table of type `τ`. -/
abbrev GraphM (τ : Type) := EStateM Failure (Arena τ)

namespace GraphM

variable {τ σ α : Type}

/-- Takes a fresh identity. -/
def fresh : GraphM τ Nat := fun s => .ok s.next { s with next := s.next + 1 }

/-- Records an event. -/
def emit (e : Event) : GraphM τ Unit := fun s => .ok () { s with journal := s.journal.push e }

/-- The table. -/
def table : GraphM τ τ := fun s => .ok s.table s

/-- Changes the table. -/
def change (f : τ → τ) : GraphM τ Unit := fun s => .ok () { s with table := f s.table }

/-- The value of a pure computation, or its failure. -/
def lift : Except Failure α → GraphM τ α
  | .ok a => pure a
  | .error e => throw e

/-- The arena of an outer computation after an inner one ended in the arena `inner`. -/
def restore (put : σ → τ → τ) (outer : Arena τ) (inner : Arena σ) : Arena τ :=
  ⟨inner.next, inner.journal, put inner.table outer.table⟩

/-- Runs a computation on the part of the table that `view` shows and `put` puts back. The part is
    put back also when the computation fails. -/
def within (view : τ → σ) (put : σ → τ → τ) (act : GraphM σ α) : GraphM τ α := fun s =>
  match act ⟨s.next, s.journal, view s.table⟩ with
  | .ok a inner => .ok a (restore put s inner)
  | .error e inner => .error e (restore put s inner)

/-! ## Runs -/

variable {β : Type}

@[simp] theorem fresh_run (s : Arena τ) :
    (fresh : GraphM τ Nat) s = .ok s.next { s with next := s.next + 1 } := rfl

@[simp] theorem emit_run (e : Event) (s : Arena τ) :
    (emit e : GraphM τ Unit) s = .ok () { s with journal := s.journal.push e } := rfl

@[simp] theorem table_run (s : Arena τ) : (table : GraphM τ τ) s = .ok s.table s := rfl

@[simp] theorem change_run (f : τ → τ) (s : Arena τ) :
    (change f : GraphM τ Unit) s = .ok () { s with table := f s.table } := rfl

@[simp] theorem pure_run (a : α) (s : Arena τ) : (pure a : GraphM τ α) s = .ok a s := rfl

@[simp] theorem throw_run (e : Failure) (s : Arena τ) :
    (throw e : GraphM τ α) s = .error e s := rfl

/-- A computation that succeeded hands its result and its arena on. -/
theorem bind_run_of_ok {act : GraphM τ α} {s s' : Arena τ} {a : α} (h : act s = .ok a s')
    (f : α → GraphM τ β) : (act >>= f) s = f a s' := by
  simp [bind, EStateM.bind, h]

/-- **A failure ends the run**, and the arena is the one of the failed step. -/
theorem bind_run_of_error {act : GraphM τ α} {s s' : Arena τ} {e : Failure}
    (h : act s = .error e s') (f : α → GraphM τ β) : (act >>= f) s = .error e s' := by
  simp [bind, EStateM.bind, h]

end GraphM

end StackGraph
