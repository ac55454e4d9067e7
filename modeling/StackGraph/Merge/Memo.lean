import StackGraph.Arena
import StackGraph.Node.Equal
import StackGraph.Table

/-!
# Memos of merges

A memo remembers merges by the ordered pair of the nodes that were merged. A merge asks for its
pair in both orders before it computes anything, and stores what it computed under the pair as
given. Every question and every storing is recorded in the journal.

* `Memo` -- what a memo can do. `Unit` is the memo that remembers nothing, `MergeTable` a table
  whose keys are compared by structure.
* `lookUp` -- asks for a pair in both orders.
* `memoized` -- a computation that is done only when the memo does not know its result.
* `ask_run`, `remember_run`, `lookUp_run_of_none` -- what is asked and stored.
-/

namespace StackGraph

/-- A record of earlier merges. Both operations take the pair in the order given. -/
class Memo (μ : Type) where
  /-- What was remembered for a pair. -/
  find? : μ → Node → Node → Option Node
  /-- Remembers a merge. -/
  store : μ → (a b merged : Node) → μ

/-- The memo that remembers nothing. -/
instance : Memo Unit where
  find? _ _ _ := none
  store _ _ _ _ := ()

/-- A table of merges. Pairs are one key when their nodes have the same structure. -/
abbrev MergeTable := Table (Node × Node) Node

instance : Memo MergeTable where
  find? t a b := t.find? (a, b)
  store t a b merged := t.insert (a, b) merged

variable {μ : Type} [Memo μ]

/-- Asks the memo for a pair in this order. -/
def ask (a b : Node) : GraphM μ (Option Node) := do
  let found := Memo.find? (← GraphM.table) a b
  GraphM.emit (.asked a b found)
  return found

/-- Asks the memo for a pair in this order and then in the other, and reports when it knows. -/
def lookUp (a b : Node) : GraphM μ (Option Node) := do
  let found ← match ← ask a b with
    | some merged => pure (some merged)
    | none => ask b a
  if found.isSome then
    GraphM.emit (.memoHit a.key b.key)
  return found

/-- Gives the memo the merge of a pair. -/
def remember (a b merged : Node) : GraphM μ Unit := do
  GraphM.change fun memo => Memo.store memo a b merged
  GraphM.emit (.stored a b merged)

/-- What the memo knows of a pair, or else the result of `compute`, which is then remembered. -/
def memoized (a b : Node) (compute : GraphM μ Node) : GraphM μ Node := do
  match ← lookUp a b with
  | some merged => return merged
  | none =>
    let merged ← compute
    remember a b merged
    return merged

/-- One question leaves one entry in the journal and changes nothing else. -/
theorem ask_run (a b : Node) (s : Arena μ) :
    ask a b s =
      .ok (Memo.find? s.table a b)
        { s with journal := s.journal.push (.asked a b (Memo.find? s.table a b)) } := rfl

/-- A merge that is given to the memo is stored and recorded. -/
theorem remember_run (a b merged : Node) (s : Arena μ) :
    remember a b merged s =
      .ok () ⟨s.next, s.journal.push (.stored a b merged), Memo.store s.table a b merged⟩ := rfl

/-- A memo that knows neither order is asked twice. -/
theorem lookUp_run_of_none {a b : Node} {s : Arena μ} (h : Memo.find? s.table a b = none)
    (h' : Memo.find? s.table b a = none) :
    lookUp a b s =
      .ok none
        { s with journal := (s.journal.push (.asked a b none)).push (.asked b a none) } := by
  unfold lookUp
  rw [GraphM.bind_run_of_ok (ask_run a b s), h]
  simp only
  rw [GraphM.bind_run_of_ok (ask_run b a _), h']
  rfl

end StackGraph
