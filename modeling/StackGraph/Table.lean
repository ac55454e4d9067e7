/-!
# Tables

A table maps keys to values and keeps its entries in the order in which their keys first came. Two
keys are one key when `==` says so. Storing under a key that is there replaces the value and keeps
the entry where it is.

* `Table.find?`, `Table.insert`, `Table.size`.
* `Table.find?_insert_self`, `Table.find?_insert_of_ne` -- what is found after an insertion.
-/

namespace StackGraph

/-- A table from keys to values, in insertion order. -/
structure Table (κ α : Type) where
  entries : List (κ × α)

namespace Table

variable {κ α : Type}

/-- The table without entries. -/
def empty : Table κ α := ⟨[]⟩

/-- The number of entries. -/
def size (t : Table κ α) : Nat := t.entries.length

variable [BEq κ]

/-- The value of the first entry whose key is `k`. -/
def lookUp (k : κ) : List (κ × α) → Option α
  | [] => none
  | (k', a) :: rest => if k' == k then some a else lookUp k rest

/-- The value under a key. -/
def find? (t : Table κ α) (k : κ) : Option α := lookUp k t.entries

/-- Replaces the value of the first entry whose key is `k`, or adds an entry at the end. -/
def put (k : κ) (a : α) : List (κ × α) → List (κ × α)
  | [] => [(k, a)]
  | (k', a') :: rest => if k' == k then (k', a) :: rest else (k', a') :: put k a rest

/-- Stores a value under a key. -/
def insert (t : Table κ α) (k : κ) (a : α) : Table κ α := ⟨put k a t.entries⟩

theorem lookUp_put_self [ReflBEq κ] (k : κ) (a : α) :
    ∀ entries : List (κ × α), lookUp k (put k a entries) = some a
  | [] => by simp [put, lookUp]
  | (k', a') :: rest => by
    unfold put
    split
    · rename_i h
      simp [lookUp, h]
    · rename_i h
      simp [lookUp, h, lookUp_put_self k a rest]

/-- **A stored value is found.** -/
theorem find?_insert_self [ReflBEq κ] (t : Table κ α) (k : κ) (a : α) :
    (t.insert k a).find? k = some a := lookUp_put_self k a t.entries

theorem lookUp_put_of_ne [EquivBEq κ] {k k' : κ} (h : (k == k') = false) (a : α) :
    ∀ entries : List (κ × α), lookUp k' (put k a entries) = lookUp k' entries
  | [] => by simp [put, lookUp, h]
  | (l, b) :: rest => by
    unfold put
    split
    · rename_i hl
      have hl' : (l == k') = false := by rw [BEq.congr_left hl, h]
      simp [lookUp, hl']
    · simp only [lookUp]
      rw [lookUp_put_of_ne h a rest]

/-- **Another key is found as before.** -/
theorem find?_insert_of_ne [EquivBEq κ] (t : Table κ α) {k k' : κ} (h : (k == k') = false) (a : α) :
    (t.insert k a).find? k' = t.find? k' := lookUp_put_of_ne h a t.entries

end Table

end StackGraph
