import StackGraph.Failure

/-!
# The journal

Operations on the graph leave a record of what they did, in the order in which they did it. Some
entries are reported to whoever watches the program, with a level, a message and named fields;
the others tell how a memo of merges was consulted.

* `Event` -- one entry of the journal.
* `Event.report?` -- the report of an entry, or nothing for a consultation of a memo.
-/

namespace StackGraph

/-- How a merge treats the bottom of a stack. -/
inductive Mode where
  /-- The bottom stands for any stack, so it swallows what it is merged with. -/
  | wildcard
  /-- The bottom is the end of a stack, kept beside all others. -/
  | exact
  deriving DecidableEq, Repr

/-- An entry of the journal. -/
inductive Event where
  /-- A memo was asked for the merge of `a` and `b`, in this order. -/
  | asked (a b : Node) (found : Option Node)
  /-- A memo was given the merge of `a` and `b`. -/
  | stored (a b merged : Node)
  /-- A memo knew the merge of two nodes with these keys. -/
  | memoHit (a b : Key)
  /-- A merge met the bottom of a stack. -/
  | rootMerge (mode : Mode)
  /-- Two nodes with these keys were merged slot by slot into a node with `size` slots. -/
  | choiceMerge (a b : Key) (size : Nat)
  /-- A pool took in a node of this key. -/
  | pooled (key : Key)
  /-- A node was rebuilt over canonical nodes, and its canonical instance has this key. -/
  | rebuilt (key : Key)
  /-- The calls of a stack, so many, were resolved to return states. -/
  | converted (depth : Nat)

/-- The weight of a report. -/
inductive Level where
  | trace
  | debug
  deriving DecidableEq, Repr

/-- The name of a level. -/
def Level.text : Level → String
  | .trace => "TRACE"
  | .debug => "DEBUG"

/-- What a named field of a report holds. -/
inductive Field where
  | number (n : Nat)
  | flag (b : Bool)
  deriving DecidableEq, Repr

/-- What is told to a watcher. -/
structure Report where
  level : Level
  message : String
  fields : List (String × Field)
  deriving DecidableEq, Repr

/-- The report of an entry. Consultations of a memo are not reported. -/
def Event.report? : Event → Option Report
  | .asked _ _ _ => none
  | .stored _ _ _ => none
  | .memoHit a b =>
    some ⟨.trace, "merge memo hit", [("a", .number a.toNat), ("b", .number b.toNat)]⟩
  | .rootMerge mode =>
    some ⟨.trace, "root merge", [("root_is_wildcard", .flag (mode = .wildcard))]⟩
  | .choiceMerge a b size =>
    some ⟨.trace, "array merge",
      [("a", .number a.toNat), ("b", .number b.toNat), ("len", .number size)]⟩
  | .pooled key => some ⟨.debug, "cached prediction context", [("hash", .number key.toNat)]⟩
  | .rebuilt key => some ⟨.trace, "rebuilt prediction context", [("hash", .number key.toNat)]⟩
  | .converted depth =>
    some ⟨.debug, "prediction context from call stack", [("depth", .number depth)]⟩

end StackGraph
