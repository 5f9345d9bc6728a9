import ClauseTree.Clause.Test

/-!
# Array joins

An array join names a source and holds a list of conditions. Conditions are only ever
added at the end, so a `Handle`, the position a condition got when it was added, keeps
standing for it. A handle of another list is just a position: beyond the end it reads
nothing and changes nothing.
-/

namespace ClauseTree

/-- The position of a condition in the list it was added to. -/
structure Handle where
  position : Nat
  deriving DecidableEq, Inhabited, Repr

/-- The conditions of a join, in the order in which they are written. -/
abbrev JoinConditions := List JoinCondition

namespace JoinConditions

/-- The list with one more condition, and the handle of that condition. -/
def push (cs : JoinConditions) (c : JoinCondition) : Handle × JoinConditions :=
  (⟨cs.length⟩, cs ++ [c])

def get? (cs : JoinConditions) (h : Handle) : Option JoinCondition := cs[h.position]?

/-- The list with the condition a handle stands for changed by `f`. -/
def edit (cs : JoinConditions) (h : Handle) (f : JoinCondition → JoinCondition) : JoinConditions :=
  cs.modify h.position f

/-- A change of a list of conditions. -/
inductive Step where
  /-- A condition is added at the end. -/
  | append (c : JoinCondition)
  /-- The condition a handle stands for is changed. -/
  | edit (h : Handle) (f : JoinCondition → JoinCondition)

def apply (cs : JoinConditions) : Step → JoinConditions
  | .append c => (push cs c).2
  | .edit h f => edit cs h f

def run (cs : JoinConditions) (steps : List Step) : JoinConditions := steps.foldl apply cs

@[simp] theorem run_nil (cs : JoinConditions) : run cs [] = cs := rfl

theorem run_append (cs : JoinConditions) (ss ts : List Step) :
    run cs (ss ++ ts) = run (run cs ss) ts := List.foldl_append

@[simp] theorem length_edit (cs : JoinConditions) (h : Handle)
    (f : JoinCondition → JoinCondition) : (edit cs h f).length = cs.length :=
  List.length_modify ..

end JoinConditions

inductive JoinKind where
  | inner
  | left
  /-- The join is raw text altogether. -/
  | raw
  deriving DecidableEq, Inhabited, Repr

/-- The word before `join`. -/
def JoinKind.word : JoinKind → String
  | .inner => "inner"
  | .left => "left"
  | .raw => "raw"

inductive JoinSource where
  | raw (r : Raw)
  | name (table : String)
  deriving BEq, Inhabited, Repr

structure ArrayJoin where
  source : JoinSource
  schema : Option String := none
  kind : JoinKind
  conditions : JoinConditions := []
  deriving BEq, Inhabited, Repr

namespace ArrayJoin

/-- A join of a table that has no conditions yet. -/
def ofTable (table : String) (kind : JoinKind) (schema : Option String) : ArrayJoin :=
  { source := .name table, schema := schema, kind := kind }

/-- A join that is raw text altogether. -/
def ofRaw (r : Raw) : ArrayJoin := { source := .raw r, kind := .raw }

end ArrayJoin

end ClauseTree
