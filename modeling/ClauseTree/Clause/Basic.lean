import ClauseTree.Value.Basic

/-!
# The parts of clauses

What clauses are made of: raw text with values of its own, the right-hand side of a
comparison, the candidates of a membership test, one column or several, and the word
that connects a clause to the one before it.
-/

namespace ClauseTree

/-- Text that is taken over as it stands, with the values for its placeholders. Whoever
writes it answers for the two to line up. -/
structure Raw where
  sql : String
  bindings : List Value := []
  deriving BEq, Inhabited, Repr

/-- The raw text with one more value. -/
def Raw.bind {α : Type} [ToValue α] (r : Raw) (x : α) : Raw :=
  { r with bindings := r.bindings ++ [toValue x] }

def Raw.containsUndefined (r : Raw) : Bool := r.bindings.any Value.isUndefined

inductive Operand where
  | raw (r : Raw)
  | column (name : String)
  | value (v : Value)
  deriving BEq, Repr

/-- An operand that is not given is a value that was never supplied. -/
instance : Inhabited Operand := ⟨.value .undefined⟩

def Operand.containsUndefined : Operand → Bool
  | .raw r => r.containsUndefined
  | .column _ => false
  | .value v => v.isUndefined

/-- What a column, or several together, may be equal to. -/
inductive Candidates where
  /-- A subquery or a list in raw text. -/
  | raw (r : Raw)
  | rows (rs : List (List Value))
  | list (vs : List Value)
  deriving BEq, Inhabited, Repr

namespace Candidates

/-- There is no row or no value. Of raw text this is not known. -/
def isEmpty : Candidates → Bool
  | .raw _ => false
  | .rows rs => rs.isEmpty
  | .list vs => vs.isEmpty

def containsUndefined : Candidates → Bool
  | .raw r => r.containsUndefined
  | .rows rs => rs.any fun row => row.any Value.isUndefined
  | .list vs => vs.any Value.isUndefined

end Candidates

inductive Columns where
  | single (name : String)
  | multi (names : List String)
  deriving DecidableEq, Inhabited, Repr

def Columns.toList : Columns → List String
  | .single name => [name]
  | .multi names => names

/-- The word between a clause and the one before it. -/
inductive Connector where
  | and
  | or
  deriving DecidableEq, Inhabited, Repr

namespace Connector

def word : Connector → String
  | .and => "and"
  | .or => "or"

def swap : Connector → Connector
  | .and => .or
  | .or => .and

@[simp] theorem swap_swap (k : Connector) : k.swap.swap = k := by cases k <;> rfl

end Connector

end ClauseTree
