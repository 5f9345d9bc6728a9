import ClauseTree.Clause.ArrayJoin

/-!
# Queries

A `Query` is the tree of clauses of one statement. The same query can be compiled as a
selection and as an update; each reads the parts it has a use for.
-/

namespace ClauseTree

inductive Direction where
  | asc
  | desc
  deriving DecidableEq, Inhabited, Repr

def Direction.word : Direction → String
  | .asc => "asc"
  | .desc => "desc"

inductive OrderItem where
  | column (name : String) (direction : Direction)
  | raw (r : Raw)
  deriving BEq, Inhabited, Repr

inductive GroupItem where
  | column (name : String)
  | raw (r : Raw)
  deriving BEq, Inhabited, Repr

/-- The clauses of a statement by category, each list in the order in which it is written. -/
structure Categories where
  arrayJoins : List ArrayJoin := []
  prewhere : List WhereClause := []
  filter : List WhereClause := []
  groupBy : List GroupItem := []
  orderBy : List OrderItem := []
  deriving BEq, Inhabited, Repr

inductive Limit where
  /-- A number that is written into the text. -/
  | literal (n : UInt64)
  | raw (r : Raw)
  | bound (v : Value)
  deriving BEq, Inhabited, Repr

/-- How the selected rows are locked. -/
inductive Lock where
  | forUpdate
  | forShare
  deriving DecidableEq, Inhabited, Repr

def Lock.text : Lock → String
  | .forUpdate => "for update"
  | .forShare => "lock in share mode"

structure Assignment where
  column : String
  value : Operand
  deriving BEq, Inhabited, Repr

/-- The clause tree of one statement. -/
structure Query where
  table : Option String := none
  schema : Option String := none
  /-- The selected columns; an empty list selects all. -/
  columns : List String := []
  categories : Categories := {}
  /-- The assignments of an update. -/
  update : List Assignment := []
  limit : Option Limit := none
  offset : Option UInt64 := none
  lock : Option Lock := none
  returning : List String := []
  deriving BEq, Inhabited, Repr

def Query.ofTable (table : String) : Query := { table := some table }

end ClauseTree
