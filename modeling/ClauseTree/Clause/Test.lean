import ClauseTree.Clause.Condition

/-!
# Tests

`Test` holds the comparisons that may stand in a `where` group and in the conditions of a
join alike. `JoinTest` adds the two that only a join has: the comparison of two columns by
name, and the list of shared columns after `using`.
-/

namespace ClauseTree

inductive Test where
  /-- `column operator value` -/
  | basic (column operator : String) (value : Operand)
  /-- `column is null` -/
  | isNull (column : String)
  /-- `column in (…)`, or a list of columns. -/
  | isIn (columns : Columns) (candidates : Candidates)
  /-- `column between low and high` -/
  | between (column : String) (low high : Value)
  /-- `exists (subquery)` -/
  | hasRows (subquery : Raw)
  | raw (r : Raw)
  deriving BEq, Inhabited, Repr

def Test.containsUndefined : Test → Bool
  | .basic _ _ value => value.containsUndefined
  | .isNull _ => false
  | .isIn _ candidates => candidates.containsUndefined
  | .between _ low high => low.isUndefined || high.isUndefined
  | .hasRows subquery => subquery.containsUndefined
  | .raw r => r.containsUndefined

inductive JoinTest where
  /-- `first operator second`, both columns. -/
  | pair (first operator second : String)
  | usingColumns (columns : Columns)
  /-- A comparison as in a `where` group. -/
  | on (t : Test)
  deriving BEq, Inhabited, Repr

abbrev WhereClause := Condition Test

abbrev JoinCondition := Condition JoinTest

namespace WhereClause

def basic (column operator : String) (value : Operand) : WhereClause :=
  .ofTest (.basic column operator value)

/-- `column operator other`, both columns. -/
def columns (column operator other : String) : WhereClause :=
  .ofTest (.basic column operator (.column other))

def null (column : String) : WhereClause := .ofTest (.isNull column)

def inList {α : Type} [ToValue α] (column : String) (values : List α) : WhereClause :=
  .ofTest (.isIn (.single column) (.list (values.map toValue)))

def inRows (columns : List String) (rows : List (List Value)) : WhereClause :=
  .ofTest (.isIn (.multi columns) (.rows rows))

def inSubquery (column : String) (subquery : Raw) : WhereClause :=
  .ofTest (.isIn (.single column) (.raw subquery))

def between {α β : Type} [ToValue α] [ToValue β] (column : String) (low : α) (high : β) :
    WhereClause :=
  .ofTest (.between column (toValue low) (toValue high))

def hasRows (subquery : Raw) : WhereClause := .ofTest (.hasRows subquery)

def wrapped (members : List WhereClause) : WhereClause := .ofMembers members

def raw (r : Raw) : WhereClause := .ofTest (.raw r)

/-- A value that the clause itself compares with was never supplied. The members of a
group answer for themselves. -/
def containsUndefined : WhereClause → Bool
  | .test t _ _ => t.containsUndefined
  | .group _ _ _ => false

end WhereClause

namespace JoinCondition

/-- `first operator second`, both columns. -/
def on (first operator second : String) : JoinCondition := .ofTest (.pair first operator second)

def onValue {α : Type} [ToValue α] (column operator : String) (value : α) : JoinCondition :=
  .ofTest (.on (.basic column operator (.value (toValue value))))

def onIn {α : Type} [ToValue α] (column : String) (values : List α) : JoinCondition :=
  .ofTest (.on (.isIn (.single column) (.list (values.map toValue))))

def onNull (column : String) : JoinCondition := .ofTest (.on (.isNull column))

def onBetween {α β : Type} [ToValue α] [ToValue β] (column : String) (low : α) (high : β) :
    JoinCondition :=
  .ofTest (.on (.between column (toValue low) (toValue high)))

def onRows (subquery : Raw) : JoinCondition := .ofTest (.on (.hasRows subquery))

def onRaw (r : Raw) : JoinCondition := .ofTest (.on (.raw r))

def onWrapped (members : List JoinCondition) : JoinCondition := .ofMembers members

/-- `using column, …`. One column is kept as a single one. -/
def usingColumns : List String → JoinCondition
  | [column] => .ofTest (.usingColumns (.single column))
  | columns => .ofTest (.usingColumns (.multi columns))

def isUsing : JoinCondition → Bool
  | .test (.usingColumns _) _ _ => true
  | _ => false

end JoinCondition

end ClauseTree
