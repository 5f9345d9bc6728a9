import ClauseTree.Query.Basic

/-!
# Building queries

A query is built by steps. A step touches one field: it adds an entry to the end of a list,
or it sets the field to a new value whatever it was before.
-/

namespace ClauseTree.Query

inductive Step where
  | schema (name : String)
  | columns (names : List String)
  | arrayJoin (join : ArrayJoin)
  | prewhere (clause : WhereClause)
  | filter (clause : WhereClause)
  | groupBy (column : String)
  | orderBy (item : OrderItem)
  | set (column : String) (value : Operand)
  | limit (l : Option Limit)
  | offset (n : UInt64)
  | lock (l : Lock)
  | returning (names : List String)

/-- The query with its categories changed by `f`. -/
def mapCategories (q : Query) (f : Categories → Categories) : Query :=
  { q with categories := f q.categories }

def apply (q : Query) : Step → Query
  | .schema name => { q with schema := some name }
  | .columns names => { q with columns := names }
  | .arrayJoin j => q.mapCategories fun c => { c with arrayJoins := c.arrayJoins ++ [j] }
  | .prewhere w => q.mapCategories fun c => { c with prewhere := c.prewhere ++ [w] }
  | .filter w => q.mapCategories fun c => { c with filter := c.filter ++ [w] }
  | .groupBy name => q.mapCategories fun c => { c with groupBy := c.groupBy ++ [.column name] }
  | .orderBy item => q.mapCategories fun c => { c with orderBy := c.orderBy ++ [item] }
  | .set column value => { q with update := q.update ++ [⟨column, value⟩] }
  | .limit l => { q with limit := l }
  | .offset n => { q with offset := some n }
  | .lock l => { q with lock := some l }
  | .returning names => { q with returning := names }

/-- The query after a list of steps. -/
def build (q : Query) (steps : List Step) : Query := steps.foldl apply q

@[simp] theorem build_nil (q : Query) : q.build [] = q := rfl

@[simp] theorem build_cons (q : Query) (s : Step) (ss : List Step) :
    q.build (s :: ss) = (q.apply s).build ss := rfl

theorem build_append (q : Query) (ss ts : List Step) :
    q.build (ss ++ ts) = (q.build ss).build ts := List.foldl_append

end ClauseTree.Query
