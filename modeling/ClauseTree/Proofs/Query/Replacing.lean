import ClauseTree.Proofs.Document.RestoringQueries

/-!
# Replacing the values of a tree

`mapValues f` puts `f v` in the place of every value `v` of a tree, wherever the tree holds one, and
leaves the rest of it alone. The leaves of the tree follow. A replacement that no document can tell
from the original leaves the document of the tree as it was.
-/

namespace ClauseTree

section Definitions

variable (f : Value → Value)

def Raw.mapValues (r : Raw) : Raw := { r with bindings := r.bindings.map f }

def Operand.mapValues : Operand → Operand
  | .raw r => .raw (r.mapValues f)
  | .column name => .column name
  | .value v => .value (f v)

def Candidates.mapValues : Candidates → Candidates
  | .raw r => .raw (r.mapValues f)
  | .rows rs => .rows (rs.map (List.map f))
  | .list vs => .list (vs.map f)

def Test.mapValues : Test → Test
  | .basic column operator value => .basic column operator (value.mapValues f)
  | .isNull column => .isNull column
  | .isIn columns candidates => .isIn columns (candidates.mapValues f)
  | .between column low high => .between column (f low) (f high)
  | .hasRows subquery => .hasRows (subquery.mapValues f)
  | .raw r => .raw (r.mapValues f)

/-- The tests that only a join has hold names and no values. -/
def JoinTest.mapValues : JoinTest → JoinTest
  | .on t => .on (t.mapValues f)
  | t => t

def JoinSource.mapValues : JoinSource → JoinSource
  | .raw r => .raw (r.mapValues f)
  | .name table => .name table

/-- The values of a raw source and of all conditions, at any depth. -/
def ArrayJoin.mapValues (a : ArrayJoin) : ArrayJoin :=
  { a with
    source := a.source.mapValues f
    conditions := Condition.mapAll (JoinTest.mapValues f) a.conditions }

def OrderItem.mapValues : OrderItem → OrderItem
  | .column name direction => .column name direction
  | .raw r => .raw (r.mapValues f)

def GroupItem.mapValues : GroupItem → GroupItem
  | .column name => .column name
  | .raw r => .raw (r.mapValues f)

def Assignment.mapValues (a : Assignment) : Assignment := { a with value := a.value.mapValues f }

def Limit.mapValues : Limit → Limit
  | .literal n => .literal n
  | .raw r => .raw (r.mapValues f)
  | .bound v => .bound (f v)

def Categories.mapValues (c : Categories) : Categories where
  arrayJoins := c.arrayJoins.map (ArrayJoin.mapValues f)
  prewhere := Condition.mapAll (Test.mapValues f) c.prewhere
  filter := Condition.mapAll (Test.mapValues f) c.filter
  groupBy := c.groupBy.map (GroupItem.mapValues f)
  orderBy := c.orderBy.map (OrderItem.mapValues f)

def Query.mapValues (q : Query) : Query :=
  { q with
    categories := q.categories.mapValues f
    update := q.update.map (Assignment.mapValues f)
    limit := q.limit.map (Limit.mapValues f) }

def Leaf.mapValues : Leaf → Leaf
  | .name identifier => .name identifier
  | .value v => .value (f v)
  | .raw r => .raw (r.mapValues f)

end Definitions

variable (f : Value → Value)

/-! ## Leaves -/

theorem Leaf.values_mapValues (l : Leaf) : (l.mapValues f).values = l.values.map f := by
  cases l <;> rfl

theorem Leaf.mapValues_names (names : List String) :
    (names.map Leaf.name).map (mapValues f) = names.map Leaf.name := by
  rw [List.map_map]
  rfl

theorem Leaf.mapValues_values (vs : List Value) :
    (vs.map Leaf.value).map (mapValues f) = (vs.map f).map Leaf.value := by
  rw [List.map_map, List.map_map]
  rfl

theorem Operand.leaves_mapValues (o : Operand) :
    (o.mapValues f).leaves = o.leaves.map (Leaf.mapValues f) := by
  cases o <;> rfl

/-- A list stays empty or not, so a membership test keeps its constant. -/
theorem Candidates.isEmpty_mapValues (c : Candidates) : (c.mapValues f).isEmpty = c.isEmpty := by
  cases c with
  | raw r => rfl
  | rows rs => exact List.isEmpty_map
  | list vs => exact List.isEmpty_map

theorem Candidates.leaves_mapValues (c : Candidates) :
    (c.mapValues f).leaves = c.leaves.map (Leaf.mapValues f) := by
  cases c with
  | raw r => rfl
  | rows rs => rw [mapValues, leaves, leaves, Leaf.mapValues_values, ← List.map_flatten]
  | list vs => rw [mapValues, leaves, leaves, Leaf.mapValues_values]

/-- Without candidates there are no leaves to replace. -/
theorem Test.leaves_mapValues (t : Test) :
    (t.mapValues f).leaves = t.leaves.map (Leaf.mapValues f) := by
  cases t with
  | basic column operator value =>
    rw [mapValues, leaves, leaves, Operand.leaves_mapValues, List.map_cons]
    rfl
  | isIn columns candidates =>
    rw [mapValues, leaves, leaves, Candidates.isEmpty_mapValues, Candidates.leaves_mapValues]
    split
    · rfl
    · rw [List.map_append, Columns.leaves, Leaf.mapValues_names]
  | _ => rfl

theorem JoinTest.leaves_mapValues (t : JoinTest) :
    (t.mapValues f).leaves = t.leaves.map (Leaf.mapValues f) := by
  cases t with
  | pair first operator second => rfl
  | usingColumns columns => exact (Leaf.mapValues_names f columns.toList).symm
  | on t => exact t.leaves_mapValues f

/-- A list whose elements have leaves. -/
theorem flatMap_leaves_map {α : Type} {leaves : α → List Leaf} {map : α → α}
    (h : ∀ a, leaves (map a) = (leaves a).map (Leaf.mapValues f)) (as : List α) :
    (as.map map).flatMap leaves = (as.flatMap leaves).map (Leaf.mapValues f) := by
  rw [List.flatMap_map, List.map_flatMap]
  exact congrArg (List.flatMap · _) (funext h)

/-- The leaves of a list of conditions are those of its tests, in the same order. -/
theorem WhereClause.leaves_mapAll (cs : List WhereClause) :
    leaves (Condition.mapAll (Test.mapValues f) cs) = (leaves cs).map (Leaf.mapValues f) := by
  rw [leaves, leaves, Condition.testsOf_mapAll]
  exact flatMap_leaves_map f (Test.leaves_mapValues f) _

theorem JoinConditions.leaves_mapAll (cs : JoinConditions) :
    leaves (Condition.mapAll (JoinTest.mapValues f) cs) = (leaves cs).map (Leaf.mapValues f) := by
  rw [leaves, leaves, Condition.testsOf_mapAll]
  exact flatMap_leaves_map f (JoinTest.leaves_mapValues f) _

theorem ArrayJoin.allLeaves_mapValues (a : ArrayJoin) :
    (a.mapValues f).allLeaves = a.allLeaves.map (Leaf.mapValues f) := by
  have hsource : (a.source.mapValues f).leaves a.schema =
      (a.source.leaves a.schema).map (Leaf.mapValues f) := by
    cases a.source <;> rfl
  rw [allLeaves, allLeaves, List.map_append, ← hsource, ← JoinConditions.leaves_mapAll]
  rfl

theorem OrderItem.leaves_mapValues (i : OrderItem) :
    (i.mapValues f).leaves = i.leaves.map (Leaf.mapValues f) := by
  cases i <;> rfl

theorem GroupItem.leaves_mapValues (i : GroupItem) :
    (i.mapValues f).leaves = i.leaves.map (Leaf.mapValues f) := by
  cases i <;> rfl

theorem Assignment.leaves_mapValues (a : Assignment) :
    (a.mapValues f).leaves = a.leaves.map (Leaf.mapValues f) :=
  congrArg (Leaf.name a.column :: ·) (a.value.leaves_mapValues f)

theorem Limit.leaves_mapValues (l : Limit) :
    (l.mapValues f).leaves = l.leaves.map (Leaf.mapValues f) := by
  cases l <;> rfl

/-- The names stay where they are, and every value of a query is replaced in its place. -/
theorem Query.leaves_mapValues (q : Query) :
    (q.mapValues f).leaves = q.leaves.map (Leaf.mapValues f) := by
  have htable : (q.mapValues f).tableLeaves = q.tableLeaves.map (Leaf.mapValues f) := by
    rw [tableLeaves, tableLeaves, mapValues]
    cases q.table <;> rfl
  have hlimit : (q.mapValues f).limitLeaves = q.limitLeaves.map (Leaf.mapValues f) := by
    rw [limitLeaves, limitLeaves, mapValues]
    cases q.limit with
    | none => rfl
    | some l => exact l.leaves_mapValues f
  rw [leaves, htable, hlimit]
  simp only [mapValues, Categories.mapValues, leaves, List.map_append, Leaf.mapValues_names,
    flatMap_leaves_map f (ArrayJoin.allLeaves_mapValues f), WhereClause.leaves_mapAll,
    flatMap_leaves_map f (GroupItem.leaves_mapValues f),
    flatMap_leaves_map f (OrderItem.leaves_mapValues f),
    flatMap_leaves_map f (Assignment.leaves_mapValues f)]

/-! ## Candidates -/

theorem Test.candidates_mapValues (t : Test) :
    (t.mapValues f).candidates = t.candidates.map (Candidates.mapValues f) := by
  cases t <;> rfl

theorem JoinTest.candidates_mapValues (t : JoinTest) :
    (t.mapValues f).candidates = t.candidates.map (Candidates.mapValues f) := by
  cases t with
  | on t => exact t.candidates_mapValues f
  | _ => rfl

/-- The candidates of all membership tests of a query. -/
theorem Query.candidates_mapValues (q : Query) :
    (q.mapValues f).candidates = q.candidates.map (Candidates.mapValues f) := by
  have hjoin (a : ArrayJoin) :
      (a.mapValues f).candidates = a.candidates.map (Candidates.mapValues f) := by
    simp only [ArrayJoin.candidates, ArrayJoin.mapValues, Condition.testsOf_mapAll,
      List.flatMap_map, List.map_flatMap, JoinTest.candidates_mapValues]
  simp only [candidates, mapValues, Categories.mapValues, Condition.testsOf_mapAll,
    List.flatMap_map, List.map_append, List.map_flatMap, hjoin, Test.candidates_mapValues]

/-! ## Documents -/

section Documents

variable {f} (hf : ∀ v, (f v).toJson = v.toJson)

include hf

theorem valuesToJson_map (vs : List Value) : valuesToJson (vs.map f) = valuesToJson vs := by
  rw [valuesToJson, valuesToJson, List.map_map]
  exact congrArg (fun g => Json.array (vs.map g)) (funext hf)

theorem Raw.toJson_mapValues (r : Raw) : (r.mapValues f).toJson = r.toJson := by
  rw [toJson, toJson, mapValues, valuesToJson_map hf]

theorem Operand.toJson_mapValues (o : Operand) : (o.mapValues f).toJson = o.toJson := by
  cases o with
  | raw r => exact r.toJson_mapValues hf
  | column name => rfl
  | value v => exact hf v

theorem Candidates.toJson_mapValues (c : Candidates) : (c.mapValues f).toJson = c.toJson := by
  cases c with
  | raw r => exact r.toJson_mapValues hf
  | rows rs =>
    rw [mapValues, toJson, toJson, List.map_map]
    exact congrArg (fun g => Json.array (rs.map g)) (funext (valuesToJson_map hf))
  | list vs => exact valuesToJson_map hf vs

theorem Test.toFields_mapValues (t : Test) : (t.mapValues f).toFields = t.toFields := by
  cases t with
  | basic column operator value => rw [mapValues, toFields, toFields, value.toJson_mapValues hf]
  | isNull column => rfl
  | isIn columns candidates => rw [mapValues, toFields, toFields, candidates.toJson_mapValues hf]
  | between column low high =>
    rw [mapValues, toFields, toFields, ← valuesToJson_map hf [low, high]]
    rfl
  | hasRows subquery => rw [mapValues, toFields, toFields, subquery.toJson_mapValues hf]
  | raw r => rw [mapValues, toFields, toFields, r.toJson_mapValues hf]

theorem JoinTest.toFields_mapValues (t : JoinTest) : (t.mapValues f).toFields = t.toFields := by
  cases t with
  | on t => exact t.toFields_mapValues hf
  | _ => rfl

omit hf in
/-- Conditions are written alike if their tests have the same tags and fields. -/
theorem ConditionFormat.toItems_mapAll {τ α : Type} (F : ConditionFormat τ α) {g : α → α}
    (htag : ∀ t, F.tag (g t) = F.tag t) (hfields : ∀ t, F.toFields (g t) = F.toFields t)
    (cs : List (Condition α)) : F.toItems (Condition.mapAll g cs) = F.toItems cs := by
  induction cs using Condition.forest_induction with
  | nil => rfl
  | test t n k cs ih =>
    rw [Condition.mapAll, Condition.map, toItems, toItems, toJson, toJson, htag, hfields, ih]
  | group ms n k cs ihms ih =>
    rw [Condition.mapAll, Condition.map, toItems, toItems, toJson, toJson, ihms, ih]

theorem WhereClause.toItems_mapAll (cs : List WhereClause) :
    toItems (Condition.mapAll (Test.mapValues f) cs) = toItems cs :=
  ConditionFormat.toItems_mapAll format (fun t => by cases t <;> rfl)
    (Test.toFields_mapValues hf) cs

theorem JoinCondition.toItems_mapAll (cs : JoinConditions) :
    toItems (Condition.mapAll (JoinTest.mapValues f) cs) = toItems cs := by
  refine ConditionFormat.toItems_mapAll format (fun t => ?_) (JoinTest.toFields_mapValues hf) cs
  cases t with
  | on t => cases t <;> rfl
  | _ => rfl

theorem ArrayJoin.toJson_mapValues (a : ArrayJoin) : (a.mapValues f).toJson = a.toJson := by
  have hsource : (a.source.mapValues f).toJson = a.source.toJson := by
    cases a.source with
    | raw r => exact r.toJson_mapValues hf
    | name table => rfl
  rw [mapValues, toJson, toJson, hsource, JoinCondition.toItems_mapAll hf]

theorem OrderItem.toJson_mapValues (i : OrderItem) : (i.mapValues f).toJson = i.toJson := by
  cases i with
  | column name direction => rfl
  | raw r => rw [mapValues, toJson, toJson, r.toJson_mapValues hf]

theorem GroupItem.toJson_mapValues (i : GroupItem) : (i.mapValues f).toJson = i.toJson := by
  cases i with
  | column name => rfl
  | raw r => rw [mapValues, toJson, toJson, r.toJson_mapValues hf]

theorem Assignment.toJson_mapValues (a : Assignment) : (a.mapValues f).toJson = a.toJson := by
  rw [mapValues, toJson, toJson, a.value.toJson_mapValues hf]

theorem Limit.toJson_mapValues (l : Limit) : (l.mapValues f).toJson = l.toJson := by
  cases l with
  | literal n => rfl
  | raw r => exact r.toJson_mapValues hf
  | bound v => rw [mapValues, toJson, toJson, hf]

/-- A document shows of the values of a query no more than their own documents do. -/
theorem Query.toJson_mapValues (q : Query) : (q.mapValues f).toJson = q.toJson := by
  have hlimit : orNull Limit.toJson (q.limit.map (Limit.mapValues f)) =
      orNull Limit.toJson q.limit := by
    cases q.limit with
    | none => rfl
    | some l => exact l.toJson_mapValues hf
  have hitems {α : Type} {toJson : α → Json} {map : α → α} (h : ∀ a, toJson (map a) = toJson a)
      (as : List α) : (as.map map).map toJson = as.map toJson := by
    rw [List.map_map]
    exact List.map_congr_left fun a _ => h a
  simp only [toJson, mapValues, Categories.mapValues, Categories.toFields, hlimit,
    hitems (ArrayJoin.toJson_mapValues hf), WhereClause.toItems_mapAll hf,
    hitems (GroupItem.toJson_mapValues hf), hitems (OrderItem.toJson_mapValues hf),
    hitems (Assignment.toJson_mapValues hf)]

end Documents

end ClauseTree
