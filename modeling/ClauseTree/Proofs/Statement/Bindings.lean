import ClauseTree.Proofs.Fragment.Leaves
import ClauseTree.Statement.Compile

/-!
# The values of a statement

What a tree carries is defined on the tree alone, without a look at the text: no dialect
occurs in it. A statement is bound to exactly these values, in the order of the tree.
-/

namespace ClauseTree

/-- The values of a comparison's right-hand side. A column has none. -/
def Operand.values : Operand → List Value
  | .raw r => r.bindings
  | .column _ => []
  | .value v => [v]

/-- The values of a membership test, row by row. -/
def Candidates.values : Candidates → List Value
  | .raw r => r.bindings
  | .rows rs => rs.flatten
  | .list vs => vs

/-- The values of a test in the order in which they are written. -/
def Test.values : Test → List Value
  | .basic _ _ value => value.values
  | .isNull _ => []
  | .isIn _ candidates => candidates.values
  | .between _ low high => [low, high]
  | .hasRows subquery => subquery.bindings
  | .raw r => r.bindings

def JoinTest.values : JoinTest → List Value
  | .pair _ _ _ => []
  | .usingColumns _ => []
  | .on t => t.values

/-- The values of the tests, those of a group in the place of the group. -/
def WhereClause.values (cs : List WhereClause) : List Value :=
  (Condition.testsOf cs).flatMap Test.values

/-- The values of the tests, those of a group in the place of the group. -/
def JoinConditions.values (cs : JoinConditions) : List Value :=
  (Condition.testsOf cs).flatMap JoinTest.values

def JoinSource.values : JoinSource → List Value
  | .raw r => r.bindings
  | .name _ => []

/-- The values of the source and then those of the conditions, which a raw join ignores. -/
def ArrayJoin.values (j : ArrayJoin) : List Value :=
  match j.kind with
  | .raw => j.source.values
  | .inner | .left => j.source.values ++ JoinConditions.values j.conditions

def OrderItem.values : OrderItem → List Value
  | .column _ _ => []
  | .raw r => r.bindings

def GroupItem.values : GroupItem → List Value
  | .column _ => []
  | .raw r => r.bindings

/-- The values of a limit. A number is part of the text. -/
def Limit.values : Limit → List Value
  | .literal _ => []
  | .raw r => r.bindings
  | .bound v => [v]

namespace Query

/-- The values that the selection of the query carries. -/
def selectValues (q : Query) : List Value :=
  q.categories.arrayJoins.flatMap ArrayJoin.values ++
    WhereClause.values q.categories.prewhere ++
    WhereClause.values q.categories.filter ++
    q.categories.groupBy.flatMap GroupItem.values ++
    q.categories.orderBy.flatMap OrderItem.values ++
    q.limit.elim [] Limit.values

/-- The values that the update of the query carries. -/
def updateValues (q : Query) : List Value :=
  q.categories.arrayJoins.flatMap ArrayJoin.values ++
    q.update.flatMap (fun a => a.value.values) ++
    WhereClause.values q.categories.filter ++
    q.categories.orderBy.flatMap OrderItem.values ++
    q.limit.elim [] Limit.values

end Query

/-! ## The values of the leaves -/

theorem values_names (names : List String) : (names.map Leaf.name).flatMap Leaf.values = [] := by
  rw [List.flatMap_map]
  exact List.flatMap_eq_nil_iff.2 fun _ _ => rfl

theorem values_values (vs : List Value) : (vs.map Leaf.value).flatMap Leaf.values = vs := by
  rw [List.flatMap_map]
  exact List.flatMap_singleton' vs

theorem values_raw (r : Raw) : [Leaf.raw r].flatMap Leaf.values = r.bindings :=
  List.flatMap_singleton Leaf.values (.raw r)

theorem Operand.values_leaves (o : Operand) : o.leaves.flatMap Leaf.values = o.values := by
  cases o with
  | raw r => exact values_raw r
  | column name => rfl
  | value v => rfl

theorem Candidates.values_leaves (c : Candidates) : c.leaves.flatMap Leaf.values = c.values := by
  cases c with
  | raw r => exact values_raw r
  | rows rs => exact values_values rs.flatten
  | list vs => exact values_values vs

/-- Candidates that are not there have no values either. -/
theorem Candidates.values_eq_nil {c : Candidates} (h : c.isEmpty = true) : c.values = [] := by
  cases c with
  | raw r => cases h
  | rows rs =>
    have hrs : rs = [] := List.isEmpty_iff.1 h
    rw [hrs]
    rfl
  | list vs => exact List.isEmpty_iff.1 h

theorem Test.values_leaves (t : Test) : t.leaves.flatMap Leaf.values = t.values := by
  cases t with
  | basic column operator value =>
    rw [Test.leaves, List.flatMap_cons, Operand.values_leaves]
    rfl
  | isNull column => rfl
  | isIn columns candidates =>
    rw [Test.leaves, Test.values]
    split
    · next hempty => rw [Candidates.values_eq_nil hempty, List.flatMap_nil]
    · rw [List.flatMap_append, Columns.leaves, values_names, Candidates.values_leaves,
        List.nil_append]
  | between column low high => rfl
  | hasRows subquery => exact values_raw subquery
  | raw r => exact values_raw r

theorem JoinTest.values_leaves (t : JoinTest) : t.leaves.flatMap Leaf.values = t.values := by
  cases t with
  | pair first operator second => rfl
  | usingColumns columns => exact values_names columns.toList
  | on t => exact Test.values_leaves t

theorem WhereClause.values_leaves (cs : List WhereClause) :
    (WhereClause.leaves cs).flatMap Leaf.values = WhereClause.values cs := by
  rw [WhereClause.leaves, WhereClause.values, List.flatMap_assoc]
  simp only [Test.values_leaves]

theorem JoinConditions.values_leaves (cs : JoinConditions) :
    (JoinConditions.leaves cs).flatMap Leaf.values = JoinConditions.values cs := by
  rw [JoinConditions.leaves, JoinConditions.values, List.flatMap_assoc]
  simp only [JoinTest.values_leaves]

theorem JoinSource.values_leaves (schema : Option String) (s : JoinSource) :
    (s.leaves schema).flatMap Leaf.values = s.values := by
  cases s with
  | raw r => exact values_raw r
  | name table => rfl

theorem ArrayJoin.values_leaves (j : ArrayJoin) : j.leaves.flatMap Leaf.values = j.values := by
  obtain ⟨source, schema, kind, conditions⟩ := j
  cases kind with
  | raw => exact JoinSource.values_leaves schema source
  | inner =>
    rw [ArrayJoin.leaves, ArrayJoin.values, List.flatMap_append, JoinSource.values_leaves,
      JoinConditions.values_leaves]
  | left =>
    rw [ArrayJoin.leaves, ArrayJoin.values, List.flatMap_append, JoinSource.values_leaves,
      JoinConditions.values_leaves]

theorem OrderItem.values_leaves (i : OrderItem) : i.leaves.flatMap Leaf.values = i.values := by
  cases i with
  | column name direction => rfl
  | raw r => exact values_raw r

theorem GroupItem.values_leaves (i : GroupItem) : i.leaves.flatMap Leaf.values = i.values := by
  cases i with
  | column name => rfl
  | raw r => exact values_raw r

theorem Assignment.values_leaves (a : Assignment) :
    a.leaves.flatMap Leaf.values = a.value.values := Operand.values_leaves a.value

theorem Limit.values_leaves (l : Limit) : l.leaves.flatMap Leaf.values = l.values := by
  cases l with
  | literal n => rfl
  | raw r => exact values_raw r
  | bound v => rfl

namespace Query

theorem values_joinLeaves (q : Query) :
    q.joinLeaves.flatMap Leaf.values = q.categories.arrayJoins.flatMap ArrayJoin.values := by
  rw [joinLeaves, List.flatMap_assoc]
  simp only [ArrayJoin.values_leaves]

theorem values_tableLeaves (q : Query) : q.tableLeaves.flatMap Leaf.values = [] := by
  rw [tableLeaves]
  cases q.table <;> rfl

theorem values_limitLeaves (q : Query) :
    q.limitLeaves.flatMap Leaf.values = q.limit.elim [] Limit.values := by
  rw [limitLeaves]
  cases q.limit with
  | none => rfl
  | some l => exact Limit.values_leaves l

theorem values_selectLeaves (q : Query) :
    q.selectLeaves.flatMap Leaf.values = q.selectValues := by
  simp only [selectLeaves, selectValues, List.flatMap_append, values_names, values_tableLeaves,
    values_joinLeaves, values_limitLeaves, WhereClause.values_leaves, List.flatMap_assoc,
    GroupItem.values_leaves, OrderItem.values_leaves, List.nil_append]

theorem values_updateLeaves (q : Query) :
    q.updateLeaves.flatMap Leaf.values = q.updateValues := by
  simp only [updateLeaves, updateValues, List.flatMap_append, values_tableLeaves,
    values_joinLeaves, values_limitLeaves, WhereClause.values_leaves, List.flatMap_assoc,
    Assignment.values_leaves, OrderItem.values_leaves, List.nil_append]

end Query

namespace Statement

/-- The values of a compiled statement are those that its tree carries, in the order of the
tree. Two dialects that accept the same query bind it to the same values. -/
theorem bindings_compile (q : Query) :
    (∀ d s, Dialect.compileSelect d q = .ok s → s.bindings = q.selectValues) ∧
      (∀ d s, Dialect.compileUpdate d q = .ok s → s.bindings = q.updateValues) ∧
        ∀ kind d d' s s', Dialect.compile d kind q = .ok s → Dialect.compile d' kind q = .ok s' →
          s.bindings = s'.bindings := by
  have hselect (d : Dialect) (s : Statement) (h : d.compileSelect q = .ok s) :
      s.bindings = q.selectValues := by
    obtain ⟨f, hf, h⟩ := bind_eq_ok.1 h
    cases h
    rw [Fragment.statement, Fragment.bindings_eq_values_leaves, Query.leaves_selectFragment hf,
      Query.values_selectLeaves]
  have hupdate (d : Dialect) (s : Statement) (h : d.compileUpdate q = .ok s) :
      s.bindings = q.updateValues := by
    obtain ⟨f, hf, h⟩ := bind_eq_ok.1 h
    cases h
    rw [Fragment.statement, Fragment.bindings_eq_values_leaves, Query.leaves_updateFragment hf,
      Query.values_updateLeaves]
  refine ⟨hselect, hupdate, ?_⟩
  intro kind d d' s s' hs hs'
  cases kind with
  | select => rw [hselect d s hs, hselect d' s' hs']
  | update => rw [hupdate d s hs, hupdate d' s' hs']

/-- A query with a value in each place that can hold one. The text of a value says where. -/
def crowded : Query where
  table := some "visits"
  categories := {
    arrayJoins := [
      { source := .raw ⟨"array join ? as tag", [.text "raw join"]⟩, kind := .raw
        conditions := [.ofTest (.on (.isIn (.single "tag") (.list [.text "ignored"])))] },
      { source := .raw ⟨"(select ? as day)", [.text "left join"]⟩, kind := .left
        conditions := [.ofTest (.usingColumns (.single "day")),
          .ofMembers [.ofTest (.on (.between "hour" (.text "low") (.text "high")))]] }]
    prewhere := [.ofMembers [.ofTest (.isIn (.multi ["x", "y"])
      (.rows [[.text "x1", .text "y1"], [.text "x2", .text "y2"]]))]]
    filter := [.ofTest (.isNull "z"), .ofMembers [], .ofTest (.isIn (.single "z") (.list [])),
      .ofTest (.basic "z" "=" (.column "x")), .ofTest (.hasRows ⟨"select ?", [.text "exists"]⟩)]
    groupBy := [.raw ⟨"f(?)", [.text "group"]⟩]
    orderBy := [.column "x" .asc, .raw ⟨"g(?)", [.text "order"]⟩] }
  update := [⟨"x", .value (.text "set")⟩, ⟨"y", .column "x"⟩]
  limit := some (.bound (.text "limit"))

theorem bindings_compile_crowded :
    ∃ s t, Dialect.clickhouse.compileSelect crowded = .ok s ∧
      Dialect.clickhouse.compileUpdate crowded = .ok t ∧
      s.bindings = ["raw join", "left join", "low", "high", "x1", "y1", "x2", "y2", "exists",
        "group", "order", "limit"].map Value.text ∧
      t.bindings = ["raw join", "left join", "low", "high", "set", "exists", "order",
        "limit"].map Value.text ∧
      ∃ s', Dialect.plain.compile .select crowded = .ok s' ∧ s.bindings = s'.bindings := by
  obtain ⟨s, hs⟩ : ∃ s, Dialect.clickhouse.compileSelect crowded = .ok s := ⟨_, rfl⟩
  obtain ⟨t, ht⟩ : ∃ t, Dialect.clickhouse.compileUpdate crowded = .ok t := ⟨_, rfl⟩
  obtain ⟨s', hs'⟩ : ∃ s', Dialect.plain.compile .select crowded = .ok s' := ⟨_, rfl⟩
  obtain ⟨hselect, hupdate, hdialect⟩ := bindings_compile crowded
  refine ⟨s, t, hs, ht, ?_, ?_, s', hs', hdialect .select _ _ s s' hs hs'⟩
  · rw [hselect _ s hs]
    rfl
  · rw [hupdate _ t ht]
    rfl

end Statement

end ClauseTree
