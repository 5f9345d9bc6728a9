import ClauseTree.Query.Basic
import ClauseTree.Identifier

/-!
# The leaves of a clause tree

A `Leaf` is what the author of a tree brings into a statement: a name, a value to be bound, or
raw text with values of its own. All the rest of a statement are words of the language.

Every part of a tree lists its leaves in the order in which a reader of the tree meets them.
What a statement does not read is not listed: the conditions of a raw join, and both sides of
a membership test without candidates, which is a constant whatever its columns are. Only
`Query.leaves` lists the conditions of raw joins as well.
-/

namespace ClauseTree

/-- What the author of a tree brings into a statement. -/
inductive Leaf where
  | name (identifier : String)
  | value (v : Value)
  | raw (r : Raw)
  deriving BEq, Repr

def Leaf.values : Leaf → List Value
  | .name _ => []
  | .value v => [v]
  | .raw r => r.bindings

/-- The raw texts among leaves. -/
def Leaf.raws (ls : List Leaf) : List Raw :=
  ls.filterMap fun l => match l with
    | .raw r => some r
    | _ => none

theorem Leaf.raws_append (ls ls' : List Leaf) : raws (ls ++ ls') = raws ls ++ raws ls' :=
  List.filterMap_append

theorem Leaf.mem_raws {r : Raw} {ls : List Leaf} : r ∈ Leaf.raws ls ↔ .raw r ∈ ls := by
  rw [Leaf.raws, List.mem_filterMap]
  constructor
  · rintro ⟨l, hl, hr⟩
    cases l with
    | raw r' =>
      cases hr
      exact hl
    | _ => cases hr
  · intro h
    exact ⟨.raw r, h, rfl⟩

theorem Leaf.raws_names (names : List String) : raws (names.map .name) = [] := by
  induction names with
  | nil => rfl
  | cons n ns ih => exact ih

theorem Leaf.raws_values (vs : List Value) : raws (vs.map .value) = [] := by
  induction vs with
  | nil => rfl
  | cons v vs ih => exact ih

/-- Each of several parts is without raw text if all of them together are. -/
theorem Leaf.raws_eq_nil_of_mem {α : Type} {own : α → List Leaf} {as : List α}
    (h : raws (as.flatMap own) = []) {a : α} (ha : a ∈ as) : raws (own a) = [] := by
  induction as with
  | nil => cases ha
  | cons b bs ih =>
    rw [List.flatMap_cons, raws_append, List.append_eq_nil_iff] at h
    rcases List.mem_cons.1 ha with rfl | ha
    · exact h.1
    · exact ih h.2 ha

def Operand.leaves : Operand → List Leaf
  | .raw r => [.raw r]
  | .column name => [.name name]
  | .value v => [.value v]

def Columns.leaves (columns : Columns) : List Leaf := columns.toList.map .name

/-- The values row by row. -/
def Candidates.leaves : Candidates → List Leaf
  | .raw r => [.raw r]
  | .rows rs => rs.flatten.map .value
  | .list vs => vs.map .value

/-- The column comes before what it is compared with. -/
def Test.leaves : Test → List Leaf
  | .basic column _ value => .name column :: value.leaves
  | .isNull column => [.name column]
  | .isIn columns candidates =>
    if candidates.isEmpty then [] else columns.leaves ++ candidates.leaves
  | .between column low high => [.name column, .value low, .value high]
  | .hasRows subquery => [.raw subquery]
  | .raw r => [.raw r]

def JoinTest.leaves : JoinTest → List Leaf
  | .pair first _ second => [.name first, .name second]
  | .usingColumns columns => columns.leaves
  | .on t => t.leaves

/-- The leaves of the tests, at any depth. -/
def WhereClause.leaves (cs : List WhereClause) : List Leaf :=
  (Condition.testsOf cs).flatMap Test.leaves

/-- The leaves of the tests, at any depth. -/
def JoinConditions.leaves (cs : JoinConditions) : List Leaf :=
  (Condition.testsOf cs).flatMap JoinTest.leaves

def JoinSource.leaves (schema : Option String) : JoinSource → List Leaf
  | .raw r => [.raw r]
  | .name table => [.name (qualified schema table)]

/-- The source and then the conditions. Of a raw join only the source is read. -/
def ArrayJoin.leaves (j : ArrayJoin) : List Leaf :=
  match j.kind with
  | .raw => j.source.leaves j.schema
  | _ => j.source.leaves j.schema ++ JoinConditions.leaves j.conditions

/-- The source and then the conditions, of a raw join too. -/
def ArrayJoin.allLeaves (j : ArrayJoin) : List Leaf :=
  j.source.leaves j.schema ++ JoinConditions.leaves j.conditions

def OrderItem.leaves : OrderItem → List Leaf
  | .column name _ => [.name name]
  | .raw r => [.raw r]

def GroupItem.leaves : GroupItem → List Leaf
  | .column name => [.name name]
  | .raw r => [.raw r]

/-- The column comes before its new value. -/
def Assignment.leaves (a : Assignment) : List Leaf := .name a.column :: a.value.leaves

/-- A number is written as a word and is no leaf. -/
def Limit.leaves : Limit → List Leaf
  | .literal _ => []
  | .raw r => [.raw r]
  | .bound v => [.value v]

namespace Query

def tableLeaves (q : Query) : List Leaf :=
  q.table.elim [] fun table => [.name (qualified q.schema table)]

def joinLeaves (q : Query) : List Leaf := q.categories.arrayJoins.flatMap ArrayJoin.leaves

def limitLeaves (q : Query) : List Leaf := q.limit.elim [] Limit.leaves

/-- What a selection reads. -/
def selectLeaves (q : Query) : List Leaf :=
  q.columns.map .name ++ q.tableLeaves ++ q.joinLeaves ++
    WhereClause.leaves q.categories.prewhere ++ WhereClause.leaves q.categories.filter ++
    q.categories.groupBy.flatMap GroupItem.leaves ++
    q.categories.orderBy.flatMap OrderItem.leaves ++ q.limitLeaves

/-- What an update reads. -/
def updateLeaves (q : Query) : List Leaf :=
  q.tableLeaves ++ q.joinLeaves ++ q.update.flatMap Assignment.leaves ++
    WhereClause.leaves q.categories.filter ++ q.categories.orderBy.flatMap OrderItem.leaves ++
    q.limitLeaves

/-- All leaves of the tree, those included that neither statement reads. -/
def leaves (q : Query) : List Leaf :=
  q.columns.map .name ++ q.tableLeaves ++
    q.categories.arrayJoins.flatMap ArrayJoin.allLeaves ++
    WhereClause.leaves q.categories.prewhere ++ WhereClause.leaves q.categories.filter ++
    q.categories.groupBy.flatMap GroupItem.leaves ++
    q.categories.orderBy.flatMap OrderItem.leaves ++ q.update.flatMap Assignment.leaves ++
    q.limitLeaves

/-- All raw texts of the tree. -/
def raws (q : Query) : List Raw := Leaf.raws q.leaves

variable {q : Query}

theorem mem_leaves_of_mem_joinLeaves {l : Leaf} (h : l ∈ q.joinLeaves) :
    l ∈ q.categories.arrayJoins.flatMap ArrayJoin.allLeaves := by
  obtain ⟨j, hj, hl⟩ := List.mem_flatMap.1 h
  refine List.mem_flatMap.2 ⟨j, hj, ?_⟩
  rw [ArrayJoin.leaves] at hl
  split at hl
  · exact List.mem_append_left _ hl
  · exact hl

/-- A selection reads nothing but leaves of the tree. -/
theorem mem_leaves_of_mem_selectLeaves {l : Leaf} (h : l ∈ q.selectLeaves) : l ∈ q.leaves := by
  have hjoins : l ∈ q.joinLeaves → l ∈ q.categories.arrayJoins.flatMap ArrayJoin.allLeaves :=
    mem_leaves_of_mem_joinLeaves
  simp only [selectLeaves, leaves, List.mem_append] at h ⊢
  grind

/-- An update reads nothing but leaves of the tree. -/
theorem mem_leaves_of_mem_updateLeaves {l : Leaf} (h : l ∈ q.updateLeaves) : l ∈ q.leaves := by
  have hjoins : l ∈ q.joinLeaves → l ∈ q.categories.arrayJoins.flatMap ArrayJoin.allLeaves :=
    mem_leaves_of_mem_joinLeaves
  simp only [updateLeaves, leaves, List.mem_append] at h ⊢
  grind

end Query

end ClauseTree
