import ClauseTree.Query.Basic
import ClauseTree.Fragment.Group

/-!
# Fragments of statements

The remaining parts of a statement, and the two statements that are put together from
them. A part that has no text leaves no blank behind.

A join is written as its kind, its source and its conditions after `on` or `using`. A raw
join is its raw source and nothing else: its conditions are not looked at, and a source
that is only a name does not fit it.
-/

namespace ClauseTree

/-! ## Array joins -/

/-- The table that is joined. A schema belongs to a name. -/
def JoinSource.fragment (schema : Option String) : JoinSource → Fragment
  | .raw r => [.raw r]
  | .name table => [.name (qualified schema table)]

namespace ArrayJoin

/-- The error of a raw join whose source is a name. -/
def rawWithoutText : CompileError :=
  .invalidClause "arrayJoin" "a raw array join needs a raw fragment as its table"

def fragment (w : Writer) (j : ArrayJoin) : Except CompileError Fragment :=
  match j.kind, j.source with
  | .raw, .raw r => .ok [.raw r]
  | .raw, .name _ => .error rawWithoutText
  | kind, source => do
    let ms ← JoinCondition.members w j.conditions
    return [.word kind.word, .word " join "] ++ source.fragment j.schema ++
      Member.chain JoinCondition.opening ms

/-- Several array joins, in order; the first error is the error of all. -/
def fragments (w : Writer) : List ArrayJoin → Except CompileError (List Fragment)
  | [] => .ok []
  | j :: js => do
    let f ← fragment w j
    let fs ← fragments w js
    return f :: fs

/-- The array joins of a statement, a blank between each two that have text. -/
def listFragment (w : Writer) (js : List ArrayJoin) : Except CompileError Fragment := do
  let fs ← fragments w js
  return Fragment.spaced fs

end ArrayJoin

/-! ## Entries, assignments and limits -/

def OrderItem.fragment : OrderItem → Fragment
  | .column name direction => [.name name, .word " ", .word direction.word]
  | .raw r => [.raw r]

def GroupItem.fragment : GroupItem → Fragment
  | .column name => [.name name]
  | .raw r => [.raw r]

def Assignment.fragment (a : Assignment) : Fragment :=
  [.name a.column, .word " = "] ++ a.value.fragment

/-- The number, the raw text or the placeholder of a limit. -/
def Limit.fragment : Limit → Fragment
  | .literal n => Fragment.number n.toNat
  | .raw r => [.raw r]
  | .bound v => [.value v]

namespace Fragment

/-- Entries after their keyword, which is left out if there are none. -/
def listed (keyword : String) (items : List Fragment) : Fragment :=
  if items.isEmpty then [] else .word keyword :: .word " " :: joined ", " items

def orderBy (items : List OrderItem) : Fragment := listed "order by" (items.map OrderItem.fragment)

def groupBy (items : List GroupItem) : Fragment := listed "group by" (items.map GroupItem.fragment)

/-- Whether rows are to be skipped. -/
def skips (offset : Option UInt64) : Bool := offset.any fun n => 0 < n

/-- The limit. Rows cannot be skipped without one, so an offset alone asks for as many rows
as the dialect allows. -/
def limit (d : Dialect) (l : Option Limit) (offset : Option UInt64) : Fragment :=
  match l with
  | some l => .word "limit " :: l.fragment
  | none => if skips offset then .word "limit " :: number d.maxLimit.toNat else []

/-- The offset, unless it is zero. -/
def offset : Option UInt64 → Fragment
  | some n => if 0 < n then .word "offset " :: number n.toNat else []
  | none => []

def lock : Option Lock → Fragment
  | some l => [.word l.text]
  | none => []

def selected (columns : List String) : Fragment :=
  .word "select " :: if columns.isEmpty then [.word "*"] else namesFragment columns

def source (q : Query) : Fragment :=
  match q.table with
  | some table => [.word "from ", .name (qualified q.schema table)]
  | none => []

/-- The parts of an update in their order. -/
def update (table join : Fragment) (assignments : List Fragment) (filter order limit : Fragment) :
    Fragment :=
  spaced [.word "update " :: table, join, .word "set " :: joined ", " assignments, filter, order,
    limit]

end Fragment

namespace Query

def selectFragment (w : Writer) (q : Query) : Except CompileError Fragment := do
  let joins ← ArrayJoin.listFragment w q.categories.arrayJoins
  let prewhere ← WhereClause.groupFragment w.dialect "prewhere" q.categories.prewhere
  let filter ← WhereClause.groupFragment w.dialect "where" q.categories.filter
  return Fragment.spaced
    [Fragment.selected q.columns, Fragment.source q, joins, prewhere, filter,
      Fragment.groupBy q.categories.groupBy, Fragment.orderBy q.categories.orderBy,
      Fragment.limit w.dialect q.limit q.offset, Fragment.offset q.offset, Fragment.lock q.lock]

/-- The whole update. It needs a table and an assignment; an absent table is noticed first. -/
def updateFragment (w : Writer) (q : Query) : Except CompileError Fragment :=
  match q.table with
  | none => .error .missingTable
  | some table =>
    if q.update.isEmpty then .error .emptyUpdate
    else do
      let joins ← ArrayJoin.listFragment w q.categories.arrayJoins
      let filter ← WhereClause.groupFragment w.dialect "where" q.categories.filter
      return Fragment.update [.name (qualified q.schema table)] joins
        (q.update.map Assignment.fragment) filter (Fragment.orderBy q.categories.orderBy)
        (Fragment.limit w.dialect q.limit q.offset)

end Query

end ClauseTree
