import ClauseTree.Query.Basic
import ClauseTree.Document.Condition
import ClauseTree.Dialect

/-!
# Queries in documents

A query is one object that holds its own fields and those of its categories side by side. Its
own fields are taken as they come; the categories are held back, so everything in them is
read leniently. Every field may be left out. Writing a query leaves out the categories that are
empty.
-/

namespace ClauseTree

open Document

/-- A part that may be missing, as null if it is. -/
def orNull {α : Type} (toJson : α → Json) (x : Option α) : Json := x.elim .null toJson

namespace JoinKind

def words : List (String × JoinKind) := [("inner", .inner), ("left", .left), ("raw", .raw)]

def ofJson? (r : Reading) (j : Json) : Option JoinKind := word? r words j

end JoinKind

def JoinSource.toJson : JoinSource → Json
  | .raw r => r.toJson
  | .name table => .string table

/-- The source of a join: raw text, else a name. -/
def JoinSource.ofJson? (j : Json) : Option JoinSource :=
  (Raw.ofJson? j).map .raw <|> (string? j).map .name

namespace ArrayJoin

def fieldNames : List String := ["table", "schema", "joinType", "clauses"]

/-- An array join as an object. A schema is written only if there is one. -/
def toJson (a : ArrayJoin) : Json :=
  .object ([("table", a.source.toJson)] ++
    a.schema.elim [] (fun s => [("schema", .string s)]) ++
    [("joinType", .string a.kind.word), ("clauses", .array (JoinCondition.toItems a.conditions))])

def ofJson? (r : Reading) (j : Json) : Option ArrayJoin := do
  let fs ← record? fieldNames j
  return {
    source := ← required fs "table" JoinSource.ofJson?
    schema := ← optional fs "schema" none (nullable? string?)
    kind := ← required fs "joinType" (JoinKind.ofJson? r)
    conditions := ← optional fs "clauses" [] (list? (JoinCondition.ofJson? r)) }

end ArrayJoin

inductive ItemTag where
  | basic
  | raw
  deriving DecidableEq, Repr

def ItemTag.all : List (ItemTag × List String) := [(.basic, ["basic"]), (.raw, ["raw"])]

namespace Direction

def words : List (String × Direction) := [("asc", .asc), ("desc", .desc)]

def ofJson? (r : Reading) (j : Json) : Option Direction := word? r words j

end Direction

/-- An entry from a tagged record: what `column` reads, or raw text. What follows the tag was held
back. -/
def item? {α : Type} (r : Reading) (column : Json → Option α) (raw : Raw → α) (j : Json) :
    Option α := do
  let (t, content) ← tagged? j
  match ← tag? r ItemTag.all t with
  | .basic => column content
  | .raw =>
    let fs ← record? ["value"] content
    return raw (← required fs "value" Raw.ofJson?)

theorem item?_cases {α : Type} {r : Reading} {column : Json → Option α} {raw : Raw → α}
    {j : Json} {i : α} (h : item? r column raw j = some i) :
    ∃ t content, tagged? j = some (t, content) ∧
      (tag? r ItemTag.all t = some .basic ∧ column content = some i ∨
        tag? r ItemTag.all t = some .raw ∧ ∃ fs text, record? ["value"] content = some fs ∧
          required fs "value" Raw.ofJson? = some text ∧ i = raw text) := by
  obtain ⟨⟨t, content⟩, ht, h⟩ := Option.bind_eq_some_iff.1 h
  obtain ⟨tag, htag, h⟩ := Option.bind_eq_some_iff.1 h
  refine ⟨t, content, ht, ?_⟩
  cases tag with
  | basic => exact .inl ⟨htag, h⟩
  | raw =>
    obtain ⟨fs, hfs, h⟩ := Option.bind_eq_some_iff.1 h
    obtain ⟨text, htext, h⟩ := Option.bind_eq_some_iff.1 h
    cases h
    exact .inr ⟨htag, fs, text, hfs, htext, rfl⟩

namespace OrderItem

def toJson : OrderItem → Json
  | .column name direction =>
    .object [("type", .string "basic"), ("column", .string name),
      ("direction", .string direction.word)]
  | .raw r => .object [("type", .string "raw"), ("value", r.toJson)]

def column? (j : Json) : Option OrderItem := do
  let fs ← record? ["column", "direction"] j
  return .column (← required fs "column" string?)
    (← optional fs "direction" .asc (Direction.ofJson? .lenient))

def ofJson? (r : Reading) (j : Json) : Option OrderItem := item? r column? .raw j

end OrderItem

namespace GroupItem

def toJson : GroupItem → Json
  | .column name => .object [("type", .string "basic"), ("column", .string name)]
  | .raw r => .object [("type", .string "raw"), ("value", r.toJson)]

def column? (j : Json) : Option GroupItem := do
  let fs ← record? ["column"] j
  return .column (← required fs "column" string?)

def ofJson? (r : Reading) (j : Json) : Option GroupItem := item? r column? .raw j

end GroupItem

namespace Categories

def fieldNames : List String := ["arrayJoin", "prewhere", "where", "group", "order"]

/-- A category, unless it is empty. -/
def category (name : String) (items : List Json) : Fields :=
  if items.isEmpty then [] else [(name, .array items)]

def toFields (c : Categories) : Fields :=
  category "arrayJoin" (c.arrayJoins.map ArrayJoin.toJson) ++
    category "prewhere" (WhereClause.toItems c.prewhere) ++
    category "where" (WhereClause.toItems c.filter) ++
    category "group" (c.groupBy.map GroupItem.toJson) ++
    category "order" (c.orderBy.map OrderItem.toJson)

def toJson (c : Categories) : Json := .object c.toFields

/-- The categories among the fields of a document. -/
def ofFields? (r : Reading) (fs : Fields) : Option Categories := do
  return {
    arrayJoins := ← optional fs "arrayJoin" [] (list? (ArrayJoin.ofJson? r))
    prewhere := ← optional fs "prewhere" [] (list? (WhereClause.ofJson? r))
    filter := ← optional fs "where" [] (list? (WhereClause.ofJson? r))
    groupBy := ← optional fs "group" [] (list? (GroupItem.ofJson? r))
    orderBy := ← optional fs "order" [] (list? (OrderItem.ofJson? r)) }

def ofJson? (j : Json) : Option Categories := do
  let fs ← record? fieldNames j
  ofFields? .strict fs

end Categories

def Limit.toJson : Limit → Json
  | .literal n => .int n.toNat
  | .raw r => r.toJson
  | .bound v => .object [("bind", v.toJson)]

/-- A limit: a number, else raw text, else a bound value. -/
def Limit.ofJson? (j : Json) : Option Limit :=
  (word64? j).map .literal <|> (Raw.ofJson? j).map .raw <|>
    (onlyField? "bind" Value.ofJson? j).map .bound

namespace Lock

def words : List (String × Lock) := [("forUpdate", .forUpdate), ("forShare", .forShare)]

def word : Lock → String
  | .forUpdate => "forUpdate"
  | .forShare => "forShare"

def toJson (l : Lock) : Json := .string l.word

def ofJson? (r : Reading) (j : Json) : Option Lock := word? r words j

end Lock

namespace Assignment

def fieldNames : List String := ["column", "value"]

def toJson (a : Assignment) : Json :=
  .object [("column", .string a.column), ("value", a.value.toJson)]

/-- An assignment from a record. A value that is not given was never supplied. -/
def ofJson? (j : Json) : Option Assignment := do
  let fs ← record? fieldNames j
  return ⟨← required fs "column" string?, ← optional fs "value" default Operand.ofJson?⟩

end Assignment

namespace Query

/-- The fields of a query that are not categories. -/
def ownFieldNames : List String :=
  ["table", "schema", "columns", "update", "limit", "offset", "lock", "returning"]

def toJson (q : Query) : Json :=
  .object ([("table", orNull .string q.table), ("schema", orNull .string q.schema),
      ("columns", namesToJson q.columns)] ++
    q.categories.toFields ++
    [("update", .array (q.update.map Assignment.toJson)), ("limit", orNull Limit.toJson q.limit),
      ("offset", orNull (fun n => .int n.toNat) q.offset), ("lock", orNull Lock.toJson q.lock),
      ("returning", namesToJson q.returning)])

def ofJson? : Json → Option Query
  | .object fs => do
    if !distinct (ownFieldNames ++ Categories.fieldNames) fs then none
    else return {
      table := ← optional fs "table" none (nullable? string?)
      schema := ← optional fs "schema" none (nullable? string?)
      columns := ← optional fs "columns" [] (list? string?)
      categories := ← Categories.ofFields? .lenient fs
      update := ← optional fs "update" [] (list? Assignment.ofJson?)
      limit := ← optional fs "limit" none (nullable? Limit.ofJson?)
      offset := ← optional fs "offset" none (nullable? word64?)
      lock := ← optional fs "lock" none (nullable? (Lock.ofJson? .strict))
      returning := ← optional fs "returning" [] (list? string?) }
  | _ => none

end Query

instance : FromDocument JoinKind := { ofJson? := JoinKind.ofJson? .strict }
instance : FromDocument JoinSource := { ofJson? := JoinSource.ofJson? }
instance : FromDocument ArrayJoin :=
  { keep := keepFields ArrayJoin.fieldNames, ofJson? := ArrayJoin.ofJson? .strict }
instance : FromDocument Direction := { ofJson? := Direction.ofJson? .strict }
instance : FromDocument OrderItem := { ofJson? := OrderItem.ofJson? .strict }
instance : FromDocument GroupItem := { ofJson? := GroupItem.ofJson? .strict }
instance : FromDocument Limit := { ofJson? := Limit.ofJson? }
instance : FromDocument Lock := { ofJson? := Lock.ofJson? .strict }
instance : FromDocument Assignment :=
  { keep := keepFields Assignment.fieldNames, ofJson? := Assignment.ofJson? }

/-- The array joins of a record of categories are taken as they come, field by field. -/
instance : FromDocument Categories where
  keep j := mapItems "arrayJoin" 0 (FromDocument.keep ArrayJoin)
    (keepFields Categories.fieldNames j)
  ofJson? := Categories.ofJson?

/-- The assignments of a query are taken as they come, field by field. A query is no array. -/
instance : FromDocument Query where
  keep j := mapItems "update" 0 (FromDocument.keep Assignment) j
  ofJson? := Query.ofJson?

def Query.parse (text : String) : Except CompileError Query :=
  match FromDocument.parse? (α := Query) text with
  | some q => .ok q
  | none => .error .malformed

theorem Query.parse_eq_ok_iff {text : String} {q : Query} :
    parse text = .ok q ↔ ∃ j, Json.parse text = some j ∧
      (FromDocument.keep Query j).readable = true ∧
        ofJson? (FromDocument.keep Query j) = some q := by
  have hparse : parse text = .ok q ↔ FromDocument.parse? text = some q := by
    rw [parse]
    cases FromDocument.parse? (α := Query) text <;> simp
  rw [hparse, FromDocument.parse?, Option.bind_eq_bind, Option.bind_eq_some_iff]
  exact exists_congr fun j => and_congr_right fun _ => Option.ite_none_right_eq_some

end ClauseTree
