import ClauseTree.Clause.Test
import ClauseTree.Document.Clause

/-!
# Conditions in documents

A condition is an object with a tag under `type`, the fields that belong to the tag, and
perhaps `not` and `bool`. All of it is held back until the tag is known, so its tag may be a
position; only the word under `bool` is read as strictly as the condition itself. The
members of a wrapped group stand under `value` and are always read leniently.
-/

namespace ClauseTree

open Document

inductive WhereTag where
  | basic
  | null
  | isIn
  | between
  | hasRows
  | wrapped
  | raw
  deriving DecidableEq, Repr

inductive JoinTag where
  | onBasic
  | onVal
  | onIn
  | onNull
  | onRows
  | onBetween
  | onWrapped
  | onRaw
  | onUsing
  deriving DecidableEq, Repr

namespace WhereTag

def all : List (WhereTag × List String) :=
  [(.basic, ["basic"]), (.null, ["null"]), (.isIn, ["in"]), (.between, ["between"]),
   (.hasRows, ["exists"]), (.wrapped, ["wrapped"]), (.raw, ["raw"])]

def word : WhereTag → String
  | .basic => "basic"
  | .null => "null"
  | .isIn => "in"
  | .between => "between"
  | .hasRows => "exists"
  | .wrapped => "wrapped"
  | .raw => "raw"

def fieldNames : WhereTag → List String
  | .basic => ["column", "operator", "value"]
  | .null => ["column"]
  | .isIn | .between => ["column", "value"]
  | .hasRows | .wrapped | .raw => ["value"]

end WhereTag

namespace JoinTag

def all : List (JoinTag × List String) :=
  [(.onBasic, ["onBasic"]), (.onVal, ["onVal"]), (.onIn, ["onIn"]), (.onNull, ["onNull"]),
   (.onRows, ["onExists"]), (.onBetween, ["onBetween"]), (.onWrapped, ["onWrapped"]),
   (.onRaw, ["onRaw"]), (.onUsing, ["onUsing", "using"])]

def word : JoinTag → String
  | .onBasic => "onBasic"
  | .onVal => "onVal"
  | .onIn => "onIn"
  | .onNull => "onNull"
  | .onRows => "onExists"
  | .onBetween => "onBetween"
  | .onWrapped => "onWrapped"
  | .onRaw => "onRaw"
  | .onUsing => "onUsing"

def fieldNames : JoinTag → List String
  | .onBasic | .onVal => ["column", "operator", "value"]
  | .onNull | .onUsing => ["column"]
  | .onIn | .onBetween => ["column", "value"]
  | .onRows | .onWrapped | .onRaw => ["value"]

end JoinTag

def conditionFieldNames : List String := ["type", "not", "bool"]

def bounds? : Json → Option (Value × Value)
  | .array [low, high] => do return (← Value.ofJson? low, ← Value.ofJson? high)
  | _ => none

namespace Test

def toFields : Test → Fields
  | .basic column operator value =>
    [("column", .string column), ("operator", .string operator), ("value", value.toJson)]
  | .isNull column => [("column", .string column)]
  | .isIn columns candidates => [("column", columns.toJson), ("value", candidates.toJson)]
  | .between column low high =>
    [("column", .string column), ("value", valuesToJson [low, high])]
  | .hasRows subquery => [("value", subquery.toJson)]
  | .raw r => [("value", r.toJson)]

/-- A comparison of a column, whose operand is read by `operand?`. -/
def basic? (operand? : Option Operand) (fs : Fields) : Option Test := do
  return .basic (← required fs "column" string?) (← required fs "operator" string?) (← operand?)

def isNull? (fs : Fields) : Option Test := do return .isNull (← required fs "column" string?)

def isIn? (fs : Fields) : Option Test := do
  return .isIn (← required fs "column" Columns.ofJson?) (← required fs "value" Candidates.ofJson?)

def between? (fs : Fields) : Option Test := do
  let column ← required fs "column" string?
  let (low, high) ← required fs "value" bounds?
  return .between column low high

def hasRows? (fs : Fields) : Option Test := do return .hasRows (← required fs "value" Raw.ofJson?)

def raw? (fs : Fields) : Option Test := do return .raw (← required fs "value" Raw.ofJson?)

def whereTag : Test → WhereTag
  | .basic .. => .basic
  | .isNull _ => .null
  | .isIn .. => .isIn
  | .between .. => .between
  | .hasRows _ => .hasRows
  | .raw _ => .raw

def joinTag : Test → JoinTag
  | .basic .. => .onVal
  | .isNull _ => .onNull
  | .isIn .. => .onIn
  | .between .. => .onBetween
  | .hasRows _ => .onRows
  | .raw _ => .onRaw

/-- The test with a tag. An operand that is not given was never supplied. -/
def ofWhereTag? (fs : Fields) : WhereTag → Option Test
  | .basic => basic? (optional fs "value" default Operand.ofJson?) fs
  | .null => isNull? fs
  | .isIn => isIn? fs
  | .between => between? fs
  | .hasRows => hasRows? fs
  | .wrapped => none
  | .raw => raw? fs

end Test

namespace JoinTest

def tag : JoinTest → JoinTag
  | .pair .. => .onBasic
  | .usingColumns _ => .onUsing
  | .on t => t.joinTag

def toFields : JoinTest → Fields
  | .pair first operator second =>
    [("column", .string first), ("operator", .string operator), ("value", .string second)]
  | .usingColumns columns => [("column", columns.toJson)]
  | .on t => t.toFields

/-- The test with a tag. Here an operand has to be given. -/
def ofTag? (fs : Fields) : JoinTag → Option JoinTest
  | .onBasic => do
    return .pair (← required fs "column" string?) (← required fs "operator" string?)
      (← required fs "value" string?)
  | .onVal => (Test.basic? (required fs "value" Operand.ofJson?) fs).map .on
  | .onIn => (Test.isIn? fs).map .on
  | .onNull => (Test.isNull? fs).map .on
  | .onRows => (Test.hasRows? fs).map .on
  | .onBetween => (Test.between? fs).map .on
  | .onWrapped => none
  | .onRaw => (Test.raw? fs).map .on
  | .onUsing => do return .usingColumns (← required fs "column" Columns.ofJson?)

end JoinTest

/-- How the conditions over one type of tests stand in documents. -/
structure ConditionFormat (τ α : Type) where
  tags : List (τ × List String)
  word : τ → String
  wrapped : τ
  fieldNames : τ → List String
  tag : α → τ
  toFields : α → Fields
  test? : Fields → τ → Option α

namespace ConditionFormat

variable {τ α : Type} (F : ConditionFormat τ α)

def object (tag : τ) (fs : Fields) (negated : Bool) (k : Connector) : Json :=
  .object (("type", .string (F.word tag)) ::
    (fs ++ [("not", .bool negated), ("bool", k.toJson)]))

mutual

def toJson : Condition α → Json
  | .test t n k => F.object (F.tag t) (F.toFields t) n k
  | .group cs n k => F.object F.wrapped [("value", .array (toItems cs))] n k

def toItems : List (Condition α) → List Json
  | [] => []
  | c :: cs => toJson c :: toItems cs

end

variable [DecidableEq τ]

mutual

def ofJson? (r : Reading) : Json → Option (Condition α)
  | .object fs => do
    let tag ← required fs "type" (tag? .lenient F.tags)
    let negated ← optional fs "not" false flag?
    let connector ← optional fs "bool" .and (Connector.ofJson? r)
    if !distinct (conditionFieldNames ++ F.fieldNames tag) fs then none
    else if tag = F.wrapped then return .group (← valueMembers? fs) negated connector
    else return .test (← F.test? fs tag) negated connector
  | _ => none

/-- The members of a group from its fields. -/
def valueMembers? : Fields → Option (List (Condition α))
  | [] => none
  | (name, j) :: fs => if name = "value" then members? j else valueMembers? fs

def members? : Json → Option (List (Condition α))
  | .array js => ofItems? js
  | _ => none

def ofItems? : List Json → Option (List (Condition α))
  | [] => some []
  | j :: js => do
    let c ← ofJson? .lenient j
    let cs ← ofItems? js
    return c :: cs

end

end ConditionFormat

namespace WhereClause

def format : ConditionFormat WhereTag Test where
  tags := WhereTag.all
  word := WhereTag.word
  wrapped := .wrapped
  fieldNames := WhereTag.fieldNames
  tag := Test.whereTag
  toFields := Test.toFields
  test? := Test.ofWhereTag?

def tag : WhereClause → WhereTag
  | .test t _ _ => t.whereTag
  | .group _ _ _ => .wrapped

def toJson : WhereClause → Json := format.toJson

def toItems : List WhereClause → List Json := format.toItems

def ofJson? : Reading → Json → Option WhereClause := format.ofJson?

end WhereClause

namespace JoinCondition

def format : ConditionFormat JoinTag JoinTest where
  tags := JoinTag.all
  word := JoinTag.word
  wrapped := .onWrapped
  fieldNames := JoinTag.fieldNames
  tag := JoinTest.tag
  toFields := JoinTest.toFields
  test? := JoinTest.ofTag?

def tag : JoinCondition → JoinTag
  | .test t _ _ => t.tag
  | .group _ _ _ => .onWrapped

def toJson : JoinCondition → Json := format.toJson

def toItems : List JoinCondition → List Json := format.toItems

def ofJson? : Reading → Json → Option JoinCondition := format.ofJson?

end JoinCondition

instance : FromDocument WhereClause := { ofJson? := WhereClause.ofJson? .strict }
instance : FromDocument JoinCondition := { ofJson? := JoinCondition.ofJson? .strict }
instance : FromDocument (List JoinCondition) :=
  { ofJson? := list? (JoinCondition.ofJson? .strict) }

end ClauseTree
