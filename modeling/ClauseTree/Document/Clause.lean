import ClauseTree.Clause.Basic
import ClauseTree.Document.Record

/-!
# The parts of clauses in documents

Values are written as plain JSON. Bytes become a list of numbers and a value that was never
supplied becomes null; neither is read back as what it was. An integer is read as signed if
it fits, as unsigned otherwise.

Operands, candidates and columns carry no tag. They are told apart by their shape, and raw
text comes first: an array of a text and perhaps a list of values is a raw record.
-/

namespace ClauseTree

open Document

def Value.toJson : Value → Json
  | .null | .undefined => .null
  | .bool b => .bool b
  | .int n => .int n.toInt
  | .uint n => .int n.toNat
  | .float x => .real x
  | .text s => .string s
  | .blob bytes => .array (bytes.map fun b => .int b.toNat)

def Value.ofJson? : Json → Option Value
  | .null => some .null
  | .bool b => some (.bool b)
  | .int n => some (.ofInt n)
  | .real x => some (.float x)
  | .string s => some (.text s)
  | _ => none

def valuesToJson (vs : List Value) : Json := .array (vs.map Value.toJson)

def Raw.toJson (r : Raw) : Json :=
  .object [("sql", .string r.sql), ("bindings", valuesToJson r.bindings)]

def Raw.fieldNames : List String := ["sql", "bindings"]

def Raw.ofJson? (j : Json) : Option Raw := do
  let fs ← record? Raw.fieldNames j
  let sql ← required fs "sql" string?
  let bindings ← optional fs "bindings" [] (list? Value.ofJson?)
  return ⟨sql, bindings⟩

/-- An object with the one field `name` among its fields. -/
def onlyField? {α : Type} (name : String) (read : Json → Option α) : Json → Option α
  | .object fs => if distinct [name] fs then required fs name read else none
  | _ => none

def Operand.toJson : Operand → Json
  | .raw r => r.toJson
  | .column name => .object [("column", .string name)]
  | .value v => v.toJson

/-- An operand: raw text, else a column, else a value. -/
def Operand.ofJson? (j : Json) : Option Operand :=
  (Raw.ofJson? j).map .raw <|> (onlyField? "column" string? j).map .column <|>
    (Value.ofJson? j).map .value

def Candidates.toJson : Candidates → Json
  | .raw r => r.toJson
  | .rows rs => .array (rs.map valuesToJson)
  | .list vs => valuesToJson vs

/-- Candidates: raw text, else rows, else a list. -/
def Candidates.ofJson? (j : Json) : Option Candidates :=
  (Raw.ofJson? j).map .raw <|> (list? (list? Value.ofJson?) j).map .rows <|>
    (list? Value.ofJson? j).map .list

def namesToJson (names : List String) : Json := .array (names.map .string)

/-- A column as a text, several as an array. -/
def Columns.toJson : Columns → Json
  | .single name => .string name
  | .multi names => namesToJson names

/-- A text or an array of texts. -/
def Columns.ofJson? (j : Json) : Option Columns :=
  (string? j).map .single <|> (list? string? j).map .multi

def Connector.words : List (String × Connector) := [("and", .and), ("or", .or)]

def Connector.toJson (k : Connector) : Json := .string k.word

def Connector.ofJson? (r : Reading) (j : Json) : Option Connector := word? r Connector.words j

instance : FromDocument Value := { ofJson? := Value.ofJson? }
instance : FromDocument Raw := { keep := keepFields Raw.fieldNames, ofJson? := Raw.ofJson? }
instance : FromDocument Operand := { ofJson? := Operand.ofJson? }
instance : FromDocument Candidates := { ofJson? := Candidates.ofJson? }
instance : FromDocument Columns := { ofJson? := Columns.ofJson? }
instance : FromDocument Connector := { ofJson? := Connector.ofJson? .strict }

end ClauseTree
