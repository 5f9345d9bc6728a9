import ClauseTree.Statement.Compile
import ClauseTree.Document.Query
import ClauseTree.Json.Printer

/-!
# Statements from documents

From the text of a document to a statement, and from a statement to what is shown of it: an
object over several lines, or the text with the values written into it.
-/

namespace ClauseTree

open Document

def Advisory.toJson : Advisory → Json
  | .returningUnsupported dialect =>
    .object [("kind", .string "returningUnsupported"), ("dialect", .string dialect)]

namespace Statement

def toJson (s : Statement) : Json :=
  .object [("sql", .string s.sql), ("bindings", valuesToJson s.bindings),
    ("undefined_in_where", .bool s.undefinedInWhere),
    ("advisories", .array (s.advisories.map Advisory.toJson))]

/-- Why a statement is not shown with its values written into it. -/
def inlineFailure : String :=
  "Cannot inline: placeholders do not match bindings, use the JSON output"

/-- What is shown of a statement: the text with its values, or all of it as an object. -/
def render (s : Statement) (inline : Bool) : Except String String :=
  if inline then
    match s.inline? with
    | some text => .ok text
    | none => .error inlineFailure
  else .ok s.toJson.pretty

/-- The statement itself; if `strict`, only if every value for it was supplied. -/
def check (s : Statement) (strict : Bool) : Except CompileError Statement :=
  if strict then s.ensureDefined else .ok s

end Statement

/-- The statement of the given kind that a document describes, in the dialect of ClickHouse. -/
def compileDocument (text : String) (kind : StatementKind) (strict : Bool) :
    Except CompileError Statement := do
  let q ← Query.parse text
  let s ← Dialect.clickhouse.compile kind q
  s.check strict

end ClauseTree
