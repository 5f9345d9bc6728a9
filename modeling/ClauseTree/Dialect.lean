import ClauseTree.Text

/-!
# Dialects

A dialect decides how names are quoted, what stands for a bound value, which operators a
comparison may use and how many rows a limit can ask for.

A statement that does not suit its dialect, or does not fit together, is not compiled. All causes
but one lie in the query itself. `undefinedBinding` is the exception: the statement could be
written, but a value for it was never supplied.
-/

namespace ClauseTree

/-! ## Errors -/

inductive CompileError where
  | invalidClause (kind message : String)
  | operatorNotPermitted (operator : String)
  /-- The document does not describe a clause tree. The text of the cause, with the place where the
  reader stopped, is left out, and the message stands without it. -/
  | malformed
  | missingTable
  | emptyUpdate
  | undefinedBinding (sql : String)
  deriving DecidableEq, Repr

namespace CompileError

def message : CompileError → String
  | .invalidClause kind message => "Invalid " ++ kind ++ " clause: " ++ message
  | .operatorNotPermitted operator => "The operator \"" ++ operator ++ "\" is not permitted"
  | .malformed => "Invalid clause tree"
  | .missingTable => "Statement requires a table name"
  | .emptyUpdate => "Update statement has no assignments"
  | .undefinedBinding sql => "Undefined binding(s) detected when compiling: " ++ sql

/-- The query itself is at fault. -/
def isConstruction : CompileError → Bool
  | .undefinedBinding _ => false
  | _ => true

end CompileError

/-! ## Dialects -/

def commonOperators : List String :=
  ["=", "==", "<", ">", "<=", ">=", "<>", "!=", "like", "not like", "ilike", "not ilike", "in",
   "not in"]

/-- A segment of a name between quotes; a quote inside it is doubled. The star means all columns
and is never quoted. -/
def quoteBetween (quote : Char) (segment : List Char) : List Char :=
  if segment = ['*'] then segment
  else quote :: (segment.flatMap (fun c => if c = quote then [c, c] else [c]) ++ [quote])

/-- The language a statement is written in. All but the name has a default, and each part can
be chosen by itself. -/
structure Dialect where
  name : String
  quote : Char := '"'
  placeholder : String := "?"
  supportsReturning : Bool := false
  maxLimit : UInt64 := 18446744073709551615
  /-- A comparison may use the operator, which is given as `normalize` writes it. -/
  permits : String → Bool := commonOperators.contains
  quoteSegment : List Char → List Char := quoteBetween quote

namespace Dialect

def plain : Dialect where
  name := "plain"

def clickhouse : Dialect where
  name := "clickhouse"
  quote := '\x60'
  permits := (commonOperators ++ ["global in", "global not in"]).contains

/-- The form in which an operator is looked up and written: in lower case, without the blanks
around it. Letters whose lower case is not in ASCII keep their case (`Text.lower`). No operator of
`plain` or `clickhouse` has one; a dialect that permits others has to list them in that form. -/
def normalize (operator : String) : String :=
  String.ofList ((Text.trim operator.toList).map Text.lower)

def operator (d : Dialect) (given : String) : Except CompileError String :=
  if d.permits (normalize given) then .ok (normalize given)
  else .error (.operatorNotPermitted given)

end Dialect

end ClauseTree
