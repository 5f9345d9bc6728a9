import ClauseTree.Fragment.Statement
import ClauseTree.Statement.Basic

/-!
# Compiling

Compiling writes the fragment of a statement, or of one of its parts, for a dialect. The
parts that are compiled on their own are the array joins, the two groups of conditions
and the limit.
-/

namespace ClauseTree

def Fragment.statement (w : Writer) (f : Fragment) (undefinedInWhere : Bool)
    (advisories : List Advisory) : Statement :=
  ⟨Fragment.written w f, Fragment.bindings f, undefinedInWhere, advisories⟩

inductive StatementKind where
  | select
  | update
  deriving DecidableEq, Repr

namespace Dialect

def compileArrayJoins (d : Dialect) (js : List ArrayJoin) : Except CompileError Statement := do
  let f ← ArrayJoin.listFragment d.writer js
  return f.statement d.writer false []

/-- A group of conditions on its own, after its keyword. -/
def compileGroup (d : Dialect) (keyword : String) (cs : List WhereClause) :
    Except CompileError Statement := do
  let f ← WhereClause.groupFragment d keyword cs
  return f.statement d.writer (WhereClause.groupUndefined cs) []

def compilePrewhere (d : Dialect) (cs : List WhereClause) : Except CompileError Statement :=
  d.compileGroup "prewhere" cs

/-- The `where` group on its own. -/
def compileWhere (d : Dialect) (cs : List WhereClause) : Except CompileError Statement :=
  d.compileGroup "where" cs

/-- The limit on its own, without the offset. -/
def compileLimit (d : Dialect) (l : Option Limit) (offset : Option UInt64) : Statement :=
  (Fragment.limit d l offset).statement d.writer false []

def advisories (d : Dialect) (q : Query) : List Advisory :=
  if q.returning.isEmpty || d.supportsReturning then [] else [.returningUnsupported d.name]

end Dialect

namespace Writer

def compileSelect (w : Writer) (q : Query) : Except CompileError Statement := do
  let f ← q.selectFragment w
  return f.statement w
    (WhereClause.groupUndefined q.categories.prewhere ||
      WhereClause.groupUndefined q.categories.filter)
    (w.dialect.advisories q)

def compileUpdate (w : Writer) (q : Query) : Except CompileError Statement := do
  let f ← q.updateFragment w
  return f.statement w (WhereClause.groupUndefined q.categories.filter) (w.dialect.advisories q)

def compile (w : Writer) (kind : StatementKind) (q : Query) : Except CompileError Statement :=
  match kind with
  | .select => w.compileSelect q
  | .update => w.compileUpdate q

end Writer

namespace Dialect

def compileSelect (d : Dialect) (q : Query) : Except CompileError Statement :=
  d.writer.compileSelect q

def compileUpdate (d : Dialect) (q : Query) : Except CompileError Statement :=
  d.writer.compileUpdate q

def compile (d : Dialect) (kind : StatementKind) (q : Query) : Except CompileError Statement :=
  d.writer.compile kind q

end Dialect

end ClauseTree
