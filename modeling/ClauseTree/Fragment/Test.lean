import ClauseTree.Clause.Test
import ClauseTree.Fragment.Basic

/-!
# Fragments of tests

How the parts of clauses and the tests themselves are written. Only an operator can be
refused. A negation stands before most tests, but inside `is not null`, `not in` and
`not between`; a membership test without candidates is a constant.
-/

namespace ClauseTree

def negation (negated : Bool) : Fragment := if negated then [.word "not "] else []

def namesFragment (names : List String) : Fragment :=
  Fragment.joined ", " (names.map fun n => [.name n])

/-- One name, or a list of names in parentheses. -/
def Columns.fragment : Columns → Fragment
  | .single name => [.name name]
  | .multi names => Fragment.parenthesized (namesFragment names)

def Operand.fragment : Operand → Fragment
  | .raw r => [.raw r]
  | .column name => [.name name]
  | .value v => [.value v]

def valuesFragment (vs : List Value) : Fragment :=
  Fragment.parenthesized (Fragment.joined ", " (vs.map fun v => [.value v]))

def Candidates.fragment : Candidates → Fragment
  | .raw r => Fragment.parenthesized [.raw r]
  | .list vs => valuesFragment vs
  | .rows rs => Fragment.parenthesized (Fragment.joined ", " (rs.map valuesFragment))

def Test.fragment (d : Dialect) (negated : Bool) : Test → Except CompileError Fragment
  | .basic column operator value => do
    let op ← d.operator operator
    return negation negated ++ [.name column, .word " ", .word op, .word " "] ++ value.fragment
  | .isNull column => .ok ([.name column, .word " is "] ++ negation negated ++ [.word "null"])
  | .isIn columns candidates =>
    if candidates.isEmpty then .ok [.word (if negated then "1 = 1" else "1 = 0")]
    else
      .ok (columns.fragment ++ [.word " "] ++ negation negated ++ [.word "in "] ++
        candidates.fragment)
  | .between column low high =>
    .ok ([.name column, .word " "] ++ negation negated ++
      [.word "between ", .value low, .word " and ", .value high])
  | .hasRows subquery =>
    .ok (negation negated ++ [.word "exists "] ++ Fragment.parenthesized [.raw subquery])
  | .raw r => .ok (negation negated ++ [.raw r])

/-- A test of a join, negated or not. A list of shared columns has no negation. -/
def JoinTest.fragment (d : Dialect) (negated : Bool) : JoinTest → Except CompileError Fragment
  | .pair first operator second => do
    let op ← d.operator operator
    return negation negated ++ [.name first, .word " ", .word op, .word " ", .name second]
  | .usingColumns columns => .ok (namesFragment columns.toList)
  | .on t => t.fragment d negated

end ClauseTree
