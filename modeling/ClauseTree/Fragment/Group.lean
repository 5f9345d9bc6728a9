import ClauseTree.Fragment.Test

/-!
# Fragments of groups

A group is written as a chain: its members one after the other, each with its connector
before it except the first. A member that is a group without anything to write does not
count: it has no connector and no text, and the next member takes its place.

The two kinds of groups differ in what counts. In a `where` group every test counts, even
one whose raw text is empty. Inside a wrapped group of a join it is text that counts: a
connector stands only where some text has gone before, and a group whose members have no
text has none either, though the values of its members stay bound.
-/

namespace ClauseTree

/-- A condition and what it writes as a member of its group. -/
structure Member (α : Type) where
  condition : Condition α
  /-- The member takes a place in the chain. -/
  counts : Bool
  fragment : Fragment

namespace Member

variable {α : Type}

/-- The connector of a member, between blanks. -/
def link (m : Member α) : Fragment :=
  [.word " ", .word m.condition.connector.word, .word " "]

def linked (ms : List (Member α)) : Fragment :=
  ms.flatMap fun m => if m.counts then m.link ++ m.fragment else m.fragment

theorem linked_cons (m : Member α) (ms : List (Member α)) :
    linked (m :: ms) = (if m.counts then m.link ++ m.fragment else m.fragment) ++ linked ms :=
  List.flatMap_cons

/-- A chain. Before its first member stands what `opening` writes for that member. -/
def chain (opening : Condition α → Fragment) : List (Member α) → Fragment
  | [] => []
  | m :: ms =>
    if m.counts then opening m.condition ++ m.fragment ++ linked ms
    else m.fragment ++ chain opening ms

/-- A chain in which a connector stands only after text. `started` says that there is some. -/
def chainOfText (w : Writer) (started : Bool) : List (Member α) → Fragment
  | [] => []
  | m :: ms =>
    (if m.counts && started then m.link else []) ++ m.fragment ++
      chainOfText w (started || !Fragment.isEmptyBy w m.fragment) ms

end Member

namespace Condition

variable {α : Type} (test : Bool → α → Except CompileError Fragment)
  (group : List (Condition α) → Bool → Connector → List (Member α) → Member α)

mutual

/-- A condition as a member of its group. `test` writes a test, negated or not, and `group`
makes a member of a group from the members of its own. -/
def member : Condition α → Except CompileError (Member α)
  | .test t n k => do
    return ⟨.test t n k, true, ← test n t⟩
  | .group cs n k => do
    return group cs n k (← members cs)

/-- The members of a group in order; the first refused operator is the error. -/
def members : List (Condition α) → Except CompileError (List (Member α))
  | [] => .ok []
  | c :: cs => do
    let m ← member c
    let ms ← members cs
    return m :: ms

end

end Condition

namespace WhereClause

/-- A group as a member of the group around it. -/
def groupMember (cs : List WhereClause) (n : Bool) (k : Connector) (ms : List (Member Test)) :
    Member Test :=
  let inner := Member.chain (fun _ => []) ms
  if ms.any Member.counts then
    ⟨.group cs n k, true, negation n ++ Fragment.parenthesized inner⟩
  else
    ⟨.group cs n k, false, inner⟩

def members (d : Dialect) : List WhereClause → Except CompileError (List (Member Test)) :=
  Condition.members (Test.fragment d) groupMember

/-- A group after its keyword. A group in which nothing counts has no keyword either. -/
def groupFragment (d : Dialect) (keyword : String) (cs : List WhereClause) :
    Except CompileError Fragment := do
  let ms ← members d cs
  return Member.chain (fun _ => [.word keyword, .word " "]) ms

/-- Somewhere in the group a value was never supplied. -/
def groupUndefined (cs : List WhereClause) : Bool := Condition.anyOf Test.containsUndefined cs

end WhereClause

namespace JoinCondition

/-- A group as a member of the group around it. -/
def groupMember (w : Writer) (cs : List JoinCondition) (n : Bool) (k : Connector)
    (ms : List (Member JoinTest)) : Member JoinTest :=
  let inner := Member.chainOfText w false ms
  if Fragment.isEmptyBy w inner then
    ⟨.group cs n k, false, inner⟩
  else
    ⟨.group cs n k, true, negation n ++ Fragment.parenthesized inner⟩

def members (w : Writer) : List JoinCondition → Except CompileError (List (Member JoinTest)) :=
  Condition.members (JoinTest.fragment w.dialect) (groupMember w)

/-- The word that introduces the conditions of a join, by the first of them that counts. -/
def opening (c : JoinCondition) : Fragment := [.word (if c.isUsing then " using " else " on ")]

end JoinCondition

end ClauseTree
