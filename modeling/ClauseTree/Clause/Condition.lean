import ClauseTree.Clause.Basic

/-!
# Trees of conditions

A `Condition α` is a test from `α` or a group of conditions, in either case negated or not
and with the word that connects it to the condition before it. The `where` and `prewhere`
groups of a statement and the conditions of its joins are lists of such trees, over two
types of tests.
-/

namespace ClauseTree

inductive Condition (α : Type) where
  | test (t : α) (negated : Bool) (connector : Connector)
  | group (members : List (Condition α)) (negated : Bool) (connector : Connector)
  deriving BEq, Repr

namespace Condition

variable {α β : Type}

/-- A test that is not negated, connected with `and`. -/
def ofTest (t : α) : Condition α := .test t false .and

/-- A group that is not negated, connected with `and`. -/
def ofMembers (members : List (Condition α)) : Condition α := .group members false .and

instance [Inhabited α] : Inhabited (Condition α) := ⟨ofTest default⟩

def negated : Condition α → Bool
  | .test _ n _ => n
  | .group _ n _ => n

/-- The word before the condition, if it is not the first. -/
def connector : Condition α → Connector
  | .test _ _ k => k
  | .group _ _ k => k

def setNegated (n : Bool) : Condition α → Condition α
  | .test t _ k => .test t n k
  | .group ms _ k => .group ms n k

def setConnector (k : Connector) : Condition α → Condition α
  | .test t n _ => .test t n k
  | .group ms n _ => .group ms n k

def not (c : Condition α) : Condition α := c.setNegated true

def or (c : Condition α) : Condition α := c.setConnector .or

/-- The condition with its negation turned over. -/
def flip (c : Condition α) : Condition α := c.setNegated !c.negated

/-- The condition with the other connector. -/
def swap (c : Condition α) : Condition α := c.setConnector c.connector.swap

@[simp] theorem negated_setNegated (n : Bool) (c : Condition α) :
    (c.setNegated n).negated = n := by
  cases c <;> rfl

@[simp] theorem connector_setConnector (k : Connector) (c : Condition α) :
    (c.setConnector k).connector = k := by
  cases c <;> rfl

mutual

/-- Some test of the tree satisfies `p`. -/
def any (p : α → Bool) : Condition α → Bool
  | .test t _ _ => p t
  | .group ms _ _ => anyOf p ms

/-- Some test of the trees satisfies `p`. -/
def anyOf (p : α → Bool) : List (Condition α) → Bool
  | [] => false
  | c :: cs => any p c || anyOf p cs

end

mutual

def tests : Condition α → List α
  | .test t _ _ => [t]
  | .group ms _ _ => testsOf ms

/-- The tests of the trees in order, those of a group in the place of the group. -/
def testsOf : List (Condition α) → List α
  | [] => []
  | c :: cs => tests c ++ testsOf cs

end

@[simp] theorem testsOf_nil : testsOf ([] : List (Condition α)) = [] := by rw [testsOf]

@[simp] theorem testsOf_test_cons (t : α) (n : Bool) (k : Connector) (cs : List (Condition α)) :
    testsOf (.test t n k :: cs) = t :: testsOf cs := by
  rw [testsOf, tests, List.singleton_append]

@[simp] theorem testsOf_group_cons (ms : List (Condition α)) (n : Bool) (k : Connector)
    (cs : List (Condition α)) :
    testsOf (.group ms n k :: cs) = testsOf ms ++ testsOf cs := by
  rw [testsOf, tests]

theorem testsOf_ofMembers (ms : List (Condition α)) : testsOf [ofMembers ms] = testsOf ms := by
  rw [ofMembers, testsOf_group_cons, testsOf_nil, List.append_nil]

theorem testsOf_eq_flatMap (cs : List (Condition α)) : testsOf cs = cs.flatMap tests := by
  induction cs with
  | nil => rw [testsOf_nil, List.flatMap_nil]
  | cons c cs ih => rw [testsOf, ih, List.flatMap_cons]

/-- Induction over a list of trees: its first tree is a test, or a group whose members are a
list of trees themselves. -/
@[elab_as_elim]
theorem forest_induction {motive : List (Condition α) → Prop} (nil : motive [])
    (test : ∀ t n k cs, motive cs → motive (.test t n k :: cs))
    (group : ∀ ms n k cs, motive ms → motive cs → motive (.group ms n k :: cs)) :
    ∀ cs, motive cs
  | [] => nil
  | .test t n k :: cs => test t n k cs (forest_induction nil test group cs)
  | .group ms n k :: cs =>
    group ms n k cs (forest_induction nil test group ms) (forest_induction nil test group cs)

section Map

variable (g : α → β)

mutual

/-- The tree with its tests changed by `g`. -/
def map : Condition α → Condition β
  | .test t n k => .test (g t) n k
  | .group cs n k => .group (mapAll cs) n k

def mapAll : List (Condition α) → List (Condition β)
  | [] => []
  | c :: cs => map c :: mapAll cs

end

@[simp] theorem connector_map (c : Condition α) : (c.map g).connector = c.connector := by
  cases c <;> rfl

theorem testsOf_mapAll (cs : List (Condition α)) : testsOf (mapAll g cs) = (testsOf cs).map g := by
  induction cs using forest_induction with
  | nil => rfl
  | test t n k cs ih =>
    rw [mapAll, map, testsOf_test_cons, testsOf_test_cons, ih, List.map_cons]
  | group ms n k cs ihms ih =>
    rw [mapAll, map, testsOf_group_cons, testsOf_group_cons, ihms, ih, List.map_append]

end Map

end Condition

end ClauseTree
