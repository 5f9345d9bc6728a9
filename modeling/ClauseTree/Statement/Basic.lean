import ClauseTree.Dialect
import ClauseTree.Value.Literal

/-!
# Compiled statements

A `Statement` is a text with the values for its placeholders, the signal that a value in its
conditions was never supplied, and what should be noted about it.

A question mark outside quotes is a placeholder. Quotes are apostrophes, double quotes and grave
accents; inside them a backslash takes the next character with it, and only the quote that opened
closes. `inline?` puts a value's literal in the place of each placeholder, if there are as many of
one as of the other.
-/

namespace ClauseTree

/-! ## Placeholders -/

namespace Placeholder

inductive State where
  | outside
  /-- Inside the quotes that `quote` opened; `escaped` if a backslash came just before. -/
  | inside (quote : Char) (escaped : Bool)
  deriving DecidableEq, Inhabited, Repr

def isQuote (c : Char) : Bool := c = '\x27' || c = '"' || c = '\x60'

def State.next : State → Char → State
  | .outside, c => if isQuote c then .inside c false else .outside
  | .inside quote true, _ => .inside quote false
  | .inside quote false, c =>
    if c = '\\' then .inside quote true else if c = quote then .outside else .inside quote false

def State.run (s : State) (cs : List Char) : State := cs.foldl State.next s

def isPlaceholder (s : State) (c : Char) : Bool := s = .outside && c = '?'

def count (s : State) : List Char → Nat
  | [] => 0
  | c :: cs => (if isPlaceholder s c then 1 else 0) + count (s.next c) cs

theorem run_append (s : State) (cs ds : List Char) :
    s.run (cs ++ ds) = (s.run cs).run ds := List.foldl_append

theorem count_append (s : State) (cs ds : List Char) :
    count s (cs ++ ds) = count s cs + count (s.run cs) ds := by
  induction cs generalizing s with
  | nil => simp [count, State.run]
  | cons c cs ih => simp [count, State.run, ih, Nat.add_assoc]

/-- The text with the given texts in the place of its placeholders; nothing if there are
more of one than of the other. -/
def splice? (s : State) : List Char → List (List Char) → Option (List Char)
  | [], [] => some []
  | [], _ :: _ => none
  | c :: cs, ts =>
    if isPlaceholder s c then
      match ts with
      | [] => none
      | t :: ts => (splice? (s.next c) cs ts).map (t ++ ·)
    else (splice? (s.next c) cs ts).map (c :: ·)

def inline? (sql : List Char) (values : List Value) : Option (List Char) :=
  splice? .outside sql (values.map Value.literalChars)

end Placeholder

/-! ## Statements -/

/-- What should be noted about a statement that is compiled all the same. -/
inductive Advisory where
  | returningUnsupported (dialect : String)
  deriving DecidableEq, Repr

def Advisory.message : Advisory → String
  | .returningUnsupported dialect =>
    "returning is not supported by " ++ dialect ++ " and will not have any effect"

structure Statement where
  sql : String
  bindings : List Value
  /-- A value in a `where` or `prewhere` group was never supplied. -/
  undefinedInWhere : Bool
  advisories : List Advisory := []
  deriving BEq, Repr

namespace Statement

def isEmpty (s : Statement) : Bool := s.sql.isEmpty

/-- The statement itself, unless a value for it was never supplied. -/
def ensureDefined (s : Statement) : Except CompileError Statement :=
  if s.undefinedInWhere || s.bindings.any Value.isUndefined then
    .error (.undefinedBinding s.sql)
  else .ok s

/-- The text with its values written into it, for logs. -/
def inline? (s : Statement) : Option String :=
  (Placeholder.inline? s.sql.toList s.bindings).map String.ofList

end Statement

end ClauseTree
