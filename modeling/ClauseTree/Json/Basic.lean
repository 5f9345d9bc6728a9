/-!
# JSON values

Objects keep their fields in the order of the text, repeated names included, because a
repeated name is something a reader may refuse. Whole numbers are kept exactly; all other
numbers are doubles.

Two kinds of value have a correct spelling but no content: a number beyond the range of
doubles, and text with one half of a surrogate pair. Both are `unreadable`. They only matter to
someone who reads them, and so does the depth of a value; `Json.readable` is the test that
a reader applies to the parts it does not skip.
-/

namespace ClauseTree

inductive Json where
  | null
  | bool (b : Bool)
  /-- A number written without fraction and exponent, in the range of 64-bit words. -/
  | int (n : Int)
  /-- Any other number. -/
  | real (x : Float)
  | string (s : String)
  | array (items : List Json)
  | object (fields : List (String × Json))
  /-- A well-formed value without content. -/
  | unreadable
  deriving BEq, Inhabited, Repr

namespace Json

mutual

/-- The number of arrays and objects around the innermost value, itself included. -/
def depth : Json → Nat
  | .array items => depthItems items + 1
  | .object fields => depthFields fields + 1
  | _ => 0

def depthItems : List Json → Nat
  | [] => 0
  | j :: js => max j.depth (depthItems js)

def depthFields : List (String × Json) → Nat
  | [] => 0
  | (_, j) :: fs => max j.depth (depthFields fs)

end

mutual

def hasContent : Json → Bool
  | .array items => haveContent items
  | .object fields => fieldsHaveContent fields
  | .unreadable => false
  | _ => true

def haveContent : List Json → Bool
  | [] => true
  | j :: js => j.hasContent && haveContent js

def fieldsHaveContent : List (String × Json) → Bool
  | [] => true
  | (_, j) :: fs => j.hasContent && fieldsHaveContent fs

end

/-- The greatest number of nested arrays and objects a reader follows. -/
def depthLimit : Nat := 127

/-- A reader can take in the whole value. -/
def readable (j : Json) : Bool := j.hasContent && j.depth ≤ depthLimit

def fields : Json → List (String × Json)
  | .object fs => fs
  | _ => []

end Json

end ClauseTree
