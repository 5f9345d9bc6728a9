import ClauseTree.Json.Parser

/-!
# Reading documents

How the values of a document are taken apart. A record is an object with declared fields, in
any order, or an array of their values in the declared order. A declared field may not be
repeated; other fields are ignored. An untagged choice takes the first alternative that
fits.

A document is read strictly where its parts are taken as they come. Where a part had to be
held back until its type was known, reading it is lenient: the empty object passes for
null in a word, and a tag may be given by its position.

What nobody reads need not be readable: `FromDocument.keep` drops the fields that are skipped
before the rest is checked for its depth and its content.
-/

namespace ClauseTree

/-- How words and tags are read. -/
inductive Reading where
  | strict
  | lenient
  deriving DecidableEq, Repr

class FromDocument (α : Type) where
  /-- The document without the fields that are skipped. -/
  keep : Json → Json := id
  /-- The element that a document describes. -/
  ofJson? : Json → Option α

def FromDocument.parse? {α : Type} [FromDocument α] (text : String) : Option α := do
  let j ← Json.parse text
  let kept := FromDocument.keep α j
  if kept.readable then FromDocument.ofJson? kept else none

namespace Document

abbrev Fields := List (String × Json)

/-- None of the names stands for two fields. -/
def distinct (names : List String) (fs : Fields) : Bool :=
  names.all fun n => fs.countP (fun f => f.1 == n) ≤ 1

/-- The fields of a record with the given names. -/
def record? (names : List String) : Json → Option Fields
  | .object fs => if distinct names fs then some fs else none
  | .array js => if js.length ≤ names.length then some (names.zip js) else none
  | _ => none

/-- A field that has to be there. -/
def required {α : Type} (fs : Fields) (name : String) (read : Json → Option α) : Option α :=
  (fs.lookup name).bind read

/-- A field that is `default` if it is not there. -/
def optional {α : Type} (fs : Fields) (name : String) (default : α) (read : Json → Option α) :
    Option α :=
  match fs.lookup name with
  | none => some default
  | some j => read j

def string? : Json → Option String
  | .string s => some s
  | _ => none

def flag? : Json → Option Bool
  | .bool b => some b
  | _ => none

def word64? : Json → Option UInt64
  | .int (.ofNat n) => if n < Nat.pow 2 64 then some (UInt64.ofNat n) else none
  | _ => none

def list? {α : Type} (read : Json → Option α) : Json → Option (List α)
  | .array js => js.mapM read
  | _ => none

def nullable? {α : Type} (read : Json → Option α) : Json → Option (Option α)
  | .null => some none
  | j => (read j).map some

/-- One of several words, by itself or as the only name of an object with nothing to it. -/
def word? {α : Type} (r : Reading) (words : List (String × α)) : Json → Option α
  | .string s => words.lookup s
  | .object [(s, .null)] => words.lookup s
  | .object [(s, .object [])] => if r = .lenient then words.lookup s else none
  | _ => none

/-- One of several tags, each with its spellings. -/
def tag? {α : Type} (r : Reading) (tags : List (α × List String)) : Json → Option α
  | .string s => (tags.find? fun t => t.2.contains s).map Prod.fst
  | .int (.ofNat n) => if r = .lenient then tags[n]?.map Prod.fst else none
  | _ => none

/-- The tag of a tagged record and the record itself. As an array, the tag comes first. -/
def tagged? : Json → Option (Json × Json)
  | .object fs =>
    if distinct ["type"] fs then (fs.lookup "type").map fun t => (t, .object fs) else none
  | .array (t :: js) => some (t, .array js)
  | _ => none

/-- An object without the fields whose names are not given. -/
def keepFields (names : List String) : Json → Json
  | .object fs => .object (fs.filter fun f => names.contains f.1)
  | j => j

/-- A document in which the items of one field of the record are changed by `f`. The field is
found by its name in an object and by its position in an array. -/
def mapItems (name : String) (position : Nat) (f : Json → Json) : Json → Json
  | .object fs => .object (fs.map fun (n, j) => if n = name then (n, items j) else (n, j))
  | .array js => .array (js.modify position items)
  | j => j
where
  /-- The items of an array changed by `f`. -/
  items : Json → Json
    | .array js => .array (js.map f)
    | j => j

end Document

end ClauseTree
