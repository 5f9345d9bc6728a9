import ClauseTree.Document.Query

/-!
# Raw text in documents

Raw text is meant to be an object with a field `sql`. But a record may also be an array of the
values of its fields, and of the shapes that an untagged part can have raw text is tried
first. So in some places of a document an array of a text alone, or of a text and a list of
plain values, is raw text as well. `Raw.ofArray?` is that reading, and `Query.rawPlaces`
lists the places.
-/

namespace ClauseTree

open Document

namespace Json

mutual

/-- Some object inside has a field of the name. -/
def hasKey (name : String) : Json → Bool
  | .array items => itemsHaveKey name items
  | .object fields => fieldsHaveKey name fields
  | _ => false

def itemsHaveKey (name : String) : List Json → Bool
  | [] => false
  | j :: js => hasKey name j || itemsHaveKey name js

def fieldsHaveKey (name : String) : List (String × Json) → Bool
  | [] => false
  | (n, j) :: fs => n == name || hasKey name j || fieldsHaveKey name fs

end

def items : Json → List Json
  | .array js => js
  | _ => []

variable {name : String}

theorem itemsHaveKey_eq_false {js : List Json} :
    itemsHaveKey name js = false ↔ ∀ j ∈ js, hasKey name j = false := by
  induction js with
  | nil => simp [itemsHaveKey]
  | cons j js ih => simp [itemsHaveKey, ih]

theorem fieldsHaveKey_eq_false {fs : Fields} :
    fieldsHaveKey name fs = false ↔ ∀ f ∈ fs, f.1 ≠ name ∧ hasKey name f.2 = false := by
  induction fs with
  | nil => simp [fieldsHaveKey]
  | cons f fs ih => simp [fieldsHaveKey, ih, and_assoc]

end Json

/-- The raw text that an array of the values of its fields stands for. -/
def Raw.ofArray? : Json → Option Raw
  | .array [.string sql] => some ⟨sql, []⟩
  | .array [.string sql, .array values] => (values.mapM Value.ofJson?).map (Raw.mk sql)
  | _ => none

/-- What is under a name. -/
def fieldAt (fs : Fields) (name : String) : List Json := (fs.lookup name).toList

/-- The items of the array under a name. -/
def itemsAt (fs : Fields) (name : String) : List Json := (fieldAt fs name).flatMap Json.items

namespace ConditionFormat

variable {τ α : Type} [DecidableEq τ] (F : ConditionFormat τ α) (takesRaw : τ → Bool)

mutual

/-- The values of the conditions whose tag lets them take raw text. -/
def rawPlaces : Json → List Json
  | .object fs =>
    match required fs "type" (tag? .lenient F.tags) with
    | none => []
    | some tag =>
      if tag = F.wrapped then valuePlaces fs
      else if takesRaw tag then fieldAt fs "value" else []
  | _ => []

def valuePlaces : Fields → List Json
  | [] => []
  | (name, j) :: fs => if name = "value" then memberPlaces j else valuePlaces fs

def memberPlaces : Json → List Json
  | .array js => itemPlaces js
  | _ => []

def itemPlaces : List Json → List Json
  | [] => []
  | j :: js => rawPlaces j ++ itemPlaces js

end

end ConditionFormat

/-- The tags whose value may be raw text. -/
def WhereTag.takesRaw : WhereTag → Bool
  | .basic | .isIn | .hasRows | .raw => true
  | .null | .between | .wrapped => false

def JoinTag.takesRaw : JoinTag → Bool
  | .onVal | .onIn | .onRows | .onRaw => true
  | .onBasic | .onNull | .onBetween | .onWrapped | .onUsing => false

def WhereClause.rawPlaces : Json → List Json := format.rawPlaces WhereTag.takesRaw

def JoinCondition.rawPlaces : Json → List Json := format.rawPlaces JoinTag.takesRaw

/-- The source of a join and the places in its conditions. -/
def ArrayJoin.rawPlaces (j : Json) : List Json :=
  match record? fieldNames j with
  | none => []
  | some fs =>
    fieldAt fs "table" ++ (itemsAt fs "clauses").flatMap JoinCondition.rawPlaces

/-- The value of an entry with the tag of raw text. -/
def itemRawPlaces (j : Json) : List Json :=
  match tagged? j with
  | none => []
  | some (t, content) =>
    match tag? .lenient ItemTag.all t, record? ["value"] content with
    | some .raw, some fs => fieldAt fs "value"
    | _, _ => []

/-- The new value of a column. -/
def Assignment.rawPlaces (j : Json) : List Json :=
  match record? fieldNames j with
  | none => []
  | some fs => fieldAt fs "value"

/-- The places of a document at which raw text may stand. -/
def Query.rawPlaces (j : Json) : List Json :=
  (itemsAt j.fields "arrayJoin").flatMap ArrayJoin.rawPlaces ++
    (itemsAt j.fields "prewhere").flatMap WhereClause.rawPlaces ++
    (itemsAt j.fields "where").flatMap WhereClause.rawPlaces ++
    (itemsAt j.fields "group").flatMap itemRawPlaces ++
    (itemsAt j.fields "order").flatMap itemRawPlaces ++
    (itemsAt j.fields "update").flatMap Assignment.rawPlaces ++
    fieldAt j.fields "limit"

end ClauseTree
