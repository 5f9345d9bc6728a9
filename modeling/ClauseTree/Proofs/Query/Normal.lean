import ClauseTree.Proofs.Statement.Bindings
import ClauseTree.Proofs.Statement.Pruning

/-!
# Normal forms of conditions

Different conditions may be written alike: what is told apart is a name by its segments, an
operator without its blanks and in lower case, and of the connectors those that do not stand in
front of the first condition. `normal` keeps this and drops the rest. Groups without a test go, and
a membership test without candidates is a constant whatever its columns are.

`shape` is the normal form without its values. A normal form is made of its shape and its values,
and `normal_eq_of_shape_eq` says that nothing else goes into it.
-/

namespace ClauseTree

/-- Columns by the segments of their names. -/
inductive NormalColumns where
  | single (column : Identifier)
  | multi (columns : List Identifier)
  deriving DecidableEq, Repr

/-- A test without what its text does not tell. A `ν` stands for a value. -/
inductive NormalTest (ν : Type) where
  | basic (column : Identifier) (operator : String) (value : ν)
  /-- The comparison of two columns. -/
  | pair (column : Identifier) (operator : String) (other : Identifier)
  | isNull (column : Identifier)
  /-- A membership test without candidates. -/
  | never
  | inList (columns : NormalColumns) (values : List ν)
  | inRows (columns : NormalColumns) (rows : List (List ν))
  | between (column : Identifier) (low high : ν)
  /-- A test with raw text in it. Of such a test the text tells nothing. -/
  | raw (t : Test)

namespace NormalTest

variable {ν μ : Type}

def map (g : ν → μ) : NormalTest ν → NormalTest μ
  | .basic column operator value => .basic column operator (g value)
  | .pair column operator other => .pair column operator other
  | .isNull column => .isNull column
  | .never => .never
  | .inList columns values => .inList columns (values.map g)
  | .inRows columns rows => .inRows columns (rows.map (List.map g))
  | .between column low high => .between column (g low) (g high)
  | .raw t => .raw t

/-- The values in the order of the text. -/
def values : NormalTest ν → List ν
  | .basic _ _ value => [value]
  | .pair _ _ _ => []
  | .isNull _ => []
  | .never => []
  | .inList _ values => values
  | .inRows _ rows => rows.flatten
  | .between _ low high => [low, high]
  | .raw _ => []

/-- The test without its values. -/
def shape (t : NormalTest ν) : NormalTest Unit := t.map fun _ => ()

end NormalTest

def Columns.normal : Columns → NormalColumns
  | .single name => .single (Identifier.ofChars name.toList)
  | .multi names => .multi (names.map fun n => Identifier.ofChars n.toList)

def NormalTest.comparison (column operator : String) : Operand → NormalTest Value
  | .raw r => .raw (.basic column operator (.raw r))
  | .column other =>
    .pair (Identifier.ofChars column.toList) (Dialect.normalize operator)
      (Identifier.ofChars other.toList)
  | .value v => .basic (Identifier.ofChars column.toList) (Dialect.normalize operator) v

def NormalTest.membership (columns : Columns) : Candidates → NormalTest Value
  | .raw r => .raw (.isIn columns (.raw r))
  | .rows rs => if rs.isEmpty then .never else .inRows columns.normal rs
  | .list vs => if vs.isEmpty then .never else .inList columns.normal vs

def Test.normal : Test → NormalTest Value
  | .basic column operator value => NormalTest.comparison column operator value
  | .isNull column => .isNull (Identifier.ofChars column.toList)
  | .isIn columns candidates => NormalTest.membership columns candidates
  | .between column low high => .between (Identifier.ofChars column.toList) low high
  | .hasRows subquery => .raw (.hasRows subquery)
  | .raw r => .raw (.raw r)

/-! ## Connectors -/

namespace Condition

variable {α β γ : Type}

mutual

/-- The condition with its members led. -/
def ledWithin : Condition α → Condition α
  | .test t n k => .test t n k
  | .group ms n k => .group (led ms) n k

/-- The conditions with the members of each led. -/
def ledBehind : List (Condition α) → List (Condition α)
  | [] => []
  | c :: cs => ledWithin c :: ledBehind cs

/-- The conditions with `and` as the connector of the first one, at every depth. -/
def led : List (Condition α) → List (Condition α)
  | [] => []
  | c :: cs => (ledWithin c).setConnector .and :: ledBehind cs

end

theorem mapAll_mapAll (g : β → γ) (f : α → β) (cs : List (Condition α)) :
    mapAll g (mapAll f cs) = mapAll (g ∘ f) cs := by
  induction cs using forest_induction with
  | nil => rfl
  | test t n k cs ih => simp [mapAll, map, ih]
  | group ms n k cs ihms ih => simp [mapAll, map, ihms, ih]

theorem mapAll_led (g : α → β) (cs : List (Condition α)) :
    mapAll g (led cs) = led (mapAll g cs) ∧
      mapAll g (ledBehind cs) = ledBehind (mapAll g cs) := by
  induction cs using forest_induction with
  | nil => exact ⟨rfl, rfl⟩
  | test t n k cs ih => simp [mapAll, map, led, ledBehind, ledWithin, setConnector, ih.2]
  | group ms n k cs ihms ih =>
    simp [mapAll, map, led, ledBehind, ledWithin, setConnector, ih.2, ihms.1]

theorem testsOf_led (cs : List (Condition α)) :
    testsOf (led cs) = testsOf cs ∧ testsOf (ledBehind cs) = testsOf cs := by
  induction cs using forest_induction with
  | nil => exact ⟨rfl, rfl⟩
  | test t n k cs ih => simp [led, ledBehind, ledWithin, setConnector, ih.2]
  | group ms n k cs ihms ih => simp [led, ledBehind, ledWithin, setConnector, ih.2, ihms.1]

end Condition

open Condition

/-! ## Normal forms -/

namespace WhereClause

/-- The conditions as far as their text tells them. -/
def normal (cs : List WhereClause) : List (Condition (NormalTest Value)) :=
  led (mapAll Test.normal (prune cs))

/-- The normal form without its values. -/
def shape (cs : List WhereClause) : List (Condition (NormalTest Unit)) :=
  mapAll NormalTest.shape (normal cs)

theorem shape_eq (cs : List WhereClause) :
    shape cs = led (mapAll (NormalTest.shape ∘ Test.normal) (prune cs)) := by
  rw [shape, normal, (mapAll_led _ _).1, mapAll_mapAll]

end WhereClause

/-! ## Values -/

namespace NormalTest

variable {ν : Type}

/-- Two lists of the same length in front of two others. -/
theorem values_append_inj {vs vs' ws ws' : List ν}
    (h : vs.map (fun _ => ()) = vs'.map fun _ => ()) (happend : vs ++ ws = vs' ++ ws') :
    vs = vs' ∧ ws = ws' := by
  have hlength : vs.length = vs'.length := by simpa using congrArg List.length h
  exact List.append_inj happend hlength

theorem rows_append_inj {rs rs' : List (List ν)} {ws ws' : List ν}
    (h : rs.map (List.map fun _ => ()) = rs'.map (List.map fun _ => ()))
    (happend : rs.flatten ++ ws = rs'.flatten ++ ws') : rs = rs' ∧ ws = ws' := by
  induction rs generalizing rs' with
  | nil =>
    obtain rfl : rs' = [] := List.map_eq_nil_iff.1 h.symm
    exact ⟨rfl, happend⟩
  | cons r rs ih =>
    cases rs' with
    | nil => cases h
    | cons r' rs' =>
      rw [List.map_cons, List.map_cons, List.cons.injEq] at h
      rw [List.flatten_cons, List.flatten_cons, List.append_assoc, List.append_assoc] at happend
      obtain ⟨rfl, htail⟩ := values_append_inj h.1 happend
      obtain ⟨rfl, hws⟩ := ih h.2 htail
      exact ⟨rfl, hws⟩

theorem shape_append_inj {t t' : NormalTest ν} {ws ws' : List ν} (h : t.shape = t'.shape)
    (happend : t.values ++ ws = t'.values ++ ws') : t = t' ∧ ws = ws' := by
  cases t with
  | inList columns vs =>
    cases t' with
    | inList columns' vs' =>
      injection h with hcolumns hvalues
      obtain ⟨rfl, hws⟩ := values_append_inj hvalues happend
      exact ⟨by rw [hcolumns], hws⟩
    | _ => cases h
  | inRows columns rs =>
    cases t' with
    | inRows columns' rs' =>
      injection h with hcolumns hrows
      obtain ⟨rfl, hws⟩ := rows_append_inj hrows happend
      exact ⟨by rw [hcolumns], hws⟩
    | _ => cases h
  | between column low high =>
    cases t' with
    | between column' low' high' =>
      cases h
      simpa [values, and_assoc] using happend
    | _ => cases h
  | _ =>
    cases t' <;> cases h
    all_goals simpa [values] using happend

end NormalTest

theorem Test.values_normal {t : Test} (h : Leaf.raws t.leaves = []) :
    t.normal.values = t.values := by
  cases t with
  | basic column operator value =>
    cases value with
    | raw r => cases h
    | _ => rfl
  | isIn columns candidates =>
    cases candidates with
    | raw r =>
      have hraw : Leaf.raws columns.leaves ++ [r] = [] := (Leaf.raws_append _ _).symm.trans h
      simp at hraw
    | rows rs => cases rs <;> rfl
    | list vs => cases vs <;> rfl
  | hasRows subquery => cases h
  | raw r => cases h
  | _ => rfl

namespace WhereClause

/-- The values of the conditions are those of their normal form, if there is no raw text. -/
theorem values_normal {cs : List WhereClause} (h : Leaf.raws (leaves cs) = []) :
    (testsOf (normal cs)).flatMap NormalTest.values = values cs := by
  have htests : ∀ t ∈ testsOf cs, t.normal.values = t.values :=
    fun t ht => Test.values_normal (Leaf.raws_eq_nil_of_mem h ht)
  rw [normal, (testsOf_led _).1, testsOf_mapAll, testsOf_prune, List.flatMap_map, values,
    List.flatMap_def, List.flatMap_def, List.map_congr_left htests]

end WhereClause

/-- Trees of the same shape in front of other values. -/
theorem Condition.shape_append_inj {ν : Type} {cs cs' : List (Condition (NormalTest ν))}
    {ws ws' : List ν} (h : mapAll NormalTest.shape cs = mapAll NormalTest.shape cs')
    (happend : (testsOf cs).flatMap NormalTest.values ++ ws =
      (testsOf cs').flatMap NormalTest.values ++ ws') : cs = cs' ∧ ws = ws' := by
  induction cs using forest_induction generalizing cs' ws ws' with
  | nil =>
    cases cs' with
    | nil => exact ⟨rfl, happend⟩
    | cons c cs' => cases h
  | test t n k cs ih =>
    cases cs' with
    | nil => cases h
    | cons c cs' =>
      injection h with hfirst hrest
      cases c with
      | test t' n' k' =>
        injection hfirst with hshape hnegated hconnector
        simp only [testsOf_test_cons, List.flatMap_cons, List.append_assoc] at happend
        obtain ⟨rfl, hbehind⟩ := NormalTest.shape_append_inj hshape happend
        obtain ⟨rfl, hws⟩ := ih hrest hbehind
        exact ⟨by rw [hnegated, hconnector], hws⟩
      | group ms' n' k' => cases hfirst
  | group ms n k cs ihms ih =>
    cases cs' with
    | nil => cases h
    | cons c cs' =>
      injection h with hfirst hrest
      cases c with
      | test t' n' k' => cases hfirst
      | group ms' n' k' =>
        injection hfirst with hshape hnegated hconnector
        simp only [testsOf_group_cons, List.flatMap_append, List.append_assoc] at happend
        obtain ⟨rfl, hbehind⟩ := ihms hshape happend
        obtain ⟨rfl, hws⟩ := ih hrest hbehind
        exact ⟨by rw [hnegated, hconnector], hws⟩

namespace WhereClause

/-- A normal form is determined by its shape and the values of the conditions. -/
theorem normal_eq_of_shape_eq {cs cs' : List WhereClause} (h : Leaf.raws (leaves cs) = [])
    (h' : Leaf.raws (leaves cs') = []) (hshape : shape cs = shape cs')
    (hvalues : values cs = values cs') : normal cs = normal cs' := by
  have happend : (testsOf (normal cs)).flatMap NormalTest.values ++ [] =
      (testsOf (normal cs')).flatMap NormalTest.values ++ [] := by
    rw [values_normal h, values_normal h', hvalues]
  exact (shape_append_inj hshape happend).1

end WhereClause

end ClauseTree
